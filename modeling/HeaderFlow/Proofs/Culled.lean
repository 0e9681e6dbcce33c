import Mathlib.Data.List.Forall2
import HeaderFlow.Proofs.Checked

/-!
# Lists without some of their members

`Culled R S l m` says that `m` comes from `l` by leaving out members with `S` and replacing each of
the others by one that is related to it by `R`. A walk along `l` does for the members that stay what
a walk along `m` does, **and something else in between** for those that are left out.

It lies between two relations that are there already. If nothing can be left out, it is the
pointwise relation of lists, from which and to which the lemmas `of_forall₂` and `forall₂` lead. If
nothing is replaced, it is the relation of a list to its sublists. Like both of these it is
an inductive relation, and it goes through appending, filtering and mapping; a search finds the same
in both lists as long as what it looks for is not left out (`find?`).

For single values there are a few facts about the pointwise relation of options first.
-/

namespace HeaderFlow

variable {α β γ δ : Type} {R R' : α → β → Prop} {S S' : α → Prop} {l : List α} {m : List β} {a : α}
  {b : β}

/-! ### At most one member -/

/-- More is related. -/
theorem optionRel_imp {o : Option α} {o' : Option β} (h : Option.Rel R o o')
    (hR : ∀ a b, R a b → R' a b) : Option.Rel R' o o' := by
  cases h with
  | some hab => exact .some (hR _ _ hab)
  | none => exact .none

/-- Related options are mapped to related options. -/
theorem optionRel_map {R' : γ → δ → Prop} {f : α → γ} {g : β → δ} {o : Option α} {o' : Option β}
    (h : Option.Rel R o o') (hR : ∀ a b, R a b → R' (f a) (g b)) :
    Option.Rel R' (o.map f) (o'.map g) := by
  cases h with
  | some hab => exact .some (hR _ _ hab)
  | none => exact .none

/-- A question about related options has one answer. -/
theorem optionRel_any {p : α → Bool} {q : β → Bool} {o : Option α} {o' : Option β}
    (h : Option.Rel R o o') (hpq : ∀ a b, R a b → p a = q b) : o.any p = o'.any q := by
  cases h with
  | some hab => exact hpq _ _ hab
  | none => rfl

/-- Of related options, both are there or neither. -/
theorem optionRel_isSome {o : Option α} {o' : Option β} (h : Option.Rel R o o') :
    o.isSome = o'.isSome := by
  cases h <;> rfl

theorem of_optionRel_some {o' : Option β} (h : Option.Rel R (some a) o') :
    ∃ b, o' = some b ∧ R a b := by
  cases h with
  | some hab => exact ⟨_, rfl, hab⟩

theorem of_optionRel_some_right {o : Option α} (h : Option.Rel R o (some b)) :
    ∃ a, o = some a ∧ R a b := by
  cases h with
  | some hab => exact ⟨_, rfl, hab⟩

theorem of_optionRel_none {o' : Option β} (h : Option.Rel R none o') : o' = none := by
  cases h with
  | none => rfl

/-- Options whose values are equal are equal. -/
theorem optionRel_eq {R : α → α → Prop} {o o' : Option α} (h : Option.Rel R o o')
    (hR : ∀ a b, R a b → b = a) : o' = o := by
  cases h with
  | some hab => rw [hR _ _ hab]
  | none => rfl

/-- Two options with one counterpart are equal. -/
theorem optionRel_unique {o o₂ : Option α} {p : Option β} (h : Option.Rel R o p)
    (h₂ : Option.Rel R o₂ p) (hR : ∀ a a₂ b, R a b → R a₂ b → a = a₂) : o = o₂ := by
  cases h with
  | some hab =>
    obtain ⟨a₂, rfl, hab₂⟩ := of_optionRel_some_right h₂
    rw [hR _ _ _ hab hab₂]
  | none =>
    cases h₂ with
    | none => rfl

/-! ### Many members -/

/-- The second list is the first one without some members that have `S`; the others are related by
`R`. -/
inductive Culled (R : α → β → Prop) (S : α → Prop) : List α → List β → Prop
  | nil : Culled R S [] []
  | keep {a : α} {b : β} {l : List α} {m : List β} :
    R a b → Culled R S l m → Culled R S (a :: l) (b :: m)
  | skip {a : α} {l : List α} {m : List β} : S a → Culled R S l m → Culled R S (a :: l) m

namespace Culled

/-- More is related, and more may be left out. -/
theorem imp (hR : ∀ a b, R a b → R' a b) (hS : ∀ a, S a → S' a) (h : Culled R S l m) :
    Culled R' S' l m := by
  induction h with
  | nil => exact .nil
  | keep hab _ ih => exact .keep (hR _ _ hab) ih
  | skip ha _ ih => exact .skip (hS _ ha) ih

/-- What is related may use that it is on the lists. -/
theorem imp_mem (hR : ∀ a ∈ l, ∀ b ∈ m, R a b → R' a b) (hS : ∀ a ∈ l, S a → S' a)
    (h : Culled R S l m) : Culled R' S' l m := by
  induction h with
  | nil => exact .nil
  | keep hab _ ih =>
    exact .keep (hR _ List.mem_cons_self _ List.mem_cons_self hab) <|
      ih (fun a ha b hb ↦ hR a (List.mem_cons_of_mem _ ha) b (List.mem_cons_of_mem _ hb))
        fun a ha ↦ hS a (List.mem_cons_of_mem _ ha)
  | skip ha _ ih =>
    exact .skip (hS _ List.mem_cons_self ha) <|
      ih (fun a ha ↦ hR a (List.mem_cons_of_mem _ ha)) fun a ha ↦ hS a (List.mem_cons_of_mem _ ha)

/-- Lists are put together. -/
theorem append {l' : List α} {m' : List β} (h : Culled R S l m) (h' : Culled R S l' m') :
    Culled R S (l ++ l') (m ++ m') := by
  induction h with
  | nil => exact h'
  | keep hab _ ih => exact .keep hab ih
  | skip ha _ ih => exact .skip ha ih

theorem single (hab : R a b) : Culled R S [a] [b] := .keep hab .nil

/-- All members are left out. -/
theorem all_skip (h : ∀ a ∈ l, S a) : Culled R S l [] := by
  induction l with
  | nil => exact .nil
  | cons a l ih =>
    obtain ⟨ha, hl⟩ := List.forall_mem_cons.1 h
    exact .skip ha (ih hl)

/-- Every member stays or is left out. -/
theorem of_mem (h : Culled R S l m) (ha : a ∈ l) : (∃ b ∈ m, R a b) ∨ S a := by
  induction h with
  | nil => cases ha
  | keep hab _ ih =>
    rcases List.mem_cons.1 ha with rfl | ha
    · exact .inl ⟨_, List.mem_cons_self, hab⟩
    · exact (ih ha).imp_left fun ⟨b, hb, hab⟩ ↦ ⟨b, List.mem_cons_of_mem _ hb, hab⟩
  | skip ha' _ ih =>
    rcases List.mem_cons.1 ha with rfl | ha
    · exact .inr ha'
    · exact ih ha

/-- Every member of the culled list was there. -/
theorem of_mem_right (h : Culled R S l m) (hb : b ∈ m) : ∃ a ∈ l, R a b := by
  induction h with
  | nil => cases hb
  | keep hab _ ih =>
    rcases List.mem_cons.1 hb with rfl | hb
    · exact ⟨_, List.mem_cons_self, hab⟩
    · exact (ih hb).imp fun _ ⟨ha, hab⟩ ↦ ⟨List.mem_cons_of_mem _ ha, hab⟩
  | skip _ _ ih => exact (ih hb).imp fun _ ⟨ha, hab⟩ ↦ ⟨List.mem_cons_of_mem _ ha, hab⟩

/-- If nothing is left out and nothing replaced, the lists are equal. -/
theorem eq {m : List α} {R : α → α → Prop} (h : Culled R S l m) (hR : ∀ a b, R a b → b = a)
    (hS : ∀ a, ¬ S a) : m = l := by
  induction h with
  | nil => rfl
  | keep hab _ ih => rw [hR _ _ hab, ih]
  | skip ha _ _ => exact absurd ha (hS _)

/-- If nothing is left out, what has the same counterpart is the same. -/
theorem unique {l₂ : List α} (h : Culled R (fun _ ↦ False) l m) (h₂ : Culled R (fun _ ↦ False) l₂ m)
    (hR : ∀ a a₂ b, R a b → R a₂ b → a = a₂) : l = l₂ := by
  induction h generalizing l₂ with
  | nil =>
    cases h₂ with
    | nil => rfl
    | skip hno _ => exact hno.elim
  | keep hab _ ih =>
    cases h₂ with
    | keep hab₂ h₂ => rw [hR _ _ _ hab hab₂, ih h₂]
    | skip hno _ => exact hno.elim
  | skip hno _ _ => exact hno.elim

/-- Members that go together one by one. -/
theorem of_forall₂ (h : List.Forall₂ R l m) : Culled R S l m := by
  induction h with
  | nil => exact .nil
  | cons hab _ ih => exact .keep hab ih

/-- If nothing is left out, members go together one by one. -/
theorem forall₂ (h : Culled R S l m) (hS : ∀ a ∈ l, ¬ S a) : List.Forall₂ R l m := by
  induction h with
  | nil => exact .nil
  | keep hab _ ih => exact .cons hab (ih fun a ha ↦ hS a (List.mem_cons_of_mem _ ha))
  | skip ha _ _ => exact absurd ha (hS _ List.mem_cons_self)

/-- A walk along both lists picks the same members. -/
theorem filter {p : α → Bool} {q : β → Bool} (h : Culled R S l m)
    (hpq : ∀ a b, R a b → p a = q b) : Culled R S (l.filter p) (m.filter q) := by
  induction h with
  | nil => exact .nil
  | keep hab _ ih =>
    rw [List.filter_cons, List.filter_cons, hpq _ _ hab]
    split
    · exact .keep hab ih
    · exact ih
  | skip ha _ ih =>
    rw [List.filter_cons]
    split
    · exact .skip ha ih
    · exact ih

/-- Picking members of the first list that stay changes nothing. -/
theorem filter_left {p : α → Bool} (h : Culled R S l m) (hp : ∀ a b, R a b → p a = true) :
    Culled R S (l.filter p) m := by
  induction h with
  | nil => exact .nil
  | keep hab _ ih =>
    rw [List.filter_cons, if_pos (hp _ _ hab)]
    exact .keep hab ih
  | skip ha _ ih =>
    rw [List.filter_cons]
    split
    · exact .skip ha ih
    · exact ih

/-- Both lists are changed alike. -/
theorem map {f : α → γ} {g : β → δ} {R' : γ → δ → Prop} {S' : γ → Prop} (h : Culled R S l m)
    (hR : ∀ a b, R a b → R' (f a) (g b)) (hS : ∀ a, S a → S' (f a)) :
    Culled R' S' (l.map f) (m.map g) := by
  induction h with
  | nil => exact .nil
  | keep hab _ ih => exact .keep (hR _ _ hab) ih
  | skip ha _ ih => exact .skip (hS _ ha) ih

/-- Only the first list is changed. -/
theorem map_left {f : α → γ} {R' : γ → β → Prop} {S' : γ → Prop} (h : Culled R S l m)
    (hR : ∀ a b, R a b → R' (f a) b) (hS : ∀ a, S a → S' (f a)) : Culled R' S' (l.map f) m := by
  simpa using h.map (f := f) (g := id) hR hS

/-- What is looked for stays: then the same is found. -/
theorem find? {p : α → Bool} {q : β → Bool} (h : Culled R S l m) (hpq : ∀ a b, R a b → p a = q b)
    (hS : ∀ a, S a → p a = false) : Option.Rel R (l.find? p) (m.find? q) := by
  induction h with
  | nil => exact .none
  | keep hab _ ih =>
    rw [List.find?_cons, List.find?_cons, hpq _ _ hab]
    split
    · exact .some hab
    · exact ih
  | skip ha _ ih =>
    rw [List.find?_cons, hS _ ha]
    exact ih

/-- What is not left out is on both lists or on neither. -/
theorem contains [BEq α] [BEq β] (h : Culled R S l m) (hpq : ∀ x y, R x y → (a == x) = (b == y))
    (hS : ∀ x, S x → (a == x) = false) : l.contains a = m.contains b := by
  induction h with
  | nil => rfl
  | keep hab _ ih => rw [List.contains_cons, List.contains_cons, hpq _ _ hab, ih]
  | skip ha _ ih => rw [List.contains_cons, hS _ ha, ih, Bool.false_or]

/-- Lists of lists are put together. -/
theorem flatten {l : List (List α)} {m : List (List β)}
    (h : List.Forall₂ (Culled R S) l m) : Culled R S l.flatten m.flatten := by
  induction h with
  | nil => exact .nil
  | cons hab _ ih => exact hab.append ih

end Culled

end HeaderFlow
