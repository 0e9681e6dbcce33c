import Mathlib.Data.List.Forall2
import HeaderFlow.Fault

/-!
# Computations that may break a precondition

A checked computation is taken apart at its binds: **it succeeds if and only if every step of it
does**. All proofs about operations that may answer a fault go through `Checked.bind_eq_ok` and
`Checked.map_eq_ok`. Two computations are compared by what they answer: one `Tracks` the other if it
succeeds at least as often, with an answer that is related.
-/

namespace HeaderFlow.Checked

variable {α β : Type} {x : Checked α} {a : α} {b : β}

@[simp] theorem ok_bind {k : α → Checked β} : ((.ok a : Checked α) >>= k) = k a := rfl

@[simp] theorem pure_eq_ok : (pure a : Checked α) = .ok a := rfl

@[simp] theorem bind_eq_ok {k : α → Checked β} :
    x >>= k = .ok b ↔ ∃ a, x = .ok a ∧ k a = .ok b := by
  cases x with
  | error e => simp [bind, Except.bind]
  | ok a => simp

@[simp] theorem map_eq_ok {k : α → β} : Except.map k x = .ok b ↔ ∃ a, x = .ok a ∧ k a = b := by
  cases x with
  | error e => simp [Except.map]
  | ok a => simp [Except.map]

/-- A mapping over a list succeeds if it does on every member. -/
theorem mapM_cons_eq_ok {k : α → Checked β} {l : List α} {out : List β} :
    (a :: l).mapM k = .ok out ↔ ∃ b bs, k a = .ok b ∧ l.mapM k = .ok bs ∧ out = b :: bs := by
  rw [List.mapM_cons, bind_eq_ok]
  constructor
  · rintro ⟨b, hb, hrest⟩
    obtain ⟨bs, hbs, hout⟩ := bind_eq_ok.1 hrest
    exact ⟨b, bs, hb, hbs, (Except.ok.inj hout).symm⟩
  · rintro ⟨b, bs, hb, hbs, rfl⟩
    exact ⟨b, hb, bind_eq_ok.2 ⟨bs, hbs, rfl⟩⟩

/-- The answers of a mapping are those for the members. -/
theorem of_mapM_eq_ok {k : α → Checked β} {l : List α} {out : List β} (hout : l.mapM k = .ok out) :
    (∀ a ∈ l, ∃ b, k a = .ok b) ∧ ∀ b, b ∈ out ↔ ∃ a ∈ l, k a = .ok b := by
  induction l generalizing out with
  | nil =>
    obtain rfl := Except.ok.inj hout
    simp
  | cons a l ih =>
    obtain ⟨b, bs, hb, hbs, rfl⟩ := mapM_cons_eq_ok.1 hout
    obtain ⟨hall, hmem⟩ := ih hbs
    exact ⟨List.forall_mem_cons.2 ⟨⟨b, hb⟩, hall⟩, by simp [hb, hmem, eq_comm]⟩

/-! ### Computations that break no precondition -/

/-- The computation breaks no precondition, and its answer has the property. -/
def Gives (x : Checked α) (P : α → Prop) : Prop := ∃ a, x = .ok a ∧ P a

variable {P : α → Prop} {Q : β → Prop}

/-- An answer that is there. -/
theorem gives_ok (ha : P a) : Gives (.ok a) P := ⟨a, rfl, ha⟩

/-- One computation breaks no precondition, and the next one breaks none on its answer. -/
theorem Gives.bind {k : α → Checked β} (hx : Gives x P) (hk : ∀ a, P a → Gives (k a) Q) :
    Gives (x >>= k) Q := by
  obtain ⟨a, rfl, ha⟩ := hx
  exact hk a ha

/-- The answer is changed. -/
theorem Gives.map {k : α → β} (hx : Gives x P) (hk : ∀ a, P a → Q (k a)) :
    Gives (Except.map k x) Q := by
  obtain ⟨a, rfl, ha⟩ := hx
  exact ⟨k a, rfl, hk a ha⟩

/-- **A mapping over a list breaks no precondition if none of its steps does.** -/
theorem gives_mapM {k : α → Checked β} {l : List α} (hk : ∀ a ∈ l, Gives (k a) Q) :
    Gives (l.mapM k) fun bs ↦ ∀ b ∈ bs, Q b := by
  induction l with
  | nil => exact gives_ok (by simp)
  | cons a l ih =>
    obtain ⟨b, hb, hQ⟩ := hk a List.mem_cons_self
    obtain ⟨bs, hbs, hQs⟩ := ih fun c hc ↦ hk c (List.mem_cons_of_mem _ hc)
    exact ⟨b :: bs, mapM_cons_eq_ok.2 ⟨b, bs, hb, hbs, rfl⟩, List.forall_mem_cons.2 ⟨hQ, hQs⟩⟩

/-! ### Computations that keep up with others -/

variable {γ δ : Type} {y : Checked β} {R R' : α → β → Prop} {S : γ → δ → Prop}

/-- If the first computation succeeds, so does the second, and the answers are related. -/
def Tracks (x : Checked α) (y : Checked β) (R : α → β → Prop) : Prop :=
  ∀ a, x = .ok a → ∃ b, y = .ok b ∧ R a b

/-- Two answers that are there. -/
theorem tracks_ok (hab : R a b) : Tracks (.ok a) (.ok b) R := by
  rintro a ⟨⟩
  exact ⟨b, rfl, hab⟩

/-- A computation keeps up with itself. -/
theorem tracks_refl (x : Checked α) : Tracks x x Eq := fun a ha ↦ ⟨a, ha, rfl⟩

/-- **Sequences keep up step by step.** -/
theorem Tracks.bind {k : α → Checked γ} {l : β → Checked δ} (hx : Tracks x y R)
    (hk : ∀ a b, R a b → Tracks (k a) (l b) S) : Tracks (x >>= k) (y >>= l) S := by
  intro c hc
  obtain ⟨a, ha, hc⟩ := bind_eq_ok.1 hc
  obtain ⟨b, rfl, hab⟩ := hx a ha
  exact hk a b hab c hc

/-- The first computation does something that the second one does not. -/
theorem Tracks.bind_left {k : α → Checked γ} {z : Checked δ}
    (hk : ∀ a, x = .ok a → Tracks (k a) z S) : Tracks (x >>= k) z S := by
  intro c hc
  obtain ⟨a, ha, hc⟩ := bind_eq_ok.1 hc
  exact hk a ha c hc

/-- The answers are changed alike. -/
theorem Tracks.map {k : α → γ} {l : β → δ} (hx : Tracks x y R) (hk : ∀ a b, R a b → S (k a) (l b)) :
    Tracks (Except.map k x) (Except.map l y) S := by
  intro c hc
  obtain ⟨a, ha, rfl⟩ := map_eq_ok.1 hc
  obtain ⟨b, rfl, hab⟩ := hx a ha
  exact ⟨l b, rfl, hk a b hab⟩

/-- Less is asked of the answers. -/
theorem Tracks.imp (hx : Tracks x y R) (hR : ∀ a b, R a b → R' a b) : Tracks x y R' := fun a ha ↦
  (hx a ha).imp fun b hb ↦ ⟨hb.1, hR a b hb.2⟩

/-- A mapping over a list keeps up with one over another list if it does so member by member. -/
theorem tracks_mapM_of_forall₂ {ε ζ : Type} {k : ε → Checked α} {l : ζ → Checked β} {es : List ε}
    {zs : List ζ} (hkl : List.Forall₂ (fun e z ↦ Tracks (k e) (l z) R) es zs) :
    Tracks (es.mapM k) (zs.mapM l) (List.Forall₂ R) := by
  induction hkl with
  | nil => exact tracks_ok .nil
  | cons he _ ih =>
    rw [List.mapM_cons, List.mapM_cons]
    exact he.bind fun a b hab ↦ ih.bind fun as bs habs ↦ tracks_ok (.cons hab habs)

/-- Both mappings go over one list. -/
theorem tracks_mapM {ε : Type} {k : ε → Checked α} {l : ε → Checked β} {es : List ε}
    (hkl : ∀ e ∈ es, Tracks (k e) (l e) R) : Tracks (es.mapM k) (es.mapM l) (List.Forall₂ R) :=
  tracks_mapM_of_forall₂ (List.forall₂_same.2 hkl)

end HeaderFlow.Checked
