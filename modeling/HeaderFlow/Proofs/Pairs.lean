import HeaderFlow.Proofs.Hiding
import HeaderFlow.Proofs.Culled

/-!
# Arenas in step

Two arenas are *in step* if each value of the first has a counterpart in the second, under a handle
of its own, or is *lost*: the second arena never had it. `Lexicon` says which handle goes with
which. It only grows, and **it never forgets a handle**, so what is known of two handles stays true
when their values are gone.

Storing, changing or removing a value in the first arena and its counterpart in the second keeps
them in step, and so does storing, changing or removing a lost value in the first arena alone. Two
arenas can be in step *exactly*: then nothing is lost, and both give out the same handles.

## Names

A name in the lexicon is kept or lost, and never both (`Kept.not_lost`). What goes with a name is
settled once and for all, so facts about names grow with the lexicon (`Kept.grow`, `Lost.grow`).
Since it is injective, two kept names are different exactly if their counterparts are
(`Injective.eq_iff`). Code that compares handles does the same in both runs for that reason.

## Arenas

`Pairs` asks that every live handle has a name, that values under kept names go together, and that
values under lost names are such as can be lost. A name is put in when a value is stored. The handle
is new then, in the arena and in the lexicon, since only known handles have names (`new_none`).

`Alike` is for arenas in which nothing can be lost from the start: then no lexicon is needed, and
handles are the same.
-/

namespace HeaderFlow

/-- What goes with a name in the other run. -/
inductive Fate (κ δ : Type) where
  /-- It goes by this name there. -/
  | kept (name : κ)
  /-- It is not there. -/
  | lost (how : δ)

/-- What goes with the names of one run in another one. -/
abbrev Lexicon (κ δ : Type) : Type := κ → Option (Fate κ δ)

namespace Lexicon

variable {κ δ : Type} {ν ν' ν'' : Lexicon κ δ} {k l k' : κ} {x : Fate κ δ} {d : δ}

/-- The name goes with that name. -/
def Kept (ν : Lexicon κ δ) (k k' : κ) : Prop := ν k = some (.kept k')

/-- Nothing goes with the name. -/
def Lost (ν : Lexicon κ δ) (d : δ) (k : κ) : Prop := ν k = some (.lost d)

/-- More names go with more names. -/
def Grows (ν ν' : Lexicon κ δ) : Prop := ∀ k x, ν k = some x → ν' k = some x

/-- Different names go with different names. -/
def Injective (ν : Lexicon κ δ) : Prop := ∀ k l k', ν.Kept k k' → ν.Kept l k' → k = l

/-- A lexicon grows into itself. -/
theorem Grows.refl (ν : Lexicon κ δ) : Grows ν ν := fun _ _ h ↦ h

/-- A lexicon grows in two steps. -/
theorem Grows.trans (h : Grows ν ν') (h' : Grows ν' ν'') : Grows ν ν'' := fun k x hk ↦
  h' k x (h k x hk)

/-- A name that is kept stays kept. -/
theorem Kept.grow (hk : ν.Kept k k') (h : Grows ν ν') : ν'.Kept k k' := h _ _ hk

/-- A name that is lost stays lost. -/
theorem Lost.grow (hk : ν.Lost d k) (h : Grows ν ν') : ν'.Lost d k := h _ _ hk

/-- What is known already does not come to go with another name. -/
theorem Kept.of_grows (hk : ν'.Kept k k') (h : Grows ν ν') (hknown : ∃ x, ν k = some x) :
    ν.Kept k k' := by
  obtain ⟨x, hx⟩ := hknown
  exact hx.trans (congrArg some (Option.some.inj ((h _ _ hx).symm.trans hk)))

/-- **No name is both kept and lost.** -/
theorem Kept.not_lost (hk : ν.Kept k k') : ¬ ν.Lost d k := fun hl ↦ by
  cases hk.symm.trans hl

/-- A name goes with one name only. -/
theorem Kept.unique (hk : ν.Kept k k') (hl : ν.Kept k l) : k' = l := by
  cases hk.symm.trans hl
  rfl

/-- Lexicon are told apart in both runs alike. -/
theorem Injective.eq_iff (hν : ν.Injective) {l' : κ} (hk : ν.Kept k k') (hl : ν.Kept l l') :
    k = l ↔ k' = l' := by
  constructor
  · rintro rfl
    exact hk.unique hl
  · rintro rfl
    exact hν k l k' hk hl

/-- Names are compared alike in both runs. -/
theorem Injective.decide_ne [DecidableEq κ] (hν : ν.Injective) {l' : κ} (hk : ν.Kept k k')
    (hl : ν.Kept l l') : decide (k ≠ l) = decide (k' ≠ l') :=
  decide_eq_decide.2 (not_congr (hν.eq_iff hk hl))

theorem Injective.beq_eq [DecidableEq κ] (hν : ν.Injective) {l' : κ} (hk : ν.Kept k k')
    (hl : ν.Kept l l') : (k == l) = (k' == l') := by
  rw [Bool.eq_iff_iff, beq_iff_eq, beq_iff_eq, hν.eq_iff hk hl]

/-- One more name. -/
def put [DecidableEq κ] (ν : Lexicon κ δ) (k : κ) (x : Fate κ δ) : Lexicon κ δ :=
  fun l ↦ if l = k then some x else ν l

theorem put_self [DecidableEq κ] : ν.put k x k = some x := if_pos rfl

theorem put_of_ne [DecidableEq κ] (h : l ≠ k) : ν.put k x l = ν l := if_neg h

/-- A name is the one that was put there, or it was there before. -/
theorem of_put_eq_some [DecidableEq κ] {y : Fate κ δ} (hl : ν.put k x l = some y) :
    l = k ∧ y = x ∨ l ≠ k ∧ ν l = some y := by
  by_cases hlk : l = k
  · exact .inl ⟨hlk, (Option.some.inj (put_self.symm.trans (hlk ▸ hl))).symm⟩
  · exact .inr ⟨hlk, (put_of_ne hlk).symm.trans hl⟩

/-- A name that is new in both runs. -/
theorem Injective.put [DecidableEq κ] (hν : ν.Injective) (hk' : ∀ l, ¬ ν.Kept l k') :
    (ν.put k (.kept k')).Injective := by
  intro g h l' hg hh
  obtain ⟨rfl, ⟨⟩⟩ | ⟨-, hg'⟩ := of_put_eq_some hg
  · obtain ⟨rfl, -⟩ | ⟨-, hh'⟩ := of_put_eq_some hh
    · rfl
    · exact absurd hh' (hk' h)
  · obtain ⟨rfl, ⟨⟩⟩ | ⟨-, hh'⟩ := of_put_eq_some hh
    · exact absurd hg' (hk' g)
    · exact hν g h l' hg' hh'

/-- A name that is new in the first run only. -/
theorem Injective.put_lost [DecidableEq κ] (hν : ν.Injective) : (ν.put k (.lost d)).Injective := by
  have hold : ∀ {l l'}, (ν.put k (.lost d)).Kept l l' → ν.Kept l l' := fun hl ↦ by
    obtain ⟨-, ⟨⟩⟩ | ⟨-, hbefore⟩ := of_put_eq_some hl
    exact hbefore
  exact fun g h l' hg hh ↦ hν g h l' (hold hg) (hold hh)

/-- A new name does not change the others. -/
theorem grows_put [DecidableEq κ] (hk : ν k = none) : Grows ν (ν.put k x) := fun l y hl ↦ by
  rw [put_of_ne, hl]
  rintro rfl
  cases hk.symm.trans hl

end Lexicon

namespace Arena

variable {α β δ : Type} {a : Arena α} {b : Arena β} {g g' h h' : Handle} {v : α} {w : β}

/-! ### Handles that are known -/

theorem not_past_nextHandle : ¬ a.Past a.nextHandle := fun hp ↦ by
  rw [past_iff, nextHandle_eq] at hp
  obtain ⟨n, hn, hlt⟩ := hp
  cases hfree : a.free with
  | nil =>
    rw [hfree] at hn
    simp at hn
  | cons i rest =>
    rw [hfree] at hn hlt
    simp only [hn, Option.getD_some] at hlt
    omega

/-- The next handle is not known. -/
theorem not_knows_nextHandle (ha : a.Valid) : ¬ a.Knows a.nextHandle := by
  rintro (hp | ⟨v, hv⟩)
  · exact not_past_nextHandle hp
  · exact absurd ((find?_nextHandle ha).symm.trans hv) (by simp)

/-- A known handle stays known when a value is stored. -/
theorem Knows.insert (ha : a.Valid) (hh : a.Knows h) : (a.insert v).Knows h := by
  rcases hh with hp | ⟨w, hw⟩
  · exact .inl hp.insert
  · exact .inr ⟨w, find?_insert_of_some ha hw⟩

/-- A known handle stays known when a value is erased. -/
theorem Knows.erase (hh : a.Knows h) : (a.erase g).Knows h := by
  rcases hh with hp | ⟨w, hw⟩
  · exact .inl hp.erase
  · by_cases hg : h = g
    · subst hg
      exact .inl (past_erase hw)
    · exact .inr ⟨w, by rw [find?_erase, if_neg hg, hw]⟩

theorem Knows.modify {f : α → α} (hh : a.Knows h) : (a.modify g f).Knows h := by
  rcases hh with hp | ⟨w, hw⟩
  · exact .inl (past_modify.2 hp)
  · by_cases hg : h = g
    · subst hg
      exact .inr ⟨f w, find?_modify_self hw⟩
    · exact .inr ⟨w, by rw [find?_modify_of_ne hg, hw]⟩

theorem Knows.map {k : Handle → α → α} (hh : a.Knows h) : (a.map k).Knows h := by
  rcases hh with hp | ⟨w, hw⟩
  · exact .inl (past_map.2 hp)
  · exact .inr ⟨k h w, by rw [find?_map, hw]; rfl⟩

/-! ### In step -/

/-- The arenas are in step under the names: values that go together have `S`, and a value that is
lost in the way `d` has `T d`. If they are so exactly, they give out the same handles. -/
structure Pairs (exact : Prop) (ν : Lexicon Handle δ) (S : α → β → Prop) (T : δ → α → Prop)
    (a : Arena α) (b : Arena β) : Prop where
  valid : a.Valid
  valid' : b.Valid
  known : ∀ h x, ν h = some x → a.Knows h
  known' : ∀ h h', ν.Kept h h' → b.Knows h'
  named : ∀ h v, a.find? h = some v → ∃ x, ν h = some x
  named' : ∀ h' w, b.find? h' = some w → ∃ h, ν.Kept h h'
  injective : ν.Injective
  kept : ∀ h h', ν.Kept h h' → Option.Rel S (a.find? h) (b.find? h')
  lost : ∀ h d, ν.Lost d h → ∀ v, a.find? h = some v → T d v
  same : exact → b.ages = a.ages ∧ b.free = a.free ∧ b.size = a.size ∧
    ∀ h x, ν h = some x → x = .kept h

/-- A handle names something exactly if its counterpart does. -/
theorem contains_eq {S : α → β → Prop} (h : Option.Rel S (a.find? g) (b.find? g')) :
    b.contains g' = a.contains g := by
  rw [contains, contains]
  generalize a.find? g = o at h
  generalize b.find? g' = o' at h
  cases h <;> rfl

variable {exact : Prop} {ν : Lexicon Handle δ} {S S' : α → β → Prop} {T T' : δ → α → Prop}
  {f : α → α} {k : β → β} {d : δ}

namespace Pairs

/-- Empty arenas are in step. -/
theorem empty : Pairs exact (fun _ ↦ none : Lexicon Handle δ) S T Arena.empty Arena.empty where
  valid := valid_empty
  valid' := valid_empty
  known := by rintro _ _ ⟨⟩
  known' := by rintro _ _ ⟨⟩
  named h v hv := absurd hv (find?_empty_ne h v)
  named' h v hv := absurd hv (find?_empty_ne h v)
  injective := by rintro _ _ _ ⟨⟩
  kept := by rintro _ _ ⟨⟩
  lost := by rintro _ _ ⟨⟩
  same _ := ⟨by simp [ages, Arena.empty], by simp [Arena.empty], rfl, by rintro _ _ ⟨⟩⟩

/-- Less is asked of the values. -/
theorem imp (hP : Pairs exact ν S T a b) (hS : ∀ v w, S v w → S' v w) (hT : ∀ d v, T d v → T' d v) :
    Pairs exact ν S' T' a b :=
  { hP with
    kept := fun h h' hh ↦ optionRel_imp (hP.kept h h' hh) hS
    lost := fun h d hh v hv ↦ hT d v (hP.lost h d hh v hv) }

/-- A value and its counterpart. -/
theorem of_live (hP : Pairs exact ν S T a b) (hh : ν.Kept h h') (hv : a.find? h = some v) :
    ∃ w, b.find? h' = some w ∧ S v w := by
  have hrel := hP.kept h h' hh
  rw [hv] at hrel
  generalize b.find? h' = o at hrel
  cases hrel with
  | some hvw => exact ⟨_, rfl, hvw⟩

/-- Every value of the second arena is a counterpart. -/
theorem of_live_right (hP : Pairs exact ν S T a b) (hw : b.find? h' = some w) :
    ∃ h v, ν.Kept h h' ∧ a.find? h = some v ∧ S v w := by
  obtain ⟨h, hh⟩ := hP.named' h' w hw
  obtain ⟨v, hv⟩ := of_optionRel_some_right (hw ▸ hP.kept h h' hh)
  exact ⟨h, v, hh, hv⟩

/-- **The next handle has no name yet.** -/
theorem new_none (hP : Pairs exact ν S T a b) : ν a.nextHandle = none := by
  cases hx : ν a.nextHandle with
  | none => rfl
  | some x => exact absurd (hP.known _ x hx) (not_knows_nextHandle hP.valid)

/-- Nothing is lost between arenas that are exactly in step. -/
theorem inexact (hP : Pairs exact ν S T a b) (hh : ν.Lost d h) : ¬ exact := fun he ↦ by
  cases (hP.same he).2.2.2 h _ hh

/-- In arenas that are exactly in step, names go with themselves. -/
theorem eq_of_kept (hP : Pairs exact ν S T a b) (he : exact) (hh : ν.Kept h h') : h' = h := by
  cases (hP.same he).2.2.2 h _ hh
  rfl

/-- Arenas that are exactly in step give out the same handle. -/
theorem nextHandle_eq (hP : Pairs exact ν S T a b) (he : exact) : b.nextHandle = a.nextHandle := by
  obtain ⟨hages, hfree, -, -⟩ := hP.same he
  rw [Arena.nextHandle_eq, Arena.nextHandle_eq, hages, hfree]

/-- **A value and its counterpart are stored.** -/
theorem insert (hP : Pairs exact ν S T a b) (hS : ∀ v w, S v w → S' v w)
    (hT : ∀ d v, T d v → T' d v) (hvw : S' v w) :
    Pairs exact (ν.put a.nextHandle (.kept b.nextHandle)) S' T' (a.insert v) (b.insert w) := by
  have hold : ∀ h x, (ν.put a.nextHandle (.kept b.nextHandle)) h = some x → h ≠ a.nextHandle →
      ν h = some x := fun h x hx hne ↦ (Lexicon.put_of_ne hne).symm.trans hx
  have hnew : ∀ h', (ν.put a.nextHandle (.kept b.nextHandle)).Kept a.nextHandle h' →
      h' = b.nextHandle := fun h' hh' ↦ by
    cases Lexicon.put_self.symm.trans hh'
    rfl
  have hne' : ∀ h h', ν.Kept h h' → h' ≠ b.nextHandle := fun h h' hh hb ↦
    not_knows_nextHandle hP.valid' (hb ▸ hP.known' h h' hh)
  refine ⟨valid_insert hP.valid, valid_insert hP.valid', fun h x hx ↦ ?_, fun h h' hh ↦ ?_,
    fun h u hu ↦ ?_, fun h' u hu ↦ ?_, fun g h h' hg hh ↦ ?_, fun h h' hh ↦ ?_,
    fun h d hh u hu ↦ ?_, fun he ↦ ⟨?_, ?_, ?_, fun h x hx ↦ ?_⟩⟩
  · by_cases hne : h = a.nextHandle
    · exact .inr ⟨v, hne ▸ find?_insert_self hP.valid⟩
    · exact (hP.known h x (hold h x hx hne)).insert hP.valid
  · by_cases hne : h = a.nextHandle
    · exact .inr ⟨w, hnew h' (hne ▸ hh) ▸ find?_insert_self hP.valid'⟩
    · exact (hP.known' h h' (hold h _ hh hne)).insert hP.valid'
  · by_cases hne : h = a.nextHandle
    · subst hne
      exact ⟨_, Lexicon.put_self⟩
    · rw [find?_insert_of_ne hP.valid hne] at hu
      exact (hP.named h u hu).imp fun x hx ↦ (Lexicon.put_of_ne hne).trans hx
  · by_cases hne : h' = b.nextHandle
    · subst hne
      exact ⟨_, Lexicon.put_self⟩
    · rw [find?_insert_of_ne hP.valid' hne] at hu
      exact (hP.named' h' u hu).imp fun g hg ↦ hg.grow (Lexicon.grows_put hP.new_none)
  · by_cases hgn : g = a.nextHandle <;> by_cases hhn : h = a.nextHandle
    · rw [hgn, hhn]
    · exact absurd (hnew h' (hgn ▸ hg)) (hne' h h' (hold h _ hh hhn))
    · exact absurd (hnew h' (hhn ▸ hh)) (hne' g h' (hold g _ hg hgn))
    · exact hP.injective g h h' (hold g _ hg hgn) (hold h _ hh hhn)
  · by_cases hne : h = a.nextHandle
    · rw [hnew h' (hne ▸ hh), hne, find?_insert_self hP.valid, find?_insert_self hP.valid']
      exact .some hvw
    · have hh := hold h _ hh hne
      rw [find?_insert_of_ne hP.valid hne, find?_insert_of_ne hP.valid' (hne' h h' hh)]
      exact (hP.imp hS hT).kept h h' hh
  · by_cases hne : h = a.nextHandle
    · cases Lexicon.put_self.symm.trans (hne ▸ hh)
    · rw [find?_insert_of_ne hP.valid hne] at hu
      exact hT d u (hP.lost h d (hold h _ hh hne) u hu)
  · rw [ages_insert, ages_insert, (hP.same he).1, (hP.same he).2.1]
  · rw [free_insert, free_insert, (hP.same he).2.1]
  · rw [size_insert, size_insert, (hP.same he).2.2.1]
  · by_cases hne : h = a.nextHandle
    · rw [hne, Lexicon.put_self] at hx
      rw [← Option.some.inj hx, hne, hP.nextHandle_eq he]
    · exact (hP.same he).2.2.2 h x (hold h x hx hne)

/-- **A lost value is stored.** -/
theorem insert_lost (hP : Pairs exact ν S T a b) (hinexact : ¬ exact) (hS : ∀ v w, S v w → S' v w)
    (hT : ∀ d v, T d v → T' d v) (hv : T' d v) :
    Pairs exact (ν.put a.nextHandle (.lost d)) S' T' (a.insert v) b := by
  have hold : ∀ h x, (ν.put a.nextHandle (.lost d)) h = some x → h ≠ a.nextHandle →
      ν h = some x := fun h x hx hne ↦ (Lexicon.put_of_ne hne).symm.trans hx
  have hkept : ∀ h h', (ν.put a.nextHandle (.lost d)).Kept h h' →
      h ≠ a.nextHandle ∧ ν.Kept h h' := by
    intro h h' hh
    have hne : h ≠ a.nextHandle := by
      rintro rfl
      cases Lexicon.put_self.symm.trans hh
    exact ⟨hne, hold h _ hh hne⟩
  refine ⟨valid_insert hP.valid, hP.valid',
    fun h x hx ↦ ?_, fun h h' hh ↦ hP.known' h h' (hkept h h' hh).2, fun h u hu ↦ ?_,
    fun h' u hu ↦ ?_, fun g h h' hg hh ↦ ?_, fun h h' hh ↦ ?_, fun h e hh u hu ↦ ?_, fun he ↦
      absurd he hinexact⟩
  · by_cases hne : h = a.nextHandle
    · exact .inr ⟨v, hne ▸ find?_insert_self hP.valid⟩
    · exact (hP.known h x (hold h x hx hne)).insert hP.valid
  · by_cases hne : h = a.nextHandle
    · subst hne
      exact ⟨_, Lexicon.put_self⟩
    · rw [find?_insert_of_ne hP.valid hne] at hu
      exact (hP.named h u hu).imp fun x hx ↦ (Lexicon.put_of_ne hne).trans hx
  · exact (hP.named' h' u hu).imp fun g hg ↦ hg.grow (Lexicon.grows_put hP.new_none)
  · exact hP.injective g h h' (hkept g h' hg).2 (hkept h h' hh).2
  · obtain ⟨hne, hh⟩ := hkept h h' hh
    rw [find?_insert_of_ne hP.valid hne]
    exact (hP.imp hS hT).kept h h' hh
  · by_cases hne : h = a.nextHandle
    · subst hne
      cases Lexicon.put_self.symm.trans hh
      rw [find?_insert_self hP.valid] at hu
      exact Option.some.inj hu ▸ hv
    · rw [find?_insert_of_ne hP.valid hne] at hu
      exact hT e u (hP.lost h e (hold h _ hh hne) u hu)

/-- **A value and its counterpart are changed.** -/
theorem modify (hP : Pairs exact ν S T a b) (hh : ν.Kept h h')
    (hS : ∀ v w, a.find? h = some v → b.find? h' = some w → S v w → S (f v) (k w)) :
    Pairs exact ν S T (a.modify h f) (b.modify h' k) := by
  refine ⟨valid_modify hP.valid, valid_modify hP.valid', fun g x hx ↦ (hP.known g x hx).modify,
    fun g g' hg ↦ (hP.known' g g' hg).modify, fun g v hv ↦ ?_, fun g' w hw ↦ ?_, hP.injective,
    fun g g' hg ↦ ?_, fun g d hg v hv ↦ ?_, fun he ↦ ?_⟩
  · rw [find?_modify] at hv
    split at hv
    · obtain ⟨u, hu, -⟩ := Option.map_eq_some_iff.1 hv
      exact hP.named g u (‹g = h› ▸ hu)
    · exact hP.named g v hv
  · rw [find?_modify] at hw
    split at hw
    · obtain ⟨u, hu, -⟩ := Option.map_eq_some_iff.1 hw
      exact hP.named' g' u (‹g' = h'› ▸ hu)
    · exact hP.named' g' w hw
  · rw [find?_modify, find?_modify]
    have hrel := hP.kept g g' hg
    by_cases hgh : g = h
    · obtain rfl := (hP.injective.eq_iff hg hh).1 hgh
      rw [if_pos hgh, if_pos rfl]
      rw [hgh] at hrel
      generalize ha : a.find? h = o at hrel
      generalize hb : b.find? g' = o' at hrel
      cases hrel with
      | some hvw => exact .some (hS _ _ ha hb hvw)
      | none => exact .none
    · rw [if_neg hgh, if_neg (mt (hP.injective.eq_iff hg hh).2 hgh)]
      exact hrel
  · have hgh : g ≠ h := by
      rintro rfl
      exact hh.not_lost hg
    rw [find?_modify_of_ne hgh] at hv
    exact hP.lost g d hg v hv
  · rw [ages_modify, ages_modify, free_modify, free_modify, size_modify, size_modify]
    exact hP.same he

/-- **A lost value is changed.** -/
theorem modify_lost (hP : Pairs exact ν S T a b) (hh : ν.Lost d h) (hT : ∀ v, T d v → T d (f v)) :
    Pairs exact ν S T (a.modify h f) b := by
  refine ⟨valid_modify hP.valid, hP.valid', fun g x hx ↦ (hP.known g x hx).modify, hP.known',
    fun g v hv ↦ ?_, hP.named', hP.injective, fun g g' hg ↦ ?_, fun g e hg v hv ↦ ?_,
    fun he ↦ absurd he (hP.inexact hh)⟩
  · rw [find?_modify] at hv
    split at hv
    · obtain ⟨u, hu, -⟩ := Option.map_eq_some_iff.1 hv
      exact hP.named g u (‹g = h› ▸ hu)
    · exact hP.named g v hv
  · have hgh : g ≠ h := by
      rintro rfl
      exact hg.not_lost hh
    rw [find?_modify_of_ne hgh]
    exact hP.kept g g' hg
  · rw [find?_modify] at hv
    split at hv
    · subst g
      cases hg.symm.trans hh
      obtain ⟨u, hu, rfl⟩ := Option.map_eq_some_iff.1 hv
      exact hT u (hP.lost h d hh u hu)
    · exact hP.lost g e hg v hv

/-- **A value and its counterpart are removed.** -/
theorem erase (hP : Pairs exact ν S T a b) (hh : ν.Kept h h') :
    Pairs exact ν S T (a.erase h) (b.erase h') := by
  refine ⟨valid_erase hP.valid, valid_erase hP.valid', fun g x hx ↦ (hP.known g x hx).erase,
    fun g g' hg ↦ (hP.known' g g' hg).erase, fun g v hv ↦ hP.named g v ((lacks_erase g v).1 hv).2,
    fun g' w hw ↦ hP.named' g' w ((lacks_erase g' w).1 hw).2, hP.injective, fun g g' hg ↦ ?_,
    fun g d hg v hv ↦ hP.lost g d hg v ((lacks_erase g v).1 hv).2, fun he ↦ ?_⟩
  · rw [find?_erase, find?_erase]
    by_cases hgh : g = h
    · rw [if_pos hgh, if_pos ((hP.injective.eq_iff hg hh).1 hgh)]
      exact .none
    · rw [if_neg hgh, if_neg (mt (hP.injective.eq_iff hg hh).2 hgh)]
      exact hP.kept g g' hg
  · obtain ⟨hages, hfree, hsize, hsame⟩ := hP.same he
    have hhh := hP.eq_of_kept he hh
    have hcontains := contains_eq (hP.kept h h' hh)
    rw [ages_erase, ages_erase, free_erase, free_erase, size_erase, size_erase, hcontains, hages,
      hfree, hsize, hhh]
    exact ⟨rfl, rfl, rfl, hsame⟩

/-- **A lost value is removed.** -/
theorem erase_lost (hP : Pairs exact ν S T a b) (hh : ν.Lost d h) :
    Pairs exact ν S T (a.erase h) b := by
  refine ⟨valid_erase hP.valid, hP.valid', fun g x hx ↦ (hP.known g x hx).erase, hP.known',
    fun g v hv ↦ hP.named g v ((lacks_erase g v).1 hv).2, hP.named', hP.injective, fun g g' hg ↦ ?_,
    fun g e hg v hv ↦ hP.lost g e hg v ((lacks_erase g v).1 hv).2, fun he ↦
      absurd he (hP.inexact hh)⟩
  have hgh : g ≠ h := by
    rintro rfl
    exact hg.not_lost hh
  rw [find?_erase, if_neg hgh]
  exact hP.kept g g' hg

/-- **All values are changed.** -/
theorem map {f : Handle → α → α} {k : Handle → β → β} (hP : Pairs exact ν S T a b)
    (hS : ∀ h h' v w, S v w → S' (f h v) (k h' w)) (hT : ∀ h d v, T d v → T' d (f h v)) :
    Pairs exact ν S' T' (a.map f) (b.map k) := by
  refine ⟨valid_map hP.valid, valid_map hP.valid', fun g x hx ↦ (hP.known g x hx).map,
    fun g g' hg ↦ (hP.known' g g' hg).map, fun g v hv ↦ ?_, fun g' w hw ↦ ?_, hP.injective,
    fun g g' hg ↦ ?_, fun g d hg v hv ↦ ?_, fun he ↦ ?_⟩
  · rw [find?_map] at hv
    obtain ⟨u, hu, -⟩ := Option.map_eq_some_iff.1 hv
    exact hP.named g u hu
  · rw [find?_map] at hw
    obtain ⟨u, hu, -⟩ := Option.map_eq_some_iff.1 hw
    exact hP.named' g' u hu
  · rw [find?_map, find?_map]
    exact optionRel_map (hP.kept g g' hg) fun _ _ ↦ hS g g' _ _
  · rw [find?_map] at hv
    obtain ⟨u, hu, rfl⟩ := Option.map_eq_some_iff.1 hv
    exact hT g d u (hP.lost g d hg u hu)
  · rw [ages_map, ages_map]
    exact hP.same he

end Pairs

/-! ### The same handles -/

/-- The arenas have values with `S` under the same handles, and give out the same ones. -/
structure Alike (S : α → β → Prop) (a : Arena α) (b : Arena β) : Prop where
  valid : a.Valid
  valid' : b.Valid
  ages : b.ages = a.ages
  free : b.free = a.free
  size : b.size = a.size
  found : ∀ h, Option.Rel S (a.find? h) (b.find? h)

namespace Alike

/-- Empty arenas are alike. -/
theorem empty : Alike S (Arena.empty : Arena α) (Arena.empty : Arena β) where
  valid := valid_empty
  valid' := valid_empty
  ages := by simp [Arena.ages, Arena.empty]
  free := by simp [Arena.empty]
  size := rfl
  found h := by
    have ha : (Arena.empty : Arena α).find? h = none :=
      Option.eq_none_iff_forall_ne_some.2 (find?_empty_ne h)
    have hb : (Arena.empty : Arena β).find? h = none :=
      Option.eq_none_iff_forall_ne_some.2 (find?_empty_ne h)
    rw [ha, hb]
    exact .none

theorem nextHandle_eq (hA : Alike S a b) : b.nextHandle = a.nextHandle := by
  rw [Arena.nextHandle_eq, Arena.nextHandle_eq, hA.ages, hA.free]

theorem imp (hA : Alike S a b) (hS : ∀ v w, S v w → S' v w) : Alike S' a b :=
  { hA with
    found := fun h ↦ optionRel_imp (hA.found h) hS }

/-- A value has its counterpart under the same handle. -/
theorem of_live (hA : Alike S a b) (hv : a.find? h = some v) : ∃ w, b.find? h = some w ∧ S v w :=
  of_optionRel_some (hv ▸ hA.found h)

/-- Values with `S` are stored in both. -/
theorem insert (hA : Alike S a b) (hvw : S v w) : Alike S (a.insert v) (b.insert w) where
  valid := valid_insert hA.valid
  valid' := valid_insert hA.valid'
  ages := by rw [ages_insert, ages_insert, hA.ages, hA.free]
  free := by rw [free_insert, free_insert, hA.free]
  size := by rw [size_insert, size_insert, hA.size]
  found h := by
    rw [find?_insert hA.valid, find?_insert hA.valid', hA.nextHandle_eq]
    split
    · exact .some hvw
    · exact hA.found h

/-- What a handle names is removed from both. -/
theorem erase (hA : Alike S a b) (g : Handle) : Alike S (a.erase g) (b.erase g) := by
  have hcontains := contains_eq (hA.found g)
  refine ⟨valid_erase hA.valid, valid_erase hA.valid', ?_, ?_, ?_, fun h ↦ ?_⟩
  · rw [ages_erase, ages_erase, hcontains, hA.ages]
  · rw [free_erase, free_erase, hcontains, hA.free]
  · rw [size_erase, size_erase, hcontains, hA.size]
  · rw [find?_erase, find?_erase]
    split
    · exact .none
    · exact hA.found h

/-- All values are changed in both. -/
theorem map {f : Handle → α → α} {k : Handle → β → β} (hA : Alike S a b)
    (hS : ∀ h v w, S v w → S' (f h v) (k h w)) : Alike S' (a.map f) (b.map k) := by
  refine ⟨valid_map hA.valid, valid_map hA.valid', ?_, hA.free, hA.size, fun h ↦ ?_⟩
  · rw [ages_map, ages_map, hA.ages]
  · rw [find?_map, find?_map]
    exact optionRel_map (hA.found h) fun _ _ ↦ hS h _ _

end Alike

end Arena

end HeaderFlow
