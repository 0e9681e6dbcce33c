import HeaderFlow.PortSet
import Mathlib.Data.List.Perm.Basic
import Mathlib.Tactic.Tauto

/-!
# Members of port sets

What searching and intersecting increasing lists come to: **membership**. The searches stop early
because of the order, so each law uses that the list is increasing. One that goes by halves finds
the same (`searchHalves_iff`).

The order also makes the list of given members unique (`eq_of_mem_iff`), so that sets with the same
members are equal.
-/

namespace HeaderFlow.PortSet

variable {p : Port} {s t : PortSet}

/-- Searching from the front finds the members. -/
theorem memSorted_iff {l : List Port} (hl : l.Pairwise (· < ·)) : memSorted p l = true ↔ p ∈ l := by
  induction l with
  | nil => simp [memSorted]
  | cons q qs ih =>
    obtain ⟨hq, hqs⟩ := List.pairwise_cons.1 hl
    rw [memSorted]
    split
    · rename_i hlt
      rw [ih hqs, List.mem_cons, or_iff_right (fun he ↦ UInt32.lt_irrefl _ (he ▸ hlt))]
    · rename_i hge
      have hnot : p ∉ qs := fun hp ↦ hge (hq p hp)
      rw [beq_iff_eq, List.mem_cons, or_iff_left hnot, eq_comm]

/-- Membership is answered. -/
theorem contains_iff : s.contains p = true ↔ p ∈ s.toList := memSorted_iff s.sorted

/-! ### Searching by halves -/

/-- Searches an increasing list by halves: the port in the middle tells in which half to go on. -/
def searchHalves (p : Port) (l : List Port) : Bool :=
  match h : l.drop (l.length / 2) with
  | [] => false
  | q :: right =>
    if q = p then true
    else if p < q then searchHalves p (l.take (l.length / 2))
    else searchHalves p right
termination_by l.length
decreasing_by
  all_goals
    have hlen := congrArg List.length h
    simp only [List.length_drop, List.length_cons, List.length_take] at hlen ⊢
    omega

/-- **Searching by halves finds the members.** -/
theorem searchHalves_iff {l : List Port} (hl : l.Pairwise (· < ·)) :
    searchHalves p l = true ↔ p ∈ l := by
  fun_induction searchHalves p l with
  | case1 l hdrop =>
    have hlen := congrArg List.length hdrop
    rw [List.length_drop, List.length_nil] at hlen
    obtain rfl := List.eq_nil_of_length_eq_zero (l := l) (by omega)
    simp
  | case2 l right hdrop =>
    exact iff_of_true rfl (List.mem_of_mem_drop (hdrop ▸ List.mem_cons_self))
  | case3 l q right hdrop hne hlt ih =>
    rw [← List.take_append_drop (l.length / 2) l, hdrop] at hl
    obtain ⟨hleft, hright, -⟩ := List.pairwise_append.1 hl
    rw [ih hleft]
    conv_rhs => rw [← List.take_append_drop (l.length / 2) l, hdrop]
    -- everything from the middle on is greater
    have hnot : p ∉ q :: right := fun hp ↦ by
      rcases List.mem_cons.1 hp with rfl | hp
      · exact hne rfl
      · exact UInt32.lt_asymm hlt ((List.pairwise_cons.1 hright).1 p hp)
    rw [List.mem_append, or_iff_left hnot]
  | case4 l q right hdrop hne hge ih =>
    rw [← List.take_append_drop (l.length / 2) l, hdrop] at hl
    obtain ⟨-, hright, hcross⟩ := List.pairwise_append.1 hl
    rw [ih (List.pairwise_cons.1 hright).2]
    conv_rhs => rw [← List.take_append_drop (l.length / 2) l, hdrop]
    have hnot : p ∉ l.take (l.length / 2) := fun hp ↦ hge (hcross p hp q List.mem_cons_self)
    rw [List.mem_append, or_iff_right hnot, List.mem_cons, or_iff_right (Ne.symm hne)]

/-! ### Common members -/

/-- **The intersection has the common members**, if there is fuel enough. -/
theorem mem_interSorted_iff {fuel : Nat} {l m : List Port} (hl : l.Pairwise (· < ·))
    (hm : m.Pairwise (· < ·)) (hfuel : l.length + m.length ≤ fuel) :
    p ∈ interSorted fuel l m ↔ p ∈ l ∧ p ∈ m := by
  -- The cases are those of the walk: the smaller of the two heads is dropped, or both are the same,
  -- or one list is at its end.
  fun_induction interSorted fuel l m with
  | case1 fuel a as b bs hab ih =>
    obtain ⟨ha, has⟩ := List.pairwise_cons.1 hl
    obtain ⟨hb, -⟩ := List.pairwise_cons.1 hm
    rw [ih has hm (by simp only [List.length_cons] at *; omega)]
    have hnot : p = a → p ∉ b :: bs := by
      rintro rfl hmem
      rcases List.mem_cons.1 hmem with rfl | hmem
      · exact UInt32.lt_irrefl _ hab
      · exact UInt32.lt_asymm hab (hb p hmem)
    simp only [List.mem_cons] at *
    tauto
  | case2 fuel a as b bs _ hba ih =>
    obtain ⟨ha, -⟩ := List.pairwise_cons.1 hl
    obtain ⟨hb, hbs⟩ := List.pairwise_cons.1 hm
    rw [ih hl hbs (by simp only [List.length_cons] at *; omega)]
    have hnot : p = b → p ∉ a :: as := by
      rintro rfl hmem
      rcases List.mem_cons.1 hmem with rfl | hmem
      · exact UInt32.lt_irrefl _ hba
      · exact UInt32.lt_asymm hba (ha p hmem)
    simp only [List.mem_cons] at *
    tauto
  | case3 fuel a as b bs hab hba ih =>
    obtain ⟨ha, has⟩ := List.pairwise_cons.1 hl
    obtain ⟨hb, hbs⟩ := List.pairwise_cons.1 hm
    obtain rfl : a = b := UInt32.le_antisymm (UInt32.not_lt.1 hba) (UInt32.not_lt.1 hab)
    rw [List.mem_cons, ih has hbs (by simp only [List.length_cons] at *; omega), List.mem_cons,
      List.mem_cons]
    tauto
  | case4 fuel l m hshape =>
    cases fuel with
    | zero =>
      have hnil : l = [] := List.eq_nil_of_length_eq_zero (by omega)
      simp [hnil]
    | succ fuel =>
      cases l with
      | nil => simp
      | cons a as =>
        cases m with
        | nil => simp
        | cons b bs => exact absurd rfl (hshape fuel a as b bs rfl rfl)

/-- What is in the intersection is in both sets. -/
theorem mem_inter : p ∈ (s.inter t).toList ↔ p ∈ s.toList ∧ p ∈ t.toList :=
  mem_interSorted_iff s.sorted t.sorted (Nat.le_refl _)

/-- Two sets meet if they have a port in common. -/
theorem intersects_iff : s.intersects t = true ↔ ∃ p, p ∈ s.toList ∧ p ∈ t.toList := by
  simp [intersects, contains_iff]

/-- A set is empty if it has no member. -/
theorem isEmpty_iff : s.isEmpty = true ↔ ∀ p, p ∉ s.toList := by
  rw [isEmpty, List.isEmpty_iff, List.eq_nil_iff_forall_not_mem]

theorem mem_insert {q : Port} : p ∈ (s.insert q).toList ↔ p = q ∨ p ∈ s.toList :=
  mem_insertSorted

theorem mem_ofList {ps : List Port} : p ∈ (ofList ps).toList ↔ p ∈ ps := by
  suffices ∀ s : PortSet, p ∈ (ps.foldl insert s).toList ↔ p ∈ s.toList ∨ p ∈ ps by
    simpa [ofList, empty] using this empty
  induction ps with
  | nil => simp
  | cons q ps ih =>
    intro s
    rw [List.foldl_cons, ih, mem_insert, List.mem_cons]
    tauto

/-! ### Comparing -/

/-- Inclusion is inclusion of the lists. -/
theorem isSubset_iff : s.isSubset t = true ↔ s.toList ⊆ t.toList := by
  simp only [isSubset, List.all_eq_true, contains_iff]
  rfl

/-- **There is one increasing list of given members.** -/
theorem eq_of_mem_iff {l m : List Port} (hl : l.Pairwise (· < ·)) (hm : m.Pairwise (· < ·))
    (h : ∀ p, p ∈ l ↔ p ∈ m) : l = m := by
  have hnodup : ∀ {k : List Port}, k.Pairwise (· < ·) → k.Nodup := fun hk ↦ hk.imp UInt32.ne_of_lt
  have hperm : l.Perm m := (List.perm_ext_iff_of_nodup (hnodup hl) (hnodup hm)).2 h
  exact hperm.eq_of_pairwise (fun a b _ _ hab hba ↦ absurd hba (UInt32.lt_asymm hab)) hl hm

/-- **Sets with the same members are equal.** -/
theorem ext_iff_mem : s = t ↔ ∀ p, p ∈ s.toList ↔ p ∈ t.toList := by
  refine ⟨fun h _ ↦ h ▸ Iff.rfl, fun h ↦ ?_⟩
  obtain ⟨l, hl⟩ := s
  obtain ⟨m, hm⟩ := t
  obtain rfl := eq_of_mem_iff hl hm h
  rfl

/-- Two sets meet if their intersection is not empty. -/
theorem intersects_eq_not_isEmpty_inter : s.intersects t = !(s.inter t).isEmpty := by
  rw [Bool.eq_iff_iff, Bool.not_eq_true', ← Bool.not_eq_true, isEmpty_iff, intersects_iff]
  simp [mem_inter]

end HeaderFlow.PortSet
