import HeaderFlow.Proofs.Pattern.Union
import HeaderFlow.Proofs.Region.NormalForm
import HeaderFlow.Proofs.Region.Termination

/-!
# Condensed lists

Condensing a list of patterns ends in a list of the same headers in which **nothing is left to
condense**: every member covers something, none lies inside another, and no two of them would be
merged (`Condensed`).

The members of the list stay apart because each of them was compared with all accepted before it, in
the comparison that accepted it, and accepted patterns may go but do not change. *Apart* says that
combining two patterns, in either order, keeps both and adds nothing. What this means for the covers
does not concern the queue (`incomparable_of_apart`, `not_mergesTo_of_apart`).

That condensing a second time changes nothing is read off the result, not off the run: patterns that
are apart pass all comparisons, and so the queue goes over to the accepted list as it is
(`condense_eq_self`).
-/

namespace HeaderFlow.Pattern

variable {a b m v : Pattern} {mask : Option Pattern}
  {queue accepted out ps : List Pattern} {n : Nat}

/-! ### Patterns that are apart -/

/-- Combining patterns that are apart keeps both, in either order. -/
theorem combine_of_apart (hb : b.bytes = a.bytes) (h : Apart mask a b) :
    combine a b mask = .both ∧ combine b a mask = .both := by
  obtain ⟨hab, hba⟩ := h
  rw [pairing_eq hb.symm] at hab
  rw [pairing_eq hb] at hba
  exact ⟨Except.ok.inj hab, Except.ok.inj hba⟩

/-- **Neither of two patterns that are apart lies inside the other.** -/
theorem incomparable_of_apart (hb : b.bytes = a.bytes) (h : Apart mask a b) : Incomparable a b := by
  by_contra hnot
  rcases combine_of_not_incomparable hb hnot mask with hc | hc | hc <;>
    exact absurd ((combine_of_apart hb h).1.symm.trans hc) (by simp)

/-- **Two patterns that are apart have no merge**, or only where the mask may set something. -/
theorem not_mergesTo_of_apart (hb : b.bytes = a.bytes) (hmask : ∀ k ∈ mask, k.bytes = a.bytes)
    (h : Apart mask a b) : ¬ MergesTo a b mask m ∧ ¬ MergesTo b a mask m :=
  ⟨((combine_eq_both_iff hb hmask).1 (combine_of_apart hb h).1).2 m,
    ((combine_eq_both_iff hb.symm fun k hk ↦ (hmask k hk).trans hb.symm).1
      (combine_of_apart hb h).2).2 m⟩

/-! ### Condensing again -/

/-- A pattern that is apart from all accepted ones is accepted. -/
theorem sift_of_apart (h : ∀ a ∈ accepted, Apart mask a v) :
    sift v mask accepted = .ok ⟨accepted, true, none⟩ := by
  induction accepted with
  | nil => rfl
  | cons a rest ih =>
    obtain ⟨ha, hrest⟩ := List.forall_mem_cons.1 h
    rw [sift, ha.1, Checked.ok_bind]
    dsimp only
    rw [ih hrest]
    rfl

/-- Patterns that are apart are accepted one after the other. -/
theorem condenseQueue_of_apart {steps : Nat} (hsteps : queue.length ≤ steps)
    (h : (accepted ++ queue).Pairwise (Apart mask)) :
    condenseQueue mask steps queue accepted = .ok (accepted ++ queue) := by
  induction queue generalizing steps accepted with
  | nil =>
    rw [List.append_nil]
    cases steps <;> rfl
  | cons v queue ih =>
    obtain ⟨steps, rfl⟩ :=
      Nat.exists_eq_succ_of_ne_zero (Nat.ne_of_gt (Nat.lt_of_lt_of_le (Nat.succ_pos _) hsteps))
    have hv : ∀ a ∈ accepted, Apart mask a v := fun a ha ↦
      (List.pairwise_append.1 h).2.2 a ha v List.mem_cons_self
    rw [List.append_cons] at h ⊢
    rw [condenseQueue, sift_of_apart hv, Checked.ok_bind]
    simpa using ih (Nat.le_of_succ_le_succ hsteps) h

/-- **Patterns that are apart and cover something are left as they are.** -/
theorem condense_eq_self (hclean : ∀ p ∈ ps, p.hasConflict = false) (h : ps.Pairwise (Apart mask)) :
    condense mask ps = .ok ps := by
  have hfilter : (ps.filter fun v ↦ !v.hasConflict) = ps :=
    List.filter_eq_self.2 fun p hp ↦ by rw [hclean p hp]; rfl
  rw [condense, hfilter]
  exact condenseQueue_of_apart (by omega) h

/-! ### What condensing ends in -/

/-- Nothing is left to condense. -/
structure Condensed (mask : Option Pattern) (ps : List Pattern) : Prop where
  /-- No member has a conflict. -/
  conflictFree : ∀ p ∈ ps, p.ConflictFree
  /-- Of no two members one lies inside the other. -/
  incomparable : ps.Pairwise Incomparable
  /-- Combining two members, in either order, keeps both and adds nothing. -/
  apart : ps.Pairwise (Apart mask)
  /-- With a mask of the length of the members, or without one, no two of them merge but where the
  mask may set something. -/
  unmerged : (∀ k ∈ mask, ∀ p ∈ ps, k.bytes = p.bytes) →
    ps.Pairwise fun a b ↦ ∀ m, ¬ MergesTo a b mask m ∧ ¬ MergesTo b a mask m

/-- Where all patterns are apart, nothing is left to condense. -/
theorem condensed_of_apart (hps : ∀ p ∈ ps, p.Solid n) (h : ps.Pairwise (Apart mask)) :
    Condensed mask ps where
  conflictFree p hp := conflictFree_iff.2 (hps p hp).2
  incomparable := h.imp_of_mem fun ha hb ↦
    incomparable_of_apart ((hps _ hb).1.trans (hps _ ha).1.symm)
  apart := h
  unmerged hmask := h.imp_of_mem fun ha hb hab _ ↦
    not_mergesTo_of_apart ((hps _ hb).1.trans (hps _ ha).1.symm) (fun k hk ↦ hmask k hk _ ha) hab

/-- What condensing a list answers. -/
structure CondensesTo (mask : Option Pattern) (input out : List Pattern) : Prop where
  /-- The queue, left to run without any bound, is worked off with this answer. -/
  ends : Condenses mask (input.filter fun v ↦ !v.hasConflict) [] out
  /-- The length of the headers is the same. -/
  bytes : ∀ p ∈ out, ∀ q ∈ input, p.bytes = q.bytes
  /-- The same headers are covered. -/
  cover : ⋃ p ∈ out, p.cover = ⋃ p ∈ input, p.cover
  /-- Nothing is left to condense. -/
  condensed : Condensed mask out
  /-- No member is added to the number. -/
  length_le : out.length ≤ input.length
  /-- Condensing again changes nothing. -/
  again : condense mask out = .ok out

/-- **Condensing ends in an exact normal form.** For every list of patterns of one length and every
mask, the queue is worked off. What is left covers the same headers with no more members, nothing in
it can be condensed further, and condensing it again gives the same list in the same order. -/
theorem condense_exact (mask : Option Pattern) (hps : ∀ p ∈ ps, p.bytes = n) :
    Checked.Gives (condense mask ps) (CondensesTo mask ps) := by
  obtain ⟨out, hout, hsolid, hcover⟩ := condense_spec mask hps
  have hapart := pairwise_condense hout
  exact ⟨out, hout, {
    ends := condenses_condenseQueue (Nat.le_refl _) hout
    bytes := fun p hp q hq ↦ (hsolid p hp).1.trans (hps q hq).symm
    cover := by
      ext h
      simpa [MatchesAny] using hcover h
    condensed := condensed_of_apart hsolid hapart
    length_le := (length_condense hout).1
    again := condense_eq_self (fun p hp ↦ (hsolid p hp).2) hapart }⟩

/-- One member lies inside another and one has a conflict. The other three merge to one pattern, in
two steps of which the second needs the first; under a mask that may set the second trit, the first
step is refused. -/
theorem condense_exact_chain :
    let x : Pattern := allWild 1
    let ps := [x.put 0 .zero |>.put 1 .zero, x.put 0 .one |>.put 7 .one, x.put 3 .conflict,
      x.put 0 .zero |>.put 1 .one, x.put 0 .one]
    (∀ p ∈ ps, p.bytes = 1) ∧ CondensesTo none ps [x] ∧
      CondensesTo (some (x.put 0 .zero)) ps
        [x.put 0 .zero |>.put 1 .zero, x.put 0 .zero |>.put 1 .one, x.put 0 .one] := by
  intro x ps
  have hps : ∀ p ∈ ps, p.bytes = 1 := by decide +kernel
  obtain ⟨out, hout, hnone⟩ := condense_exact none hps
  obtain ⟨rest, hrest, hsome⟩ := condense_exact (some (x.put 0 .zero)) hps
  have hout' : condense none ps = .ok [x] := by decide +kernel
  have hrest' : condense (some (x.put 0 .zero)) ps =
      .ok [x.put 0 .zero |>.put 1 .zero, x.put 0 .zero |>.put 1 .one, x.put 0 .one] := by
    decide +kernel
  obtain rfl := Except.ok.inj (hout.symm.trans hout')
  obtain rfl := Except.ok.inj (hrest.symm.trans hrest')
  exact ⟨hps, hnone, hsome⟩

end HeaderFlow.Pattern
