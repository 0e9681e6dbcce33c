import Mathlib.Data.List.Nodup
import HeaderFlow.Proofs.Pattern.Inclusion

/-!
# The union of two patterns

When two patterns can be replaced by one, or by one of them. The test for a merge is spread over the
words: pairs of bits that differ in one bit only rule it out, a population count over all words
rules out a second difference. Taken together **there is a merge exactly if neither pattern is empty
and they are equal or opposite in a single trit** (`exists_join?_iff_oppositeAt`).

A pairing asks its questions one after the other, and its answers exclude each other. So each answer
is characterised on its own, in terms of the two covers (`combine_eq_merged_iff`,
`combine_eq_both_iff`). The mask is asked about every position at which the two are opposite, before
it is known whether there is a merge; **that makes no difference**, because a merge leaves just one
such position (`oppositesMasked_eq_false_iff`).

A list that holds both patterns wants to know three things instead: whether to keep the first,
whether to keep the second, and what to add. Worked out one by one (`combineFlags`), an operand goes
after a merge if it lies strictly inside the merged pattern. This is always so, and therefore five
answers are enough (`combineFlags_eq`).
-/

namespace HeaderFlow.Pattern

variable {a b m k : Pattern} {mask : Option Pattern} {i j : Nat}

/-! ### Opposite in a single trit -/

/-- The two patterns differ at position `i` only, where one is `0` and the other `1`. -/
structure OppositeAt (a b : Pattern) (i : Nat) : Prop where
  /-- The position lies inside. -/
  lt : i < a.width
  /-- The trits there are opposite. -/
  opposite : a.trit i = .zero ∧ b.trit i = .one ∨ a.trit i = .one ∧ b.trit i = .zero
  /-- All other trits are the same. -/
  eq_of_ne : ∀ j < a.width, j ≠ i → a.trit j = b.trit j

/-- Opposite trits differ in both values. -/
theorem OppositeAt.allows (hi : OppositeAt a b i) (v : Bool) : a.allows i v = !b.allows i v := by
  rw [Pattern.allows, Pattern.allows]
  rcases hi.opposite with ⟨ha, hb⟩ | ⟨ha, hb⟩ <;> rw [ha, hb] <;> cases v <;> rfl

/-- **Where two patterns with a merge are opposite, they are opposite in a single trit.** -/
theorem oppositeAt_of_join? (hb : b.bytes = a.bytes) (hm : join? a b = some m)
    (hi : ∀ v, a.allows i v = !b.allows i v) : OppositeAt a b i := by
  obtain ⟨hall, -⟩ := (exists_join?_iff hb).1 ⟨m, hm⟩
  obtain ⟨-, -, hdiffer, hcount⟩ := join?_eq_some hm
  have hlt : i < a.width := by
    -- past the end both allow everything
    by_contra hge
    exact not_opposite_of_ge hb (Nat.le_of_not_lt hge) hi
  refine ⟨hlt, Trit.opposite_eq_true_iff.1 ((opposite_iff (hall i hlt).1 (hall i hlt).2.1).2 hi),
    fun j _ hne ↦ ?_⟩
  rcases differ_of_differInOpposites hb.symm hdiffer j with heq | hj
  · exact Trit.ext heq
  · exact absurd (eq_of_countOpposites_le_one hb.symm hcount hj hi) hne

/-- There is only one opposite trit. -/
theorem countP_opposite_le_one (hi : OppositeAt a b i) :
    (List.range a.width).countP (fun j ↦ (a.trit j).opposite (b.trit j)) ≤ 1 := by
  have honly : ∀ j ∈ List.range a.width, (a.trit j).opposite (b.trit j) = true →
      (j == i) = true := by
    intro j hj hopposite
    rw [beq_iff_eq]
    by_contra hne
    rw [hi.eq_of_ne j (List.mem_range.1 hj) hne, Trit.not_opposite_self] at hopposite
    exact absurd hopposite (by decide)
  calc (List.range a.width).countP (fun j ↦ (a.trit j).opposite (b.trit j))
      ≤ (List.range a.width).countP (· == i) := List.countP_mono_left honly
    _ ≤ 1 := List.nodup_iff_count_le_one.1 List.nodup_range i

/-- **There is a merge exactly if neither pattern has a conflict and they are equal or opposite in a
single trit.** -/
theorem exists_join?_iff_oppositeAt (hb : b.bytes = a.bytes) : (∃ m, join? a b = some m) ↔
    a.ConflictFree ∧ b.ConflictFree ∧ (a = b ∨ ∃ i, OppositeAt a b i) := by
  have hwidth : b.width = a.width := by rw [width, hb, ← width]
  constructor
  · rintro ⟨m, hm⟩
    obtain ⟨hall, -⟩ := (exists_join?_iff hb).1 ⟨m, hm⟩
    obtain ⟨-, -, hdiffer, -⟩ := join?_eq_some hm
    refine ⟨fun i hi ↦ (hall i hi).1, fun i hi ↦ (hall i (hwidth ▸ hi)).2.1, ?_⟩
    -- without an opposite trit, each position falls under "equal"
    by_cases hopposite : ∃ i, ∀ v, a.allows i v = !b.allows i v
    · obtain ⟨i, hi⟩ := hopposite
      exact .inr ⟨i, oppositeAt_of_join? hb hm hi⟩
    · refine .inl (eq_of_allows hb.symm fun i ↦ ?_)
      exact (differ_of_differInOpposites hb.symm hdiffer i).resolve_right fun hi ↦ hopposite ⟨i, hi⟩
  · rintro ⟨ha, hb', heq | ⟨i, hi⟩⟩
    · subst heq
      refine (exists_join?_iff rfl).2 ⟨fun i hi ↦ ⟨ha i hi, ha i hi, .inl rfl⟩, ?_⟩
      simp [Trit.not_opposite_self]
    · refine (exists_join?_iff hb).2
        ⟨fun j hj ↦ ⟨ha j hj, hb' j (hwidth ▸ hj), ?_⟩, countP_opposite_le_one hi⟩
      by_cases hne : j = i
      · exact .inr (hne ▸ Trit.opposite_eq_true_iff.2 hi.opposite)
      · exact .inl (hi.eq_of_ne j hj hne)

/-- **A join covers what its operands do.** -/
theorem cover_of_join? (hb : b.bytes = a.bytes) (hm : join? a b = some m) :
    m.cover = a.cover ∪ b.cover :=
  Set.ext fun _ ↦ matches_of_join?_eq_some hb.symm hm

theorem bytes_of_join? (hm : join? a b = some m) : m.bytes = a.bytes := by
  rw [(join?_eq_some hm).1, bytes_join]

/-- A merge of patterns of one length is their join. -/
theorem merge_eq_ok_some_iff (hb : b.bytes = a.bytes) :
    a.merge b = .ok (some m) ↔ join? a b = some m := by
  rw [merge_eq hb.symm, Except.ok.injEq]

/-! ### The answers of a pairing -/

/-- Neither pattern lies inside the other. -/
def Incomparable (a b : Pattern) : Prop := ¬ a.cover ⊆ b.cover ∧ ¬ b.cover ⊆ a.cover

/-- The two merge into `m`, and the mask may not set the position at which they are opposite. -/
def MergesTo (a b : Pattern) (mask : Option Pattern) (m : Pattern) : Prop :=
  a.merge b = .ok (some m) ∧ ∀ k ∈ mask, ∀ i, OppositeAt a b i → (k.trit i).mayOne = false

/-- Patterns of which neither lies inside the other cover something. -/
theorem Incomparable.nonempty (h : Incomparable a b) : a.cover.Nonempty ∧ b.cover.Nonempty :=
  ⟨Set.nonempty_iff_ne_empty.2 fun he ↦ h.1 (he ▸ Set.empty_subset _),
    Set.nonempty_iff_ne_empty.2 fun he ↦ h.2 (he ▸ Set.empty_subset _)⟩

/-- **Of two patterns that merge, the mask is asked about their one opposite trit.** -/
theorem oppositesMasked_eq_false_iff (hb : b.bytes = a.bytes) (hk : k.bytes = a.bytes)
    (hm : join? a b = some m) :
    oppositesMasked a b k = false ↔ ∀ i, OppositeAt a b i → (k.trit i).mayOne = false := by
  rw [← Bool.not_eq_true, oppositesMasked_iff hb hk, not_exists]
  refine forall_congr' fun i ↦ ?_
  rw [not_and, Bool.not_eq_true]
  exact ⟨fun h hi ↦ h hi.allows, fun h hi ↦ h (oppositeAt_of_join? hb hm hi)⟩

/-- A merge that the mask does not forbid, as the code tests for it. -/
theorem mergesTo_iff (hb : b.bytes = a.bytes) (hmask : ∀ k ∈ mask, k.bytes = a.bytes) :
    MergesTo a b mask m ↔ mask.any (oppositesMasked a b) = false ∧ join? a b = some m := by
  rw [MergesTo, merge_eq_ok_some_iff hb, and_comm]
  refine and_congr_left fun hm ↦ ?_
  cases mask with
  | none => simp
  | some k =>
    simp only [Option.mem_some_iff, forall_eq', Option.any_some]
    exact (oppositesMasked_eq_false_iff hb (hmask k rfl) hm).symm

/-- If one pattern lies inside the other, then one of them goes and nothing is merged. -/
theorem combine_of_not_incomparable (hb : b.bytes = a.bytes) (h : ¬ Incomparable a b)
    (mask : Option Pattern) :
    combine a b mask = .neither ∨ combine a b mask = .first ∨ combine a b mask = .second := by
  have hwithin : within b a = true ∨ within a b = true := by
    rw [within_iff_cover_subset hb, within_iff_cover_subset hb.symm, or_comm]
    exact (not_and_or.1 h).imp not_not.1 not_not.1
  rw [combine]
  cases a.hasConflict <;> cases b.hasConflict
  · by_cases hw : within b a = true
    · exact .inr (.inl (if_pos hw))
    · exact .inr (.inr ((if_neg hw).trans (if_pos (hwithin.resolve_left hw))))
  · exact .inr (.inl rfl)
  · exact .inr (.inr rfl)
  · exact .inl rfl

/-- If neither lies inside the other, only mask and merge have a say. -/
theorem combine_of_incomparable (hb : b.bytes = a.bytes) (h : Incomparable a b) :
    combine a b mask =
      if mask.any (oppositesMasked a b) then .both else (join? a b).elim .both .merged := by
  obtain ⟨ha, hb'⟩ := h.nonempty
  rw [combine, nonempty_cover_iff.1 ha, nonempty_cover_iff.1 hb']
  dsimp only
  rw [if_neg (mt (within_iff_cover_subset hb.symm).1 h.2),
    if_neg (mt (within_iff_cover_subset hb).1 h.1)]
  cases join? a b <;> rfl

/-- The second pattern lies inside the first, which stays. -/
theorem combine_of_superset (hb : b.bytes = a.bytes) (hae : a.cover.Nonempty)
    (hbe : b.cover.Nonempty) (hsub : b.cover ⊆ a.cover) : combine a b mask = .first := by
  rw [combine, nonempty_cover_iff.1 hae, nonempty_cover_iff.1 hbe]
  exact if_pos ((within_iff_cover_subset hb.symm).2 hsub)

/-- The first pattern lies strictly inside the second, which stays. -/
theorem combine_of_subset (hb : b.bytes = a.bytes) (hae : a.cover.Nonempty)
    (hsub : a.cover ⊂ b.cover) : combine a b mask = .second := by
  rw [combine, nonempty_cover_iff.1 hae, nonempty_cover_iff.1 (hae.mono hsub.subset)]
  dsimp only
  rw [if_neg (mt (within_iff_cover_subset hb.symm).1 hsub.not_subset),
    if_pos ((within_iff_cover_subset hb).2 hsub.subset)]

/-- **The two are merged exactly if neither lies inside the other and they merge where the mask may
not set anything.** -/
theorem combine_eq_merged_iff (hb : b.bytes = a.bytes) (hmask : ∀ k ∈ mask, k.bytes = a.bytes) :
    combine a b mask = .merged m ↔ Incomparable a b ∧ MergesTo a b mask m := by
  by_cases h : Incomparable a b
  · rw [combine_of_incomparable hb h, mergesTo_iff hb hmask, and_iff_right h]
    cases mask.any (oppositesMasked a b) <;> cases join? a b <;> simp
  · rcases combine_of_not_incomparable hb h mask with hc | hc | hc <;> simp [hc, h]

/-- **Both stay exactly if neither lies inside the other and they do not merge**, or only where the
mask may set something. -/
theorem combine_eq_both_iff (hb : b.bytes = a.bytes) (hmask : ∀ k ∈ mask, k.bytes = a.bytes) :
    combine a b mask = .both ↔ Incomparable a b ∧ ∀ m, ¬ MergesTo a b mask m := by
  by_cases h : Incomparable a b
  · simp only [combine_of_incomparable hb h, mergesTo_iff hb hmask, and_iff_right h]
    cases mask.any (oppositesMasked a b) <;> cases join? a b <;> simp
  · rcases combine_of_not_incomparable hb h mask with hc | hc | hc <;> simp [hc, h]

/-! ### What a list keeps -/

/-- What a list that holds two patterns does with them. -/
structure Combined where
  /-- The first pattern stays. -/
  keepFirst : Bool
  /-- The second pattern stays. -/
  keepSecond : Bool
  /-- This pattern is added. -/
  extra : Option Pattern
  deriving DecidableEq

/-- A pairing, as a list has to carry it out. -/
def Pairing.combined : Pairing → Combined
  | .neither => ⟨false, false, none⟩
  | .first => ⟨true, false, none⟩
  | .second => ⟨false, true, none⟩
  | .both => ⟨true, true, none⟩
  | .merged m => ⟨false, false, some m⟩

/-- The headers of what is kept and of what is added. -/
def Combined.cover (a b : Pattern) (c : Combined) : Set (Nat → Bool) :=
  {h | c.keepFirst = true ∧ a.Matches h ∨ c.keepSecond = true ∧ b.Matches h ∨
    ∃ m ∈ c.extra, m.Matches h}

/-- What a list does with two patterns, worked out one thing at a time. An operand goes after a
merge if it lies strictly inside the merged pattern. -/
def combineFlags (a b : Pattern) (mask : Option Pattern) : Checked Combined := do
  checkWidth a b
  if a.hasConflict || b.hasConflict then
    return ⟨!a.hasConflict, !b.hasConflict, none⟩
  if a = b || (← isSubset b a) then
    return ⟨true, false, none⟩
  if ← isSubset a b then
    return ⟨false, true, none⟩
  if mask.any (oppositesMasked a b) then
    return ⟨true, true, none⟩
  match ← merge a b with
  | none => return ⟨true, true, none⟩
  | some m => return ⟨!(← isStrictSubset a m), !(← isStrictSubset b m), some m⟩

/-- A merge reaches beyond both operands, if neither lies inside the other. -/
theorem isStrictSubset_of_join? (hb : b.bytes = a.bytes) (h : Incomparable a b)
    (hm : join? a b = some m) : a.isStrictSubset m = .ok true ∧ b.isStrictSubset m = .ok true := by
  have hbytes := bytes_of_join? hm
  have hcover := cover_of_join? hb hm
  obtain ⟨c, hc, hiff⟩ := gives_isStrictSubset hbytes
  obtain ⟨e, he, hiff'⟩ := gives_isStrictSubset (hbytes.trans hb.symm)
  rw [hc, he, hiff.2 (hcover ▸ Set.ssubset_union_left_iff.2 h.2),
    hiff'.2 (hcover ▸ Set.ssubset_union_right_iff.2 h.1)]
  exact ⟨rfl, rfl⟩

/-- **Five answers are enough**: a merged pattern always takes the place of both operands. -/
theorem combineFlags_eq (hb : b.bytes = a.bytes) :
    combineFlags a b mask = .ok (combine a b mask).combined := by
  rw [combineFlags, combine, checkWidth_eq hb.symm, Checked.ok_bind, isSubset_eq hb,
    isSubset_eq hb.symm, merge_eq hb.symm]
  cases a.hasConflict <;> cases b.hasConflict
  case true.true | true.false | false.true => rfl
  -- equal patterns lie inside each other, so the test for equality only saves time
  have hequal : (decide (a = b) || within b a) = within b a := by
    by_cases heq : a = b
    · subst heq
      rw [(within_iff_cover_subset rfl).2 subset_rfl, Bool.or_true]
    · rw [decide_eq_false heq, Bool.false_or]
  simp only [Checked.ok_bind, Bool.or_self, Bool.false_eq_true, if_false, hequal]
  cases hba : within b a
  case true => rfl
  cases hab : within a b
  case true => rfl
  cases mask.any (oppositesMasked a b)
  case true => rfl
  cases hm : join? a b with
  | none => rfl
  | some m =>
    have h : Incomparable a b := by
      rw [Incomparable, ← within_iff_cover_subset hb, ← within_iff_cover_subset hb.symm, hab, hba]
      decide
    obtain ⟨ha, hb'⟩ := isStrictSubset_of_join? hb h hm
    simp only [ha, hb', Checked.ok_bind]
    rfl

/-- What is kept and added covers what the two operands do. -/
theorem cover_combined (hb : b.bytes = a.bytes) :
    (combine a b mask).combined.cover a b = a.cover ∪ b.cover := by
  refine Set.ext fun h ↦ Iff.trans ?_ (exists_mem_kept_combine hb.symm mask)
  cases combine a b mask <;> simp [Combined.cover, Pairing.combined, Pairing.kept]

/-- What a list does with two patterns, in terms of what they cover. -/
structure Simplifies (a b : Pattern) (mask : Option Pattern) (c : Combined) : Prop where
  /-- What is kept and added covers what the two do. -/
  cover : c.cover a b = a.cover ∪ b.cover
  /-- If one of them covers nothing, those that cover something stay. -/
  empty : a.cover = ∅ ∨ b.cover = ∅ →
    (c.keepFirst = true ↔ a.cover.Nonempty) ∧ (c.keepSecond = true ↔ b.cover.Nonempty) ∧
    c.extra = none
  /-- If the second lies inside the first, it goes. -/
  superset : a.cover.Nonempty → b.cover.Nonempty → b.cover ⊆ a.cover → c = ⟨true, false, none⟩
  /-- If the first lies strictly inside the second, it goes. -/
  subset : a.cover.Nonempty → a.cover ⊂ b.cover → c = ⟨false, true, none⟩
  /-- A pattern is added if both cover something, neither lies inside the other, and they merge
  where the mask may not set anything. -/
  extra : ∀ m, c.extra = some m ↔
    a.cover.Nonempty ∧ b.cover.Nonempty ∧ Incomparable a b ∧ MergesTo a b mask m
  /-- It takes the place of both. -/
  merged : ∀ m, c.extra = some m → c.keepFirst = false ∧ c.keepSecond = false
  /-- Otherwise both stay. -/
  both : c = ⟨true, true, none⟩ ↔
    a.cover.Nonempty ∧ b.cover.Nonempty ∧ Incomparable a b ∧ ∀ m, ¬ MergesTo a b mask m

theorem extra_combined_iff {c : Pairing} : c.combined.extra = some m ↔ c = .merged m := by
  cases c <;> simp [Pairing.combined]

theorem combined_eq_both_iff {c : Pairing} : c.combined = ⟨true, true, none⟩ ↔ c = .both := by
  cases c <;> simp [Pairing.combined]

/-- If one pattern covers nothing, the pairing keeps those that cover something. -/
theorem combined_of_empty (h : a.cover = ∅ ∨ b.cover = ∅) :
    (combine a b mask).combined = ⟨!a.hasConflict, !b.hasConflict, none⟩ := by
  rw [cover_eq_empty_iff, cover_eq_empty_iff] at h
  rw [combine]
  cases ha : a.hasConflict <;> cases hb : b.hasConflict
  case false.false => simp [ha, hb] at h
  all_goals rfl

/-- A pairing does with a list what it should. -/
theorem simplifies_combine (hb : b.bytes = a.bytes) (hmask : ∀ k ∈ mask, k.bytes = a.bytes) :
    Simplifies a b mask (combine a b mask).combined where
  cover := cover_combined hb
  empty h := by
    rw [combined_of_empty h, nonempty_cover_iff, nonempty_cover_iff]
    simp
  superset ha hb' hsub := congrArg _ (combine_of_superset hb ha hb' hsub)
  subset ha hsub := congrArg _ (combine_of_subset hb ha hsub)
  extra m := by
    rw [extra_combined_iff, combine_eq_merged_iff hb hmask]
    exact ⟨fun h ↦ ⟨h.1.nonempty.1, h.1.nonempty.2, h⟩, fun h ↦ h.2.2⟩
  merged m hm := by
    rw [extra_combined_iff.1 hm]
    exact ⟨rfl, rfl⟩
  both := by
    rw [combined_eq_both_iff, combine_eq_both_iff hb hmask]
    exact ⟨fun h ↦ ⟨h.1.nonempty.1, h.1.nonempty.2, h⟩, fun h ↦ h.2.2⟩

/-- **Merges and pairings are exact, and nothing that can be merged is left.** Two patterns of one
length have a merge exactly if neither has a conflict and they are equal or opposite in a single
trit, and it covers what the two do. With any mask of that length, a pairing keeps and adds patterns
that cover what the two do; it is what comes of working out the three parts of its answer one by
one, and each part is as the covers ask for. -/
theorem union_exact (hb : b.bytes = a.bytes) :
    Checked.Gives (a.merge b) (fun o ↦
      ((∃ m, o = some m) ↔ a.ConflictFree ∧ b.ConflictFree ∧ (a = b ∨ ∃ i, OppositeAt a b i)) ∧
      ∀ m, o = some m → m.bytes = a.bytes ∧ m.cover = a.cover ∪ b.cover) ∧
    ∀ mask : Option Pattern, (∀ k ∈ mask, k.bytes = a.bytes) →
      Checked.Gives (a.pairing b mask) fun c ↦
      combineFlags a b mask = .ok c.combined ∧ Simplifies a b mask c.combined :=
  ⟨⟨_, merge_eq hb.symm, exists_join?_iff_oppositeAt hb,
    fun _ hm ↦ ⟨bytes_of_join? hm, cover_of_join? hb hm⟩⟩, fun mask hmask ↦
      ⟨_, pairing_eq hb.symm mask, combineFlags_eq hb, simplifies_combine hb hmask⟩⟩

/-- Five bytes, opposite in the last trit of the second word. They are replaced by their merge under
a mask that may set another position, and stay under one that may set this one. -/
theorem union_exact_five_bytes :
    let a := ofTrits (List.replicate 39 Trit.wild ++ [Trit.zero])
    let b := ofTrits (List.replicate 39 Trit.wild ++ [Trit.one])
    let k := ofTrits (Trit.one :: List.replicate 39 Trit.zero)
    let l := ofTrits (List.replicate 39 Trit.zero ++ [Trit.wild])
    b.bytes = a.bytes ∧ k.bytes = a.bytes ∧ l.bytes = a.bytes ∧
    (allWild 5).cover = a.cover ∪ b.cover ∧
      MergesTo a b (some k) (allWild 5) ∧ ∀ m, ¬ MergesTo a b (some l) m := by
  intro a b k l
  have hb : b.bytes = a.bytes := by decide +kernel
  have hk : k.bytes = a.bytes := by decide +kernel
  have hl : l.bytes = a.bytes := by decide +kernel
  obtain ⟨⟨o, ho, -, hcover⟩, hpairing⟩ := union_exact hb
  obtain ⟨c, hc, -, hmerged⟩ := hpairing (some k) fun _ h ↦ Option.mem_some_iff.1 h ▸ hk
  obtain ⟨e, he, -, hkept⟩ := hpairing (some l) fun _ h ↦ Option.mem_some_iff.1 h ▸ hl
  have ho' : a.merge b = .ok (some (allWild 5)) := by decide +kernel
  have hc' : a.pairing b (some k) = .ok (.merged (allWild 5)) := by decide +kernel
  have he' : a.pairing b (some l) = .ok .both := by decide +kernel
  obtain rfl := Except.ok.inj (ho.symm.trans ho')
  obtain rfl := Except.ok.inj (hc.symm.trans hc')
  obtain rfl := Except.ok.inj (he.symm.trans he')
  exact ⟨hb, hk, hl, (hcover _ rfl).2, ((hmerged.extra _).1 rfl).2.2.2, (hkept.both.1 rfl).2.2.2⟩

end HeaderFlow.Pattern
