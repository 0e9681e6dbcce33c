import HeaderFlow.Proofs.Pattern.Tritwise

/-!
# Operations on widened patterns

Past the end of a pattern every trit is wild, and widening says so of some positions explicitly.
**No operation can tell the difference**: it answers what it would have answered before, widened.
Two wild trits meet and join in a wild one, are neither opposite nor one in excess of the other, and
are skipped by a complement.

A mask is widened with `0` instead. Where the mask is `0` a trit is kept and no wildcard is lost,
and a merge is refused only at positions at which two patterns differ.
-/

namespace HeaderFlow

/-- Adding up may stop where nothing more is found. -/
theorem tally_range_of_le {f : Nat → Nat} {k l : Nat} (hle : k ≤ l)
    (hf : ∀ i, k ≤ i → i < l → f i = 0) : tally f (List.range l) = tally f (List.range k) := by
  obtain ⟨d, rfl⟩ := Nat.exists_eq_add_of_le hle
  clear hle
  induction d with
  | zero => rfl
  | succ d ih =>
    rw [← Nat.add_assoc, List.range_succ, tally_append,
      ih fun i hk hi ↦ hf i hk (by omega), tally_cons, hf (k + d) (by omega) (by omega), tally_nil,
      Nat.add_zero]

theorem countP_range_of_le {f : Nat → Bool} {k l : Nat} (hle : k ≤ l)
    (hf : ∀ i, k ≤ i → i < l → f i = false) :
    (List.range l).countP f = (List.range k).countP f := by
  rw [← tally_toNat, ← tally_toNat]
  exact tally_range_of_le hle fun i hk hi ↦ by rw [hf i hk hi, Bool.toNat_false]

namespace Pattern

variable {p q mask value : Pattern} {bytes n i : Nat}

/-! ### Trits of a widened pattern -/

/-- Widening changes no trit, seen from outside. -/
theorem trit_enlarge (p : Pattern) (bytes i : Nat) : (p.enlarge bytes).trit i = p.trit i :=
  Trit.ext fun b ↦ allows_enlarge p bytes i b

/-- Past the end every trit is wild. -/
theorem trit_of_ge (hi : p.width ≤ i) : p.trit i = .wild := trit_eq_wild.2 fun b ↦ allows_of_ge hi b

theorem width_enlarge (p : Pattern) (bytes : Nat) : p.width ≤ (p.enlarge bytes).width := by
  rw [width_eq, width_eq, bytes_enlarge]
  omega

/-- A pattern that is long enough stays as it is. -/
theorem enlarge_of_le (hle : bytes ≤ p.bytes) : p.enlarge bytes = p := if_pos hle

/-- Two patterns of one length with the same trits are the same, widened or not. -/
theorem enlarge_inj (hq : q.bytes = p.bytes) : p.enlarge bytes = q.enlarge bytes ↔ p = q := by
  refine ⟨fun h ↦ eq_of_allows hq.symm fun i b ↦ ?_, fun h ↦ by rw [h]⟩
  rw [← allows_enlarge p bytes, h, allows_enlarge]

/-- Widening twice is widening to the greater length. -/
theorem enlarge_enlarge (p : Pattern) (n m : Nat) :
    (p.enlarge n).enlarge m = p.enlarge (max n m) := by
  refine eq_of_allows ?_ fun i b ↦ by rw [allows_enlarge, allows_enlarge, allows_enlarge]
  rw [bytes_enlarge, bytes_enlarge, bytes_enlarge, Nat.max_assoc]

theorem enlarge_allWild (n m : Nat) : (allWild n).enlarge m = allWild (max n m) :=
  eq_of_allows (bytes_enlarge ..) fun i b ↦ by rw [allows_enlarge, allows_allWild, allows_allWild]

theorem enlargeWith_of_le {t : Trit} (hle : bytes ≤ p.bytes) : p.enlargeWith bytes t = p :=
  if_pos hle

/-- Widening a mask twice is widening to the greater length. -/
theorem enlargeWith_enlargeWith (p : Pattern) (n m : Nat) (t : Trit) :
    (p.enlargeWith n t).enlargeWith m t = p.enlargeWith (max n m) t := by
  refine eq_of_allows (by simp only [bytes_enlargeWith, Nat.max_assoc]) fun i b ↦ ?_
  have hwidth := width_eq p
  rw [allows_enlargeWith, allows_enlargeWith, allows_enlargeWith, width_eq, bytes_enlargeWith,
    tritsPerByte]
  by_cases hn : p.width ≤ i ∧ i < n * 8
  · rw [if_neg (by omega), if_pos hn, if_pos (by omega)]
  · rw [if_neg hn]
    exact ite_congr (propext (by omega)) (fun _ ↦ rfl) fun _ ↦ rfl

/-- A widened mask says what it said before. -/
theorem allows_enlargeWith_zero (hi : i < mask.width) (b : Bool) :
    (mask.enlargeWith bytes .zero).allows i b = mask.allows i b := by
  rw [allows_enlargeWith, if_neg (by omega)]

/-- **What was added to a mask is `0`.** -/
theorem allows_enlargeWith_zero_of_ge (hmask : mask.bytes = p.bytes) (hi : p.width ≤ i)
    (hi' : i < (p.enlarge bytes).width) (b : Bool) :
    (mask.enlargeWith bytes .zero).allows i b = Trit.zero.allows b := by
  have hwidth := width_eq p
  have hwidth' : mask.width = p.width := by rw [width, hmask, ← width]
  rw [width_eq, bytes_enlarge] at hi'
  rw [allows_enlargeWith, if_pos]
  rw [tritsPerByte]
  omega

/-! ### Inclusion -/

/-- Inclusion, trit by trit: the trits agree or the second is wild. -/
theorem within_iff_allows (hq : q.bytes = p.bytes) : within p q = true ↔ p.hasConflict = true ∨
    ∀ i, (∀ b, p.allows i b = q.allows i b) ∨ ∀ b, q.allows i b = true := by
  rw [within, Bool.or_eq_true]
  refine or_congr_right ⟨fun h i ↦ ?_, fun h ↦ ?_⟩
  · rcases words_at hq.symm i with ⟨v, w, hv, hw, hpi, hqi⟩ | hfree
    · have hvw := List.all_eq_true.1 h (v, w) (mem_pairs hv hw)
      simpa only [hpi, hqi] using Word.within_iff.1 hvw _ (Nat.mod_lt i (by decide))
    · exact .inr fun b ↦ (hfree b).2
  · rw [List.all_eq_true]
    rintro ⟨v, w⟩ hvw
    obtain ⟨j, hj⟩ := List.mem_iff_getElem?.1 hvw
    obtain ⟨hv, hw⟩ := List.getElem?_zip_eq_some.1 hj
    refine Word.within_iff.2 fun k hk ↦ ?_
    simpa only [allows_of_word hv hk, allows_of_word hw hk] using h (Word.tritsPerWord * j + k)

/-- Inclusion does not depend on widening. -/
theorem within_enlarge (hq : q.bytes = p.bytes) :
    within (p.enlarge bytes) (q.enlarge bytes) = within p q := by
  rw [Bool.eq_iff_iff, within_iff_allows hq,
    within_iff_allows (by rw [bytes_enlarge, bytes_enlarge, hq])]
  simp only [hasConflict_enlarge, allows_enlarge]

/-! ### Intersection -/

/-- An intersection is widened with its operands. -/
theorem meet_enlarge (hq : q.bytes = p.bytes) :
    meet (p.enlarge bytes) (q.enlarge bytes) = (meet p q).enlarge bytes := by
  have hbytes : (p.enlarge bytes).bytes = (q.enlarge bytes).bytes := by
    rw [bytes_enlarge, bytes_enlarge, hq]
  refine eq_of_allows (by rw [bytes_meet, bytes_enlarge, bytes_enlarge, bytes_meet]) fun i b ↦ ?_
  rw [allows_meet hbytes, allows_enlarge, allows_enlarge, allows_enlarge, allows_meet hq.symm]

theorem meet?_enlarge (hq : q.bytes = p.bytes) :
    meet? (p.enlarge bytes) (q.enlarge bytes) = (meet? p q).map fun m ↦ m.enlarge bytes := by
  simp only [meet?, meet_enlarge hq, hasConflict_enlarge]
  split <;> rfl

/-! ### Joining -/

/-- A join is widened with its operands. -/
theorem join_enlarge (hq : q.bytes = p.bytes) :
    join (p.enlarge bytes) (q.enlarge bytes) = (join p q).enlarge bytes := by
  have hbytes : (p.enlarge bytes).bytes = (q.enlarge bytes).bytes := by
    rw [bytes_enlarge, bytes_enlarge, hq]
  refine eq_of_allows (by rw [bytes_join, bytes_enlarge, bytes_enlarge, bytes_join]) fun i b ↦ ?_
  rw [allows_join hbytes, allows_enlarge, allows_enlarge, allows_enlarge, allows_join hq.symm]

/-- Two patterns of one length are not opposite past their end. -/
theorem not_opposite_of_ge (hq : q.bytes = p.bytes) (hi : p.width ≤ i) :
    ¬ ∀ b, p.allows i b = !q.allows i b := by
  have hi' : q.width ≤ i := by rwa [width, hq, ← width]
  intro h
  have := h true
  rw [allows_of_ge hi, allows_of_ge hi'] at this
  exact absurd this (by decide)

theorem differInOpposites_enlarge (hq : q.bytes = p.bytes) :
    differInOpposites (p.enlarge bytes) (q.enlarge bytes) = differInOpposites p q := by
  have hle := width_enlarge p bytes
  rw [Bool.eq_iff_iff, differInOpposites_iff hq,
    differInOpposites_iff (by rw [bytes_enlarge, bytes_enlarge, hq])]
  simp only [allows_enlarge]
  refine ⟨fun h i hi ↦ h i (by omega), fun h i _ ↦ ?_⟩
  by_cases hi : i < p.width
  · exact h i hi
  · have hi' : q.width ≤ i := by
      rw [width, hq, ← width]
      omega
    exact .inl fun b ↦ by rw [allows_of_ge (Nat.le_of_not_lt hi), allows_of_ge hi']

theorem countOpposites_enlarge (hq : q.bytes = p.bytes) :
    countOpposites (p.enlarge bytes) (q.enlarge bytes) = countOpposites p q := by
  rw [countOpposites_eq hq, countOpposites_eq (by rw [bytes_enlarge, bytes_enlarge, hq])]
  simp only [allows_enlarge]
  exact countP_range_of_le (width_enlarge p bytes) fun i hi _ ↦
    decide_eq_false (not_opposite_of_ge hq hi)

/-- There is a join of widened patterns if there was one. -/
theorem join?_enlarge (hq : q.bytes = p.bytes) :
    join? (p.enlarge bytes) (q.enlarge bytes) = (join? p q).map fun m ↦ m.enlarge bytes := by
  simp only [join?, hasConflict_enlarge, differInOpposites_enlarge hq, join_enlarge hq,
    countOpposites_enlarge hq]
  split
  · rfl
  split
  · rfl
  split <;> rfl

/-- Only the high bit of a place can tell that two trits are opposite and that the mask is `1`. -/
theorem bit_oppositesMasked (v w m : UInt64) {k : Nat} (hk : k < Word.tritsPerWord) (b : Bool) :
    Word.bit (Word.wildHighs (v ^^^ w) &&& m) (2 * k + b.toNat) =
      ((b && ((Word.bit v (2 * k) ^^ Word.bit w (2 * k)) &&
        (Word.bit v (2 * k + 1) ^^ Word.bit w (2 * k + 1)))) && Word.bit m (2 * k + b.toNat)) := by
  rw [Word.bit_and, Word.bit_wildHighs hk, Word.bit_xor, Word.bit_xor]

/-- The mask may set a position at which the two are opposite. -/
theorem oppositesMasked_iff (hq : q.bytes = p.bytes) (hmask : mask.bytes = p.bytes) :
    oppositesMasked p q mask = true ↔ ∃ i, (∀ b, p.allows i b = !q.allows i b) ∧
      mask.allows i true = true := by
  rw [oppositesMasked, List.any_eq_true]
  constructor
  · rintro ⟨⟨⟨v, w⟩, m⟩, hmem, hne⟩
    obtain ⟨j, hj⟩ := List.mem_iff_getElem?.1 hmem
    obtain ⟨hvw, hm⟩ := List.getElem?_zip_eq_some.1 hj
    obtain ⟨hv, hw⟩ := List.getElem?_zip_eq_some.1 hvw
    obtain ⟨l, hl, hbit⟩ := Word.ne_zero_iff.1 (bne_iff_ne.1 hne)
    obtain ⟨k, hk, b, rfl⟩ := Word.exists_trit_place hl
    rw [bit_oppositesMasked v w m hk] at hbit
    simp only [Bool.and_eq_true] at hbit
    obtain ⟨⟨rfl, h₀, h₁⟩, hm'⟩ := hbit
    refine ⟨Word.tritsPerWord * j + k, ?_, by rw [allows_of_word hm hk]; exact hm'⟩
    simp only [Bool.forall_bool, allows_of_word hv hk, allows_of_word hw hk, Bool.toNat_false,
      Bool.toNat_true, Nat.add_zero]
    exact ⟨Bool.eq_not_of_ne (by simpa using h₀), Bool.eq_not_of_ne (by simpa using h₁)⟩
  · rintro ⟨i, hopposite, hone⟩
    have hk : i % Word.tritsPerWord < Word.tritsPerWord := Nat.mod_lt i (by decide)
    -- past the end both are wild, which is not opposite
    have hi : i < p.width := by
      by_contra hge
      exact not_opposite_of_ge hq (Nat.le_of_not_lt hge) hopposite
    have hlt := bit_div i true ▸ div_lt_length_words hi true
    obtain ⟨v, w, hv, hw, hpi, hqi⟩ := words_of_lt hq.symm hlt
    obtain ⟨-, m, -, hm, -, hmi⟩ := words_of_lt hmask.symm hlt
    refine ⟨((v, w), m), ?_,
      bne_iff_ne.2 (Word.ne_zero_iff.2 ⟨2 * (i % Word.tritsPerWord) + true.toNat, ?_, ?_⟩)⟩
    · exact List.mem_of_getElem?
        (List.getElem?_zip_eq_some.2 ⟨List.getElem?_zip_eq_some.2 ⟨hv, hw⟩, hm⟩)
    · rw [Word.tritsPerWord] at hk ⊢
      rw [Bool.toNat_true]
      omega
    · have h₀ := hopposite false
      have h₁ := hopposite true
      rw [hpi, hqi, Bool.toNat_false, Nat.add_zero] at h₀
      rw [hpi, hqi, Bool.toNat_true] at h₁
      rw [bit_oppositesMasked v w m hk, ← hmi, hone, h₀, h₁]
      simp

/-- A widened mask forbids what it did before. -/
theorem oppositesMasked_enlarge (hq : q.bytes = p.bytes) (hmask : mask.bytes = p.bytes) :
    oppositesMasked (p.enlarge bytes) (q.enlarge bytes) (mask.enlargeWith bytes .zero) =
      oppositesMasked p q mask := by
  rw [Bool.eq_iff_iff, oppositesMasked_iff hq hmask,
    oppositesMasked_iff (by rw [bytes_enlarge, bytes_enlarge, hq])
    (by rw [bytes_enlargeWith, bytes_enlarge, hmask])]
  simp only [allows_enlarge]
  refine exists_congr fun i ↦ and_congr_right fun hopposite ↦ ?_
  have hi : i < mask.width := by
    rw [width, hmask, ← width]
    by_contra hge
    exact not_opposite_of_ge hq (Nat.le_of_not_lt hge) hopposite
  rw [allows_enlargeWith_zero hi]

/-- The pairing of widened patterns. -/
def Pairing.enlarge (bytes : Nat) : Pairing → Pairing
  | .merged m => .merged (m.enlarge bytes)
  | paired => paired

/-- **Widened patterns simplify as they did before.** -/
theorem combine_enlarge {o : Option Pattern} (hq : q.bytes = p.bytes)
    (ho : ∀ k ∈ o, k.bytes = p.bytes) :
    combine (p.enlarge bytes) (q.enlarge bytes) (o.map fun k ↦ k.enlargeWith bytes .zero) =
      (combine p q o).enlarge bytes := by
  have hmasked : (o.map fun k ↦ k.enlargeWith bytes .zero).any
      (oppositesMasked (p.enlarge bytes) (q.enlarge bytes)) = o.any (oppositesMasked p q) := by
    cases o with
    | none => rfl
    | some k => exact oppositesMasked_enlarge hq (ho k rfl)
  rw [combine, combine, hasConflict_enlarge, hasConflict_enlarge, within_enlarge hq,
    within_enlarge hq.symm, hmasked, join?_enlarge hq]
  cases p.hasConflict <;> cases q.hasConflict <;> try rfl
  dsimp only
  split
  · rfl
  split
  · rfl
  split
  · rfl
  cases join? p q <;> rfl

/-! ### Overwriting and narrowing -/

/-- **A widened mask overwrites nothing in what was added.** -/
theorem pattern_replaceMasked_enlarge (hmask : mask.bytes = p.bytes)
    (hvalue : value.bytes = p.bytes) :
    ((p.enlarge bytes).replaceMasked (mask.enlargeWith bytes .zero) (value.enlarge bytes)).pattern =
      (p.replaceMasked mask value).pattern.enlarge bytes := by
  have hmask' : (mask.enlargeWith bytes .zero).bytes = (p.enlarge bytes).bytes := by
    rw [bytes_enlargeWith, bytes_enlarge, hmask]
  have hvalue' : (value.enlarge bytes).bytes = (p.enlarge bytes).bytes := by
    rw [bytes_enlarge, bytes_enlarge, hvalue]
  have hwidth : mask.width = p.width := by rw [width, hmask, ← width]
  refine eq_of_allows
    (by rw [bytes_replaceMasked, bytes_enlarge, bytes_enlarge, bytes_replaceMasked])
    fun i b ↦ ?_
  rw [allows_enlarge]
  by_cases hi' : i < (p.enlarge bytes).width
  · rw [allows_replaceMasked hmask'.symm hvalue'.symm hi', allows_enlarge, allows_enlarge]
    by_cases hi : i < p.width
    · rw [allows_replaceMasked hmask.symm hvalue.symm hi, allows_enlargeWith_zero (hwidth ▸ hi),
        allows_enlargeWith_zero (hwidth ▸ hi)]
    · -- in what was added the mask keeps a wild trit
      have hge := Nat.le_of_not_lt hi
      have hge' : (p.replaceMasked mask value).pattern.width ≤ i := hge
      rw [allows_enlargeWith_zero_of_ge hmask hge hi', allows_enlargeWith_zero_of_ge hmask hge hi',
        allows_of_ge hge, allows_of_ge hge']
      simp [Trit.allows, Trit.mayZero, Trit.mayOne]
  · have hge : ((p.enlarge bytes).replaceMasked (mask.enlargeWith bytes .zero)
        (value.enlarge bytes)).pattern.width ≤ i := Nat.le_of_not_lt hi'
    have hge' : (p.replaceMasked mask value).pattern.width ≤ i :=
      Nat.le_trans (width_enlarge p bytes) (Nat.le_of_not_lt hi')
    rw [allows_of_ge hge, allows_of_ge hge']

/-- **No wildcard is lost in what was added.** -/
theorem lost_replaceMasked_enlarge (hmask : mask.bytes = p.bytes) :
    ((p.enlarge bytes).replaceMasked (mask.enlargeWith bytes .zero) (value.enlarge bytes)).lost =
      (p.replaceMasked mask value).lost := by
  have hmask' : (mask.enlargeWith bytes .zero).bytes = (p.enlarge bytes).bytes := by
    rw [bytes_enlargeWith, bytes_enlarge, hmask]
  have hwidth : mask.width = p.width := by rw [width, hmask, ← width]
  rw [lost_eq_countP hmask, lost_eq_countP hmask',
    countP_range_of_le (width_enlarge p bytes) fun i hi hi' ↦ ?_]
  · refine List.countP_congr fun i hi ↦ ?_
    have hone : ((mask.enlargeWith bytes .zero).trit i).mayOne = (mask.trit i).mayOne :=
      allows_enlargeWith_zero (hwidth ▸ List.mem_range.1 hi) true
    rw [trit_enlarge, hone]
  · have hone : ((mask.enlargeWith bytes .zero).trit i).mayOne = false :=
      allows_enlargeWith_zero_of_ge hmask hi hi' true
    rw [hone, Bool.and_false]

/-- **Overwriting commutes with widening.** -/
theorem replaceMasked_enlarge (hmask : mask.bytes = p.bytes) (hvalue : value.bytes = p.bytes) :
    (p.enlarge bytes).replaceMasked (mask.enlargeWith bytes .zero) (value.enlarge bytes) =
      ⟨(p.replaceMasked mask value).pattern.enlarge bytes, (p.replaceMasked mask value).lost⟩ :=
  congrArg₂ Overwritten.mk (pattern_replaceMasked_enlarge hmask hvalue)
    (lost_replaceMasked_enlarge hmask)

/-- **Narrowing commutes with widening.** -/
theorem narrow_enlarge (hq : q.bytes = p.bytes) : narrow (p.enlarge bytes) (q.enlarge bytes) =
    ⟨(narrow p q).pattern.enlarge bytes, (narrow p q).excess⟩ := by
  have hq' : (q.enlarge bytes).bytes = (p.enlarge bytes).bytes := by
    rw [bytes_enlarge, bytes_enlarge, hq]
  have hexcess : (narrow (p.enlarge bytes) (q.enlarge bytes)).excess = (narrow p q).excess := by
    rw [excess_eq hq, excess_eq hq']
    simp only [trit_enlarge]
    refine tally_range_of_le (width_enlarge p bytes) fun i hi _ ↦ ?_
    rw [trit_of_ge hi, trit_of_ge (by rwa [width, hq, ← width])]
    rfl
  have hpattern : (narrow (p.enlarge bytes) (q.enlarge bytes)).pattern =
      (narrow p q).pattern.enlarge bytes := by
    by_cases hone : (narrow p q).excess = 1
    · refine eq_of_allows (by rw [bytes_narrow, bytes_enlarge, bytes_enlarge, bytes_narrow])
        fun i b ↦ ?_
      rw [allows_enlarge, allows_narrow_eq hq hone, allows_narrow_eq hq' (hexcess.trans hone),
        trit_enlarge, trit_enlarge]
    · rw [narrow_of_excess_ne_one hone, narrow_of_excess_ne_one (hexcess.symm ▸ hone)]
  exact congrArg₂ Narrowed.mk hpattern hexcess

/-! ### Complement -/

/-- Writing a trit inside commutes with widening. -/
theorem put_enlarge (hi : i < p.width) (t : Trit) :
    (p.enlarge bytes).put i t = (p.put i t).enlarge bytes := by
  refine eq_of_allows (by rw [bytes_put, bytes_enlarge, bytes_enlarge, bytes_put]) fun j b ↦ ?_
  rw [allows_put (Nat.lt_of_lt_of_le hi (width_enlarge p bytes)), allows_enlarge, allows_enlarge,
    allows_put hi]

/-- The pass of the complement runs over the old positions alike. -/
theorem complementFrom_enlarge {copied : Pattern} {rest : List Nat}
    (hbytes : copied.bytes = p.bytes) (hlt : ∀ i ∈ rest, i < p.width) :
    complementFrom (p.enlarge bytes) (copied.enlarge bytes) rest =
      (complementFrom p copied rest).map fun c ↦ c.enlarge bytes := by
  induction rest generalizing copied with
  | nil => rfl
  | cons i rest ih =>
    obtain ⟨hi, hrest⟩ := List.forall_mem_cons.1 hlt
    have hi' : i < copied.width := by rwa [width, hbytes]
    rw [complementFrom, complementFrom, trit_enlarge]
    split
    · rw [put_enlarge hi', put_enlarge hi', ih ((bytes_put ..).trans hbytes) hrest, List.map_cons]
    · exact ih hbytes hrest

/-- Positions with a wild trit add nothing. -/
theorem complementFrom_append_wild {copied : Pattern} {rest more : List Nat}
    (hmore : ∀ i ∈ more, p.trit i = .wild) :
    complementFrom p copied (rest ++ more) = complementFrom p copied rest := by
  induction rest generalizing copied with
  | nil =>
    induction more with
    | nil => rfl
    | cons i more ih =>
      obtain ⟨hi, hmore⟩ := List.forall_mem_cons.1 hmore
      have hskip : (p.trit i).isConcrete ≠ true := by
        rw [hi]
        decide
      exact (if_neg hskip).trans (ih hmore)
  | cons i rest ih =>
    rw [List.cons_append, complementFrom, complementFrom, ih, ih]

/-- **The complement of a widened pattern is the complement, widened.** -/
theorem complement_enlarge (p : Pattern) (bytes : Nat) :
    (p.enlarge bytes).complement = p.complement.map fun c ↦ c.enlarge bytes := by
  rw [complement, complement, hasConflict_enlarge, bytes_enlarge, ← enlarge_allWild]
  split
  · rfl
  · obtain ⟨d, hd⟩ := Nat.exists_eq_add_of_le (width_enlarge p bytes)
    rw [hd, List.range_add, complementFrom_append_wild]
    · exact complementFrom_enlarge rfl fun i hi ↦ List.mem_range.1 hi
    · intro i hi
      obtain ⟨j, -, rfl⟩ := List.mem_map.1 hi
      rw [trit_enlarge]
      exact trit_of_ge (Nat.le_add_right ..)

end Pattern

end HeaderFlow
