import HeaderFlow.Proofs.Pattern.Packing

/-!
# Operations on words, trit by trit

What the operations on patterns compute with masks and shifts on whole words has a plain description
one trit at a time: `Trit.meet`, `Trit.and`, `Trit.select` and the like. `Tritwise` collects these
descriptions for operands of one length, and they hold **whatever the trits are**, conflicts and
wildcards in a mask included (`tritwise`). Only positions inside the pattern are spoken of: the
padding has no say in any answer.

Two steps lead there. `Reads` says which trit is read at each position, and follows from what the
result allows (`reads_of_allows`). A population count over words becomes a tally over positions
(`tally_popcount_of_trits`).
-/

namespace HeaderFlow

theorem tally_congr {α : Type} {f g : α → Nat} {l : List α} (h : ∀ a ∈ l, f a = g a) :
    tally f l = tally g l := by
  induction l with
  | nil => rfl
  | cons a l ih =>
    rw [tally_cons, tally_cons, h a List.mem_cons_self,
      ih fun b hb ↦ h b (List.mem_cons_of_mem _ hb)]

theorem tally_toNat {α : Type} (f : α → Bool) (l : List α) :
    tally (fun a ↦ (f a).toNat) l = l.countP f := by
  induction l with
  | nil => rfl
  | cons a l ih =>
    rw [tally_cons, List.countP_cons, ih]
    cases f a <;> simp [Nat.add_comm]

namespace Trit

/-- What both trits allow. -/
def meet (t u : Trit) : Trit := ofAllowed (t.mayZero && u.mayZero) (t.mayOne && u.mayOne)

/-- What either trit allows. -/
def join (t u : Trit) : Trit := ofAllowed (t.mayZero || u.mayZero) (t.mayOne || u.mayOne)

/-- What the first trit allows and the second does not. -/
def minus (t u : Trit) : Trit := ofAllowed (t.mayZero && !u.mayZero) (t.mayOne && !u.mayOne)

/-- The number of values that a trit allows. -/
def size (t : Trit) : Nat := t.mayZero.toNat + t.mayOne.toNat

/-- Conjunction of trits: `0` decides, and `1` has no say. -/
def and : Trit → Trit → Trit
  | .zero, _ => .zero
  | _, .zero => .zero
  | .one, u => u
  | t, .one => t
  | .wild, .wild => .wild
  | .conflict, .conflict => .conflict
  | .wild, .conflict => .zero
  | .conflict, .wild => .zero

/-- The trit `kept` if that of the mask may be `0`, joined with `new` if it may be `1`. -/
def select (mask kept new : Trit) : Trit :=
  join (if mask.mayZero then kept else .conflict) (if mask.mayOne then new else .conflict)

/-- One trit is `0` and the other `1`. -/
def opposite (t u : Trit) : Bool := t.isConcrete && u == t.flip

theorem not_opposite_self (t : Trit) : t.opposite t = false := by
  cases t <;> rfl

theorem opposite_eq_true_iff {t u : Trit} :
    t.opposite u = true ↔ t = .zero ∧ u = .one ∨ t = .one ∧ u = .zero := by
  cases t <;> cases u <;> decide

/-- Trits that allow the same values are equal. -/
theorem ext {t u : Trit} (h : ∀ b, t.allows b = u.allows b) : t = u := by
  have h₀ := h false
  have h₁ := h true
  revert h₀ h₁
  cases t <;> cases u <;> decide

theorem allows_meet (t u : Trit) (b : Bool) : (t.meet u).allows b = (t.allows b && u.allows b) := by
  cases t <;> cases u <;> cases b <;> rfl

theorem allows_join (t u : Trit) (b : Bool) : (t.join u).allows b = (t.allows b || u.allows b) := by
  cases t <;> cases u <;> cases b <;> rfl

theorem allows_minus (t u : Trit) (b : Bool) :
    (t.minus u).allows b = (t.allows b && !u.allows b) := by
  cases t <;> cases u <;> cases b <;> rfl

/-- The truth table, by what the conjunction allows. -/
theorem allows_and (t u : Trit) (b : Bool) : (t.and u).allows b =
    if b then t.allows true && u.allows true else t.allows false || u.allows false := by
  cases t <;> cases u <;> cases b <;> rfl

/-- What a selected trit allows. -/
theorem allows_select (mask kept new : Trit) (b : Bool) : (select mask kept new).allows b =
    (kept.allows b && mask.allows false || new.allows b && mask.allows true) := by
  cases mask <;> cases kept <;> cases new <;> cases b <;> rfl

/-- A flipped trit allows the opposite values. -/
theorem allows_flip_not (t : Trit) (b : Bool) : t.flip.allows b = t.allows (!b) := by
  cases t <;> cases b <;> rfl

end Trit

namespace Pattern

variable {p q r : Pattern} {ws : List UInt64} {i n : Nat}

/-! ### Reading a result -/

/-- The pattern has `bytes` bytes, and `f i` is read at each position `i` inside. -/
def Reads (p : Pattern) (bytes : Nat) (f : Nat → Trit) : Prop :=
  p.bytes = bytes ∧ ∀ i < 8 * bytes, p.get i = .ok (f i)

theorem width_eq (p : Pattern) : p.width = 8 * p.bytes := Nat.mul_comm ..

theorem get_eq (hi : i < p.width) : p.get i = .ok (p.trit i) := by
  rw [get, checkIndex, if_pos hi]
  rfl

/-- **What is read follows from what is allowed.** -/
theorem reads_of_allows {bytes : Nat} {f : Nat → Trit} (hbytes : p.bytes = bytes)
    (h : ∀ i < p.width, ∀ b, p.allows i b = (f i).allows b) : p.Reads bytes f := by
  subst hbytes
  refine ⟨rfl, fun i hi ↦ ?_⟩
  rw [← width_eq] at hi
  rw [get_eq hi, Trit.ext (h i hi)]

/-! ### Counting trits -/

/-- Two places at a time. -/
theorem countP_range_two_mul (f : Nat → Bool) (m : Nat) :
    (List.range (2 * m)).countP f =
      tally (fun i ↦ (f (2 * i)).toNat + (f (2 * i + 1)).toNat) (List.range m) := by
  induction m with
  | zero => rfl
  | succ m ih =>
    rw [show 2 * (m + 1) = 2 * m + 1 + 1 by omega, List.range_succ, List.range_succ,
      List.countP_append, List.countP_append, ih, List.range_succ, tally_append,
      List.countP_singleton, List.countP_singleton]
    cases h₀ : f (2 * m) <;> cases h₁ : f (2 * m + 1) <;> simp [h₀, h₁]

/-- **A population count over words is a tally over positions**, if nothing is set past the last of
them. -/
theorem tally_popcount_of_trits {c : Nat → Nat} (hlen : n ≤ 32 * ws.length)
    (hin : ∀ i < n, (bits ws (2 * i)).toNat + (bits ws (2 * i + 1)).toNat = c i)
    (hout : ∀ i < 32 * ws.length, n ≤ i → ∀ b : Bool, bits ws (2 * i + b.toNat) = false) :
    tally Word.popcount ws = tally c (List.range n) := by
  obtain ⟨m, hm⟩ := Nat.exists_eq_add_of_le hlen
  rw [tally_popcount, show 64 * ws.length = 2 * (32 * ws.length) by omega, countP_range_two_mul, hm,
    List.range_add, tally_append, tally_congr fun i hi ↦ hin i (List.mem_range.1 hi)]
  have hzero : tally (fun i ↦ (bits ws (2 * i)).toNat + (bits ws (2 * i + 1)).toNat)
      ((List.range m).map (n + ·)) = tally (fun _ ↦ 0) ((List.range m).map (n + ·)) := by
    refine tally_congr fun i hi ↦ ?_
    obtain ⟨j, hj, rfl⟩ := List.mem_map.1 hi
    have hj' := List.mem_range.1 hj
    have h₀ := hout (n + j) (by omega) (by omega) false
    have h₁ := hout (n + j) (by omega) (by omega) true
    rw [Bool.toNat_false, Nat.add_zero] at h₀
    rw [Bool.toNat_true] at h₁
    rw [h₀, h₁]
    rfl
  have hnone : ∀ l : List Nat, tally (fun _ ↦ 0) l = 0 := fun l ↦ by
    induction l with
    | nil => rfl
    | cons a l ih => rw [tally_cons, ih]
  rw [hzero, hnone, Nat.add_zero]

/-! ### Questions about all trits -/

/-- A wild trit allows everything. -/
theorem trit_eq_wild : p.trit i = .wild ↔ ∀ b, p.allows i b = true := by
  rw [Bool.forall_bool, allows, allows]
  cases p.trit i <;> decide

/-- A trit in conflict allows nothing. -/
theorem trit_eq_conflict : p.trit i = .conflict ↔ ∀ b, p.allows i b = false := by
  rw [Bool.forall_bool, allows, allows]
  cases p.trit i <;> decide

/-- The words in which the lower bit of each wildcard in use is set. -/
def wildWords (p : Pattern) : List UInt64 :=
  p.wordsWithUse.map fun (w, used) ↦ Word.wildLows w &&& used

theorem length_wildWords (p : Pattern) : (wildWords p).length = p.words.length := by
  simp [wildWords, wordsWithUse]

/-- Which bits are set in these words. -/
theorem bits_wildWords {b : Bool} (hlt : (2 * i + b.toNat) / 64 < p.words.length) :
    bits (wildWords p) (2 * i + b.toNat) =
      (!b && decide (p.trit i = .wild) && decide (i < p.width)) := by
  rw [bit_div] at hlt
  obtain ⟨w, -, hw, -, hpi, -⟩ := words_of_lt (rfl : p.bytes = p.bytes) hlt
  have hget : (wildWords p)[(2 * i + b.toNat) / 64]? =
      some (Word.wildLows w &&& usedBits p.bytes (i / Word.tritsPerWord)) := by
    rw [bit_div, wildWords, List.getElem?_map, wordsWithUse, List.getElem?_mapIdx, hw]
    rfl
  have hwild : (p.allows i false && p.allows i true) = decide (p.trit i = .wild) := by
    rw [Bool.eq_iff_iff, Bool.and_eq_true, decide_eq_true_iff, trit_eq_wild, Bool.forall_bool]
  rw [bits_of_getElem? hget, bit_mod, Word.bit_and, Word.bit_wildLows (Nat.mod_lt i (by decide)),
    bit_usedBits, ← hwild, hpi, hpi]
  rfl

/-- Wildcards are counted by positions. -/
theorem countWild_eq (p : Pattern) :
    p.countWild = (List.range p.width).countP fun i ↦ decide (p.trit i = .wild) := by
  have htally : p.countWild = tally Word.popcount (wildWords p) := by
    rw [countWild, wildWords]
    generalize p.wordsWithUse = l
    induction l with
    | nil => rfl
    | cons a l ih => rw [tally_cons, List.map_cons, tally_cons, ih]
  have hlen := length_wildWords p
  have hcount := p.length_words
  rw [wordCount_eq] at hcount
  have hwidth := width_eq p
  rw [htally, ← tally_toNat]
  refine tally_popcount_of_trits (by omega) (fun i hi ↦ ?_) fun i hi hge b ↦ ?_
  · have h₀ := bits_wildWords (p := p) (i := i) (b := false) (div_lt_length_words hi false)
    have h₁ := bits_wildWords (p := p) (i := i) (b := true) (div_lt_length_words hi true)
    rw [Bool.toNat_false, Nat.add_zero] at h₀
    rw [Bool.toNat_true] at h₁
    simp [h₀, h₁, hi]
  · have hb := b.toNat_le
    rw [bits_wildWords (by omega), decide_eq_false (Nat.not_lt.2 hge), Bool.and_false]

/-- Some trit is wild. -/
theorem hasWild_iff : p.hasWild = true ↔ ∃ i < p.width, p.trit i = .wild := by
  have hany : p.hasWild = true ↔ 0 < p.countWild := by
    rw [hasWild, countWild]
    generalize p.wordsWithUse = l
    induction l with
    | nil => simp
    | cons a l ih =>
      obtain ⟨w, used⟩ := a
      rw [List.any_cons, Bool.or_eq_true, ih, tally_cons, Nat.add_pos_iff_pos_or_pos, bne_iff_ne]
      refine or_congr_left ?_
      show Word.wildLows w &&& used ≠ 0 ↔ 0 < Word.popcount (Word.wildLows w &&& used)
      rw [Word.ne_zero_iff, Word.popcount_eq, List.countP_pos_iff]
      simp
  rw [hany, countWild_eq, List.countP_pos_iff]
  simp

/-- Some trit is in conflict. -/
theorem hasConflict_iff_trit : p.hasConflict = true ↔ ∃ i < p.width, p.trit i = .conflict := by
  rw [hasConflict_iff]
  constructor
  · rintro ⟨i, h₀, h₁⟩
    refine ⟨i, ?_, trit_eq_conflict.2 (Bool.forall_bool.2 ⟨h₀, h₁⟩)⟩
    by_contra hge
    rw [allows_of_ge (Nat.le_of_not_lt hge)] at h₀
    exact absurd h₀ (by decide)
  · rintro ⟨i, -, hi⟩
    exact ⟨i, trit_eq_conflict.1 hi _, trit_eq_conflict.1 hi _⟩

/-- All trits are wild. -/
theorem isAllWild_iff : p.isAllWild = true ↔ ∀ i < p.width, p.trit i = .wild := by
  rw [isAllWild, List.all_eq_true]
  constructor
  · intro h i hi
    refine trit_eq_wild.2 fun b ↦ ?_
    have hlt := div_lt_length_words hi b
    have hw := h _ (List.getElem_mem hlt)
    rw [beq_iff_eq] at hw
    rw [allows_eq_bits, bits_of_getElem? (List.getElem?_eq_getElem hlt), hw, Word.bit_allWild]
    exact decide_eq_true (Nat.mod_lt _ (by decide))
  · intro h w hw
    obtain ⟨j, hj⟩ := List.mem_iff_getElem?.1 hw
    rw [beq_iff_eq]
    refine Word.ext fun m hm ↦ ?_
    obtain ⟨k, hk, b, rfl⟩ := Word.exists_trit_place hm
    rw [Word.bit_allWild, decide_eq_true hm, ← allows_of_word hj hk]
    by_cases hi : Word.tritsPerWord * j + k < p.width
    · exact trit_eq_wild.1 (h _ hi) b
    · exact allows_of_ge (Nat.le_of_not_lt hi) b

/-! ### Union of neighbours -/

/-- At no position does one pattern have a value too many or one too few. -/
theorem differInOpposites_iff (hq : q.bytes = p.bytes) : differInOpposites p q = true ↔
    ∀ i < p.width, (∀ b, p.allows i b = q.allows i b) ∨ ∀ b, p.allows i b = !q.allows i b := by
  refine ⟨fun h i _ ↦ differ_of_differInOpposites hq.symm h i, fun h ↦ ?_⟩
  rw [differInOpposites, List.all_eq_true]
  rintro ⟨v, w⟩ hvw
  obtain ⟨j, hj⟩ := List.mem_iff_getElem?.1 hvw
  obtain ⟨hv, hw⟩ := List.getElem?_zip_eq_some.1 hj
  -- the two bits of a place agree in whether the words differ there
  have key : ∀ k < Word.tritsPerWord, Word.bit (v ^^^ w) (2 * k) =
      Word.bit (v ^^^ w) (2 * k + 1) := by
    intro k hk
    have hvk := fun b ↦ allows_of_word hv hk b
    have hwk := fun b ↦ allows_of_word hw hk b
    have hboth :
        (∀ b, p.allows (Word.tritsPerWord * j + k) b = q.allows (Word.tritsPerWord * j + k) b) ∨
        ∀ b, p.allows (Word.tritsPerWord * j + k) b = !q.allows (Word.tritsPerWord * j + k) b := by
      by_cases hi : Word.tritsPerWord * j + k < p.width
      · exact h _ hi
      · have hge : p.width ≤ Word.tritsPerWord * j + k := Nat.le_of_not_lt hi
        have hge' : q.width ≤ Word.tritsPerWord * j + k := by rwa [width, hq, ← width]
        exact .inl fun b ↦ by rw [allows_of_ge hge, allows_of_ge hge']
    simp only [hvk, hwk, Bool.forall_bool, Bool.toNat_false, Bool.toNat_true, Nat.add_zero] at hboth
    rw [Word.bit_xor, Word.bit_xor]
    rcases hboth with ⟨h₀, h₁⟩ | ⟨h₀, h₁⟩
    · rw [h₀, h₁, Bool.xor_self, Bool.xor_self]
    · rw [h₀, h₁, Bool.not_xor_self, Bool.not_xor_self]
  rw [Bool.and_eq_true, Bool.not_eq_true', Bool.not_eq_true', ← Bool.not_eq_true,
    ← Bool.not_eq_true, Word.hasZero_iff, Word.hasOne_iff]
  constructor
  · rintro ⟨k, hk, h₀, h₁⟩
    exact absurd (h₀.symm.trans ((key k hk).trans h₁)) (by decide)
  · rintro ⟨k, hk, h₀, h₁⟩
    exact absurd (h₀.symm.trans ((key k hk).trans h₁)) (by decide)

/-- Opposite trits are counted by positions. -/
theorem countOpposites_eq (hq : q.bytes = p.bytes) : countOpposites p q =
    (List.range p.width).countP fun i ↦ decide (∀ b, p.allows i b = !q.allows i b) := by
  set differing : List UInt64 :=
    List.zipWith (fun v w ↦ Word.wildHighs (v ^^^ w)) p.words q.words with hdiffering
  have hlen : differing.length = p.words.length := by
    rw [hdiffering, List.length_zipWith, length_words_eq hq, Nat.min_self]
  have hbits : ∀ i, ∀ b : Bool, (2 * i + b.toNat) / 64 < p.words.length →
      bits differing (2 * i + b.toNat) = (b && decide (∀ b, p.allows i b = !q.allows i b)) := by
    intro i b hlt
    rw [bit_div] at hlt
    obtain ⟨v, w, hv, hw, hpi, hqi⟩ := words_of_lt hq.symm hlt
    have hget : differing[(2 * i + b.toNat) / 64]? = some (Word.wildHighs (v ^^^ w)) := by
      rw [hdiffering, List.getElem?_zipWith, bit_div, hv, hw]
    have h₀ := congrArg₂ xor (hpi false) (hqi false)
    have h₁ := congrArg₂ xor (hpi true) (hqi true)
    rw [Bool.toNat_false, Nat.add_zero, ← Word.bit_xor] at h₀
    rw [Bool.toNat_true, ← Word.bit_xor] at h₁
    rw [bits_of_getElem? hget, bit_mod, Word.bit_wildHighs (Nat.mod_lt i (by decide)), ← h₀, ← h₁]
    congr 1
    rw [Bool.eq_iff_iff, decide_eq_true_iff, Bool.forall_bool]
    cases p.allows i false <;> cases p.allows i true <;> cases q.allows i false <;>
      cases q.allows i true <;> decide
  have hcount := p.length_words
  rw [wordCount_eq] at hcount
  have hwidth := width_eq p
  rw [countOpposites, pairs, tally_zip (fun v w ↦ Word.wildHighs (v ^^^ w)), ← hdiffering,
    ← tally_toNat]
  refine tally_popcount_of_trits (by omega) (fun i hi ↦ ?_) fun i hi hge b ↦ ?_
  · have h₀ := hbits i false (div_lt_length_words hi false)
    have h₁ := hbits i true (div_lt_length_words hi true)
    rw [Bool.toNat_false, Nat.add_zero] at h₀
    rw [Bool.toNat_true] at h₁
    rw [h₀, h₁]
    simp
  · have hb := b.toNat_le
    have hge' : q.width ≤ i := by rwa [width, hq, ← width]
    rw [hbits i b (by omega), Bool.and_eq_false_iff, decide_eq_false_iff_not]
    exact .inr fun h ↦ absurd (h b) (by rw [allows_of_ge hge, allows_of_ge hge']; decide)

/-! ### Narrowing and overwriting -/

/-- The excess is counted by positions. -/
theorem excess_eq (hq : q.bytes = p.bytes) : (narrow p q).excess =
    tally (fun i ↦ ((p.trit i).minus (q.trit i)).size) (List.range p.width) := by
  have hlen := length_surplus (p := p) hq.symm
  have hcount := p.length_words
  rw [wordCount_eq] at hcount
  have hwidth := width_eq p
  have hbits : ∀ i, ∀ b : Bool, i < 32 * p.words.length →
      bits (surplus p q) (2 * i + b.toNat) = (p.allows i b && !q.allows i b) := by
    intro i b hi
    have hb := b.toNat_le
    rw [bits_surplus hq.symm (by omega), allows_eq_bits, allows_eq_bits]
  rw [excess_narrow]
  refine tally_popcount_of_trits (by omega) (fun i hi ↦ ?_) fun i hi hge b ↦ ?_
  · have h₀ := hbits i false (by omega)
    have h₁ := hbits i true (by omega)
    rw [Bool.toNat_false, Nat.add_zero] at h₀
    rw [Bool.toNat_true] at h₁
    rw [h₀, h₁, Trit.size, Trit.minus, Trit.mayZero_ofAllowed, Trit.mayOne_ofAllowed]
    rfl
  · have hge' : q.width ≤ i := by rwa [width, hq, ← width]
    rw [hbits i b (by omega), allows_of_ge hge, allows_of_ge hge']
    rfl

/-- A trit of the narrowed pattern: what the other pattern lacks, where it lacks anything. -/
theorem allows_narrow_eq (hq : q.bytes = p.bytes) (hone : (narrow p q).excess = 1) (i : Nat)
    (b : Bool) :
    (narrow p q).pattern.allows i b =
      (if (p.trit i).minus (q.trit i) = .conflict then p.trit i
        else (p.trit i).minus (q.trit i)).allows b := by
  obtain ⟨j, c, hpj, hqj, honly, hnarrow⟩ := allows_narrow hq.symm hone
  rw [hnarrow]
  by_cases hij : i = j
  · subst hij
    have hne : (p.trit i).minus (q.trit i) ≠ .conflict := by
      intro h
      have hc := Trit.allows_minus (p.trit i) (q.trit i) c
      rw [h, show (p.trit i).allows c = true from hpj, show (q.trit i).allows c = false from hqj]
        at hc
      revert hc
      cases c <;> decide
    rw [if_neg hne, Trit.allows_minus]
    by_cases hbc : b = c
    · subst hbc
      rw [show (q.trit i).allows b = false from hqj, Bool.not_false, Bool.and_true]
      cases b <;> simp [allows]
    · obtain rfl := Bool.eq_not_of_ne hbc
      have hother : p.allows i (!c) = true → q.allows i (!c) = true := by
        intro h
        by_contra hno
        exact hbc (honly i _ h (by simpa using hno)).2
      rw [decide_eq_true rfl, Bool.not_true, Bool.and_false, eq_comm, Bool.and_eq_false_iff]
      by_cases h : p.allows i (!c) = true
      · exact .inr (by rw [show (q.trit i).allows (!c) = true from hother h]; rfl)
      · exact .inl (Bool.eq_false_iff.2 h)
  · have hzero : (p.trit i).minus (q.trit i) = .conflict := by
      refine Trit.ext fun b ↦ ?_
      rw [Trit.allows_minus]
      have hnone : (p.allows i b && !q.allows i b) = false := by
        by_contra h
        rw [Bool.not_eq_false, Bool.and_eq_true, Bool.not_eq_true'] at h
        exact hij (honly i b h.1 h.2).1
      exact hnone.trans (by cases b <;> rfl)
    have hb := b.toNat_le
    have hc := (!c).toNat_le
    rw [if_pos hzero, decide_eq_false (by omega), Bool.not_false, Bool.and_true]
    rfl

/-- The wildcards that were lost are counted by positions. -/
theorem lost_eq_countP {mask value : Pattern} (hmask : mask.bytes = p.bytes) :
    (p.replaceMasked mask value).lost = (List.range p.width).countP fun i ↦
      decide (p.trit i = .wild) && (mask.trit i).mayOne := by
  have hlen := length_lossWords (p := p) hmask.symm
  have hcount := p.length_words
  rw [wordCount_eq] at hcount
  have hwidth := width_eq p
  have hwild : ∀ i, (p.allows i false && p.allows i true) = decide (p.trit i = .wild) := by
    intro i
    rw [Bool.eq_iff_iff, Bool.and_eq_true, decide_eq_true_iff, trit_eq_wild, Bool.forall_bool]
  rw [lost_eq, ← tally_toNat]
  refine tally_popcount_of_trits (by omega) (fun i hi ↦ ?_) fun i hi hge b ↦ ?_
  · have h₀ := bits_lossWords (p := p) hmask.symm (i := i) false (div_lt_length_words hi false)
    have h₁ := bits_lossWords (p := p) hmask.symm (i := i) true (div_lt_length_words hi true)
    rw [Bool.toNat_false, Nat.add_zero, hwild] at h₀
    rw [Bool.toNat_true, hwild] at h₁
    rw [h₀, h₁, decide_eq_true hi]
    simp [allows, Trit.allows]
  · have hb := b.toNat_le
    rw [bits_lossWords hmask.symm b (by omega), decide_eq_false (Nat.not_lt.2 hge), Bool.and_false]

/-! ### All operations -/

/-- What the operations do to the trits of `p` and of two operands of the same length. -/
structure Tritwise (p q r : Pattern) : Prop where
  /-- Reading gives the trits one by one. -/
  get : p.Reads p.bytes p.trit
  /-- Writing changes one of them. -/
  set : ∀ i < p.width, ∀ t, ∃ s, p.set i t = .ok s ∧
    s.Reads p.bytes fun j ↦ if j = i then t else p.trit j
  /-- Widening keeps the old trits and fills the new ones. -/
  enlargeWith : ∀ bytes t, (p.enlargeWith bytes t).Reads (max p.bytes bytes) fun i ↦
    if i < p.width then p.trit i else t
  /-- There is no intersection if the trits at some position have nothing in common. -/
  intersect : ∃ o, p.intersect q = .ok o ∧
    (o = none ↔ ∃ i < p.width, (p.trit i).meet (q.trit i) = .conflict) ∧
    ∀ m, o = some m → m.Reads p.bytes fun i ↦ (p.trit i).meet (q.trit i)
  /-- Two patterns merge if neither is empty and their trits are opposite at one position at most
  and equal at all others. -/
  merge : ∃ o, p.merge q = .ok o ∧
    ((∃ m, o = some m) ↔ (∀ i < p.width, p.trit i ≠ .conflict ∧ q.trit i ≠ .conflict ∧
        (p.trit i = q.trit i ∨ (p.trit i).opposite (q.trit i) = true)) ∧
      (List.range p.width).countP (fun i ↦ (p.trit i).opposite (q.trit i)) ≤ 1) ∧
    ∀ m, o = some m → m.Reads p.bytes fun i ↦ (p.trit i).join (q.trit i)
  /-- The excess is the number of values that the other pattern lacks. If it lacks just one, then
  that value is all that is left of the trit. -/
  subtractBit : ∃ o, p.subtractBit q = .ok o ∧
    o.excess = tally (fun i ↦ ((p.trit i).minus (q.trit i)).size) (List.range p.width) ∧
    o.pattern.Reads p.bytes fun i ↦
      if o.excess = 1 ∧ (p.trit i).minus (q.trit i) ≠ .conflict then (p.trit i).minus (q.trit i)
      else p.trit i
  /-- Where the mask may be `0` the trit is kept, where it may be `1` it is that of `r`; the
  wildcards at positions of the second kind are counted. -/
  overwrite : ∃ o, p.overwrite q r = .ok o ∧
    (o.pattern.Reads p.bytes fun i ↦ Trit.select (q.trit i) (p.trit i) (r.trit i)) ∧
    o.lost = (List.range p.width).countP fun i ↦ decide (p.trit i = .wild) && (q.trit i).mayOne
  /-- Conjunction follows its truth table. -/
  and : ∃ c, p.and q = .ok c ∧ c.Reads p.bytes fun i ↦ (p.trit i).and (q.trit i)
  /-- Negation exchanges `0` and `1`. -/
  not : p.not.Reads p.bytes fun i ↦ (p.trit i).flip
  /-- Wildcards are looked for among the trits only. -/
  hasWild : p.hasWild = true ↔ ∃ i < p.width, p.trit i = .wild
  /-- Conflicts are looked for among the trits only. -/
  hasConflict : p.hasConflict = true ↔ ∃ i < p.width, p.trit i = .conflict
  /-- Wildcards are counted among the trits only. -/
  countWild : p.countWild = (List.range p.width).countP fun i ↦ decide (p.trit i = .wild)
  /-- Only the trits have to be wild. -/
  isAllWild : p.isAllWild = true ↔ ∀ i < p.width, p.trit i = .wild

/-- A trit inside can be set. -/
theorem exists_set (hi : i < p.width) (t : Trit) : ∃ s, p.set i t = .ok s ∧
    s.Reads p.bytes fun j ↦ if j = i then t else p.trit j := by
  refine ⟨p.put i t, ?_, reads_of_allows rfl fun j hj b ↦ ?_⟩
  · rw [set, checkIndex, if_pos hi]
    rfl
  · rw [allows_put hi]
    split <;> rfl

/-- Widening keeps the trits and adds new ones. -/
theorem reads_enlargeWith (p : Pattern) (bytes : Nat) (t : Trit) :
    (p.enlargeWith bytes t).Reads (max p.bytes bytes) fun i ↦
      if i < p.width then p.trit i else t := by
  refine reads_of_allows (bytes_enlargeWith ..) fun i hi b ↦ ?_
  rw [width_eq, bytes_enlargeWith] at hi
  have hwidth := width_eq p
  rw [allows_enlargeWith, tritsPerByte]
  by_cases hlt : i < p.width
  · rw [if_neg (by omega), if_pos hlt]
    rfl
  · rw [if_pos (by omega), if_neg hlt]

/-- **An intersection is trit by trit what both allow**, and there is none where they allow nothing
in common. -/
theorem exists_intersect (hq : q.bytes = p.bytes) : ∃ o, p.intersect q = .ok o ∧
    (o = none ↔ ∃ i < p.width, (p.trit i).meet (q.trit i) = .conflict) ∧
    ∀ m, o = some m → m.Reads p.bytes fun i ↦ (p.trit i).meet (q.trit i) := by
  have htrit : ∀ i, (meet p q).trit i = (p.trit i).meet (q.trit i) := fun i ↦ Trit.ext fun b ↦ by
    rw [Trit.allows_meet]
    exact allows_meet hq.symm i b
  refine ⟨meet? p q, intersect_eq hq.symm, ?_, fun m hm ↦ ?_⟩
  · rw [meet?_eq_none_iff, hasConflict_iff_trit]
    simp only [htrit]
    rfl
  · obtain ⟨rfl, -⟩ := meet?_eq_some_iff.1 hm
    exact reads_of_allows rfl fun i _ b ↦ by rw [← htrit]; rfl

/-- Trits without a conflict differ in both values exactly when they are opposite. -/
theorem opposite_iff {t u : Trit} (ht : t ≠ .conflict) (hu : u ≠ .conflict) :
    t.opposite u = true ↔ ∀ b, t.allows b = !u.allows b := by
  rw [Bool.forall_bool]
  revert ht hu
  cases t <;> cases u <;> decide

/-- A join is answered if there is no conflict and one trit is opposite at most. -/
theorem exists_join?_iff (hq : q.bytes = p.bytes) : (∃ m, join? p q = some m) ↔
    (∀ i < p.width, p.trit i ≠ .conflict ∧ q.trit i ≠ .conflict ∧
      (p.trit i = q.trit i ∨ (p.trit i).opposite (q.trit i) = true)) ∧
    (List.range p.width).countP (fun i ↦ (p.trit i).opposite (q.trit i)) ≤ 1 := by
  have hwidth : q.width = p.width := by rw [width, hq, ← width]
  have hsolid : ∀ r : Pattern, r.hasConflict = false ↔
      ∀ i < r.width, r.trit i ≠ .conflict := fun r ↦ by
    rw [← Bool.not_eq_true, hasConflict_iff_trit]
    simp
  -- the count over the words is the count of opposite trits
  have hcount (hp : p.hasConflict = false) (hqc : q.hasConflict = false) : countOpposites p q =
      (List.range p.width).countP fun i ↦ (p.trit i).opposite (q.trit i) := by
    rw [countOpposites_eq hq]
    refine List.countP_congr fun i hi ↦ ?_
    have hi' := List.mem_range.1 hi
    rw [decide_eq_true_iff,
      opposite_iff ((hsolid p).1 hp i hi') ((hsolid q).1 hqc i (hwidth ▸ hi'))]
    rfl
  have heach (hp : p.hasConflict = false) (hqc : q.hasConflict = false) {i : Nat}
      (hi : i < p.width) :
      ((∀ b, p.allows i b = q.allows i b) ∨ ∀ b, p.allows i b = !q.allows i b) ↔
        p.trit i = q.trit i ∨ (p.trit i).opposite (q.trit i) = true := by
    rw [opposite_iff ((hsolid p).1 hp i hi) ((hsolid q).1 hqc i (hwidth ▸ hi))]
    exact or_congr_left ⟨Trit.ext, fun h b ↦ by rw [allows, h, allows]⟩
  constructor
  · rintro ⟨m, hm⟩
    have hpq : p.hasConflict = false ∧ q.hasConflict = false := by
      rw [join?] at hm
      split at hm
      · exact absurd hm (by simp)
      · rename_i hc
        simpa using hc
    obtain ⟨-, -, hd, hle⟩ := join?_eq_some hm
    refine ⟨fun i hi ↦ ⟨(hsolid p).1 hpq.1 i hi, (hsolid q).1 hpq.2 i (hwidth ▸ hi), ?_⟩, ?_⟩
    · exact (heach hpq.1 hpq.2 hi).1 ((differInOpposites_iff hq).1 hd i hi)
    · rwa [← hcount hpq.1 hpq.2]
  · rintro ⟨hall, hle⟩
    have hp := (hsolid p).2 fun i hi ↦ (hall i hi).1
    have hqc := (hsolid q).2 fun i hi ↦ (hall i (hwidth ▸ hi)).2.1
    have hd := (differInOpposites_iff hq).2 fun i hi ↦ (heach hp hqc hi).2 (hall i hi).2.2
    have hjoin : (join p q).hasConflict = false := hasConflict_eq_false_iff.2 fun i ↦ by
      rw [allows_join hq.symm, allows_join hq.symm, Bool.or_eq_true, Bool.or_eq_true]
      rcases hasConflict_eq_false_iff.1 hp i with h | h
      · exact .inl (.inl h)
      · exact .inr (.inl h)
    rw [← hcount hp hqc] at hle
    refine ⟨join p q, ?_⟩
    simp [join?, hp, hqc, hd, hjoin, hle]

/-- **A merge is trit by trit what either allows.** -/
theorem exists_merge (hq : q.bytes = p.bytes) : ∃ o, p.merge q = .ok o ∧
    ((∃ m, o = some m) ↔ (∀ i < p.width, p.trit i ≠ .conflict ∧ q.trit i ≠ .conflict ∧
        (p.trit i = q.trit i ∨ (p.trit i).opposite (q.trit i) = true)) ∧
      (List.range p.width).countP (fun i ↦ (p.trit i).opposite (q.trit i)) ≤ 1) ∧
    ∀ m, o = some m → m.Reads p.bytes fun i ↦ (p.trit i).join (q.trit i) := by
  refine ⟨join? p q, merge_eq hq.symm, exists_join?_iff hq, fun m hm ↦ ?_⟩
  obtain ⟨rfl, -⟩ := join?_eq_some hm
  exact reads_of_allows rfl fun i _ b ↦ by
    rw [allows_join hq.symm, Trit.allows_join]
    rfl

/-- **Subtracting a bit changes one trit**, the one with the only value in excess. -/
theorem exists_subtractBit (hq : q.bytes = p.bytes) : ∃ o, p.subtractBit q = .ok o ∧
    o.excess = tally (fun i ↦ ((p.trit i).minus (q.trit i)).size) (List.range p.width) ∧
    o.pattern.Reads p.bytes fun i ↦
      if o.excess = 1 ∧ (p.trit i).minus (q.trit i) ≠ .conflict then (p.trit i).minus (q.trit i)
      else p.trit i := by
  refine ⟨narrow p q, subtractBit_eq hq.symm, excess_eq hq, ?_⟩
  by_cases hone : (narrow p q).excess = 1
  · refine reads_of_allows (bytes_narrow p q) fun i _ b ↦ ?_
    rw [allows_narrow_eq hq hone]
    simp only [hone, true_and, ite_not]
  · rw [narrow_of_excess_ne_one hone]
    refine reads_of_allows rfl fun i _ b ↦ ?_
    rw [if_neg fun h ↦ hone h.1]
    rfl

/-- **Overwriting selects trits by the mask**, and counts the wildcards that it selects from. -/
theorem exists_overwrite (hq : q.bytes = p.bytes) (hr : r.bytes = p.bytes) :
    ∃ o, p.overwrite q r = .ok o ∧
      (o.pattern.Reads p.bytes fun i ↦ Trit.select (q.trit i) (p.trit i) (r.trit i)) ∧
      o.lost = (List.range p.width).countP fun i ↦
        decide (p.trit i = .wild) && (q.trit i).mayOne := by
  refine ⟨p.replaceMasked q r, ?_, reads_of_allows rfl fun i hi b ↦ ?_, lost_eq_countP hq⟩
  · rw [overwrite, checkWidth_eq hq.symm, checkWidth_eq hr.symm]
    rfl
  · rw [allows_replaceMasked hq.symm hr.symm hi, Trit.allows_select]
    rfl

/-- A conjunction is taken trit by trit. -/
theorem exists_and (hq : q.bytes = p.bytes) : ∃ c, p.and q = .ok c ∧
    c.Reads p.bytes fun i ↦ (p.trit i).and (q.trit i) := by
  refine ⟨zipWords Word.and p q, and_eq hq.symm, reads_of_allows rfl fun i hi b ↦ ?_⟩
  have hi' : i < (zipWords Word.and p q).width := hi
  obtain ⟨v, w, hv, hw, hpi, hqi⟩ :=
    words_of_lt hq.symm (bit_div i b ▸ div_lt_length_words (p := p) hi' b)
  have hget : (List.zipWith Word.and p.words q.words)[(2 * i + b.toNat) / 64]? =
      some (Word.and v w) := by
    rw [bit_div, List.getElem?_zipWith, hv, hw]
  have hlt : ¬ p.bytes * tritsPerByte ≤ i := Nat.not_le.2 hi'
  rw [zipWords, allows_ofWords, bits_of_getElem? hget, bit_mod,
    Word.bit_conjunction (Nat.mod_lt i (by decide)), decide_eq_false hlt, Bool.or_false,
    Trit.allows_and]
  have hp₀ := hpi false
  have hp₁ := hpi true
  have hq₀ := hqi false
  have hq₁ := hqi true
  simp only [Bool.toNat_false, Bool.toNat_true, Nat.add_zero] at hp₀ hp₁ hq₀ hq₁
  rw [← hp₀, ← hp₁, ← hq₀, ← hq₁]
  rfl

/-- A negation flips each trit. -/
theorem reads_not (p : Pattern) : p.not.Reads p.bytes fun i ↦ (p.trit i).flip := by
  refine reads_of_allows rfl fun i hi b ↦ ?_
  have hi' : i < p.width := hi
  obtain ⟨w, -, hw, -, hpi, -⟩ :=
    words_of_lt (rfl : p.bytes = p.bytes) (bit_div i b ▸ div_lt_length_words hi' b)
  have hget : (p.words.map Word.not)[(2 * i + b.toNat) / 64]? = some (Word.not w) := by
    rw [bit_div, List.getElem?_map, hw]
    rfl
  have hlt : ¬ p.bytes * tritsPerByte ≤ i := Nat.not_le.2 hi'
  rw [not, allows_ofWords, bits_of_getElem? hget, bit_mod,
    Word.bit_negation (Nat.mod_lt i (by decide)), decide_eq_false hlt, Bool.or_false, ← hpi,
    Trit.allows_flip_not]
  rfl

/-- All operations at once. -/
theorem tritwise (hq : q.bytes = p.bytes) (hr : r.bytes = p.bytes) : Tritwise p q r where
  get := reads_of_allows rfl fun _ _ _ ↦ rfl
  set _ hi t := exists_set hi t
  enlargeWith := reads_enlargeWith p
  intersect := exists_intersect hq
  merge := exists_merge hq
  subtractBit := exists_subtractBit hq
  overwrite := exists_overwrite hq hr
  and := exists_and hq
  not := reads_not p
  hasWild := hasWild_iff
  hasConflict := hasConflict_iff_trit
  countWild := countWild_eq p
  isAllWild := isAllWild_iff

/-- **Packed words implement sequences of trits.** A list of words that the operations build has the
length that the trits need and is wild after the last of them, the lists so built are the words of
the patterns, and on operands of one length each operation does to the words what its formula says,
and to the trits what their own operations say. -/
theorem words_implement_trits :
    (∀ bytes ws, Built bytes ws → Packed bytes ws) ∧
    (∀ bytes ws, Built bytes ws ↔ ∃ p : Pattern, p.bytes = bytes ∧ p.words = ws) ∧
    ∀ p q r : Pattern, q.bytes = p.bytes → r.bytes = p.bytes → Wordwise p q r ∧ Tritwise p q r :=
  ⟨fun _ _ ↦ packed_of_built, fun _ _ ↦ built_iff,
    fun _ _ _ hq hr ↦ ⟨wordwise hq hr, tritwise hq hr⟩⟩

/-- Three patterns of five bytes, whose second word is used in part. -/
theorem words_implement_trits_five_bytes :
    Packed 5 (mend 5 (List.replicate (wordCount 5) (Word.fill .one))) ∧
    (∃ p : Pattern, p.bytes = 5 ∧ p.words =
      mend 5 (List.replicate (wordCount 5) (Word.fill .one))) ∧
    Wordwise (fill 5 .wild) ((fill 5 .zero).put 33 .wild) ((fill 5 .one).put 39 .conflict) ∧
    Tritwise (fill 5 .wild) ((fill 5 .zero).put 33 .wild) ((fill 5 .one).put 39 .conflict) :=
  ⟨words_implement_trits.1 _ _ (.fill 5 .one), (words_implement_trits.2.1 _ _).1 (.fill 5 .one),
    words_implement_trits.2.2 _ _ _ rfl rfl⟩

end Pattern

end HeaderFlow
