import HeaderFlow.Word
import Mathlib.Data.List.Basic

/-!
# Words, bit by bit

Every operation on words is a formula in masks and shifts. This module reads each of them one bit at
a time: `Word.bit w n` is the bit at place `n`, and the trit at place `k` is the pair of bits
`2 * k`, `2 * k + 1` (`allows_trit`). After that nobody needs the formulas: a test of a whole word
becomes **a quantifier over its 32 trits**, and a population count the number of bits set.
-/

namespace HeaderFlow.Word

/-- The bit at place `n`; past the last place there is none. -/
def bit (w : UInt64) (n : Nat) : Bool := w.toBitVec.getLsbD n

theorem bit_of_ge {w : UInt64} {n : Nat} (h : 64 ≤ n) : bit w n = false :=
  BitVec.getLsbD_of_ge _ _ h

/-- **A word is determined by its bits.** -/
theorem ext {v w : UInt64} (h : ∀ n < 64, bit v n = bit w n) : v = w :=
  UInt64.toBitVec_inj.1 (BitVec.eq_of_getLsbD_eq h)

/-! ### Bitwise operations

One lemma for each operator and each mask. They are tagged for simplification, so that a formula in
masks and shifts by one is unfolded to a statement about single bits. -/

@[simp] theorem bit_and (v w : UInt64) (n : Nat) : bit (v &&& w) n = (bit v n && bit w n) := by
  simp [bit]

@[simp] theorem bit_or (v w : UInt64) (n : Nat) : bit (v ||| w) n = (bit v n || bit w n) := by
  simp [bit]

@[simp] theorem bit_xor (v w : UInt64) (n : Nat) : bit (v ^^^ w) n = (bit v n ^^ bit w n) := by
  simp [bit]

@[simp] theorem bit_not (w : UInt64) (n : Nat) :
    bit (~~~w) n = (decide (n < 64) && !bit w n) := by
  simp [bit]

@[simp] theorem bit_zero (n : Nat) : bit 0 n = false := by
  simp [bit]

@[simp] theorem bit_shiftRight_one (w : UInt64) (n : Nat) : bit (w >>> 1) n = bit w (n + 1) := by
  simp [bit, Nat.add_comm]

theorem bit_shiftLeft_one {w : UInt64} {n : Nat} (h : n + 1 < 64) :
    bit (w <<< 1) (n + 1) = bit w n := by
  simp [bit, h, BitVec.getLsbD_eq_getElem (show n < 64 by omega)]

theorem bit_shiftLeft_one_zero (w : UInt64) : bit (w <<< 1) 0 = false := by
  simp [bit]

/-- The mask of the lower bits. -/
theorem bit_lows (n : Nat) : bit lows n = (decide (n < 64) && decide (n % 2 = 0)) := by
  by_cases h : n < 64
  · have key : ∀ i : Fin 64, bit lows i = (decide (i.val < 64) && decide (i.val % 2 = 0)) := by
      decide
    exact key ⟨n, h⟩
  · simp [bit_of_ge (Nat.le_of_not_lt h), h]

/-- The mask of the upper bits. -/
theorem bit_highs (n : Nat) : bit highs n = (decide (n < 64) && decide (n % 2 = 1)) := by
  by_cases h : n < 64
  · have key : ∀ i : Fin 64, bit highs i = (decide (i.val < 64) && decide (i.val % 2 = 1)) := by
      decide
    exact key ⟨n, h⟩
  · simp [bit_of_ge (Nat.le_of_not_lt h), h]

/-- All bits are set. -/
theorem bit_allWild (n : Nat) : bit allWild n = decide (n < 64) := by
  by_cases h : n < 64
  · have key : ∀ i : Fin 64, bit allWild i = decide (i.val < 64) := by decide
    exact key ⟨n, h⟩
  · simp [bit_of_ge (Nat.le_of_not_lt h), h]

/-- A word is not zero exactly when some bit is set. -/
theorem ne_zero_iff {w : UInt64} : w ≠ 0 ↔ ∃ n < 64, bit w n = true := by
  constructor
  · intro hw
    by_contra hno
    refine hw (ext fun n hn ↦ ?_)
    rw [bit_zero]
    by_contra hbit
    exact hno ⟨n, hn, by simpa using hbit⟩
  · rintro ⟨n, -, hn⟩ rfl
    simp at hn

/-! ### Shifts by more than one place

A shift is by the number of places modulo 64. The number of a place is less than that, which the
library has to be told. -/

theorem toNat_toBitVec_toUInt64 {m : Nat} (h : m < 64) : m.toUInt64.toBitVec.toNat % 64 = m := by
  have hsize : m < UInt64.size := by
    rw [UInt64.size]
    omega
  rw [UInt64.toNat_toBitVec, Nat.toUInt64_eq, UInt64.toNat_ofNat_of_lt' hsize, Nat.mod_eq_of_lt h]

/-- Shifting to the right. -/
theorem bit_shiftRight {w : UInt64} {m : Nat} (h : m < 64) (n : Nat) :
    bit (w >>> m.toUInt64) n = bit w (m + n) := by
  rw [bit, UInt64.toBitVec_shiftRight, BitVec.ushiftRight_eq', BitVec.getLsbD_ushiftRight,
    BitVec.toNat_umod]
  rw [show (64 : BitVec 64).toNat = 64 from rfl, toNat_toBitVec_toUInt64 h]
  rfl

/-- Shifting to the left. -/
theorem bit_shiftLeft {w : UInt64} {m : Nat} (h : m < 64) (n : Nat) :
    bit (w <<< m.toUInt64) n = (decide (n < 64) && !decide (n < m) && bit w (n - m)) := by
  rw [bit, UInt64.toBitVec_shiftLeft, BitVec.shiftLeft_eq', BitVec.getLsbD_shiftLeft,
    BitVec.toNat_umod]
  rw [show (64 : BitVec 64).toNat = 64 from rfl, toNat_toBitVec_toUInt64 h]
  rfl

/-! ### The trit at a place -/

/-- Testing a word against a word with a single bit asks for that bit. -/
theorem and_single_ne_zero {c : UInt64} {j : Nat} (hj : j < 64)
    (hc : ∀ n < 64, bit c n = decide (n = j)) (w : UInt64) : (w &&& c != 0) = bit w j := by
  have key : w &&& c ≠ 0 ↔ bit w j = true := by
    rw [ne_zero_iff]
    constructor
    · rintro ⟨n, hn, hb⟩
      rw [bit_and, hc n hn, Bool.and_eq_true, decide_eq_true_iff] at hb
      exact hb.2 ▸ hb.1
    · intro hb
      exact ⟨j, hj, by simp [hb, hc j hj]⟩
  rw [Bool.eq_iff_iff, bne_iff_ne]
  exact key

/-- **The trit at a place is the pair of its bits.** -/
theorem allows_trit {w : UInt64} {k : Nat} (hk : k < tritsPerWord) (b : Bool) :
    (trit w k).allows b = bit w (2 * k + b.toNat) := by
  have hm : 2 * k < 64 := by
    rw [tritsPerWord] at hk
    omega
  have hone : ∀ n < 64, bit 1 n = decide (n = 0) := by decide
  have htwo : ∀ n < 64, bit 2 n = decide (n = 1) := by decide
  rw [trit, Trit.ofBits, and_single_ne_zero (by omega) hone, and_single_ne_zero (by omega) htwo,
    bit_shiftRight hm, bit_shiftRight hm]
  cases b <;> simp [Trit.allows]

/-- Every place of a word belongs to a trit. -/
theorem exists_trit_place {n : Nat} (h : n < 64) :
    ∃ k < tritsPerWord, ∃ b : Bool, n = 2 * k + b.toNat := by
  refine ⟨n / 2, by rw [tritsPerWord]; omega, decide (n % 2 = 1), ?_⟩
  by_cases hodd : n % 2 = 1
  · simp [hodd]
    omega
  · simp [hodd]
    omega

/-! ### Tests of whole words

A test ands, shifts and compares with zero. By `ne_zero_iff` it asks for a bit, by
`exists_trit_place` for a trit and one of its bits, and the masks say which of the two. -/

section Place

variable {k : Nat} (hk : k < tritsPerWord)
include hk

/-- The lower bits of wildcards. -/
theorem bit_wildLows (w : UInt64) (b : Bool) :
    bit (wildLows w) (2 * k + b.toNat) = (!b && (bit w (2 * k) && bit w (2 * k + 1))) := by
  rw [tritsPerWord] at hk
  cases b with
  | false =>
    simp [wildLows, bit_lows]
    omega
  | true => simp [wildLows, bit_lows]

/-- The upper bits of wildcards. -/
theorem bit_wildHighs (w : UInt64) (b : Bool) :
    bit (wildHighs w) (2 * k + b.toNat) = (b && (bit w (2 * k) && bit w (2 * k + 1))) := by
  rw [tritsPerWord] at hk
  cases b with
  | false => simp [wildHighs, bit_highs]
  | true =>
    rw [wildHighs, bit_and, bit_and, bit_highs, Bool.toNat_true, bit_shiftLeft_one (by omega),
      Bool.and_comm (bit w (2 * k + 1))]
    simp
    omega

/-- Both bits of wildcards. -/
theorem bit_wildBits (w : UInt64) (b : Bool) :
    bit (wildBits w) (2 * k + b.toNat) = (bit w (2 * k) && bit w (2 * k + 1)) := by
  rw [wildBits, bit_or, bit_wildHighs hk, bit_wildLows hk]
  cases b <;> simp

/-- **Choice reads trit by trit**: the value of `w` where the mask may be `0`, and that of `v` where
it may be `1`. -/
theorem bit_select (mask w v : UInt64) (b : Bool) :
    bit (select mask w v) (2 * k + b.toNat) =
      (bit w (2 * k + b.toNat) && bit mask (2 * k) ||
        bit v (2 * k + b.toNat) && bit mask (2 * k + 1)) := by
  rw [tritsPerWord] at hk
  have hlt : 2 * k < 64 := by omega
  have hlt' : 2 * k + 1 < 64 := by omega
  cases b with
  | false => simp [select, bit_lows, bit_highs, hlt]
  | true => simp [select, bit_lows, bit_highs, hlt', bit_shiftLeft_one hlt']

/-- Conjunction of trits joins the lower bits and meets the upper ones. -/
theorem bit_conjunction (v w : UInt64) (b : Bool) :
    bit (Word.and v w) (2 * k + b.toNat) =
      if b then bit v (2 * k + 1) && bit w (2 * k + 1) else bit v (2 * k) || bit w (2 * k) := by
  rw [tritsPerWord] at hk
  have hlt : 2 * k < 64 := by omega
  have hlt' : 2 * k + 1 < 64 := by omega
  cases b <;> simp [Word.and, bit_lows, bit_highs, hlt, hlt']

/-- Negation of trits exchanges the two bits. -/
theorem bit_negation (w : UInt64) (b : Bool) :
    bit (Word.not w) (2 * k + b.toNat) = bit w (2 * k + (!b).toNat) := by
  rw [tritsPerWord] at hk
  have hlt : 2 * k < 64 := by omega
  have hlt' : 2 * k + 1 < 64 := by omega
  cases b <;> simp [Word.not, bit_lows, bit_highs, hlt, hlt', bit_shiftLeft_one hlt']

end Place

/-- Some trit of the word is in conflict. -/
theorem hasConflict_iff {w : UInt64} :
    hasConflict w = true ↔
      ∃ k < tritsPerWord, bit w (2 * k) = false ∧ bit w (2 * k + 1) = false := by
  rw [hasConflict, bne_iff_ne, ne_zero_iff]
  constructor
  · rintro ⟨n, hn, hb⟩
    obtain ⟨k, hk, b, rfl⟩ := exists_trit_place hn
    rw [bit_wildLows hk] at hb
    simp only [bit_not, Bool.and_eq_true, Bool.not_eq_true'] at hb
    exact ⟨k, hk, hb.2.1.2, hb.2.2.2⟩
  · rintro ⟨k, hk, h₀, h₁⟩
    have hlt : 2 * k + 1 < 64 := by
      rw [tritsPerWord] at hk
      omega
    have hlt' : 2 * k < 64 := by omega
    refine ⟨2 * k + false.toNat, hlt', ?_⟩
    rw [bit_wildLows hk]
    simp [h₀, h₁, hlt, hlt']

/-- Some trit of the word is `0`. -/
theorem hasZero_iff {w : UInt64} :
    hasZero w = true ↔
      ∃ k < tritsPerWord, bit w (2 * k) = true ∧ bit w (2 * k + 1) = false := by
  rw [hasZero, bne_iff_ne, ne_zero_iff]
  constructor
  · rintro ⟨n, hn, hb⟩
    obtain ⟨k, hk, b, rfl⟩ := exists_trit_place hn
    cases b with
    | false =>
      simp only [bit_and, bit_not, bit_lows, bit_shiftRight_one, Bool.toNat_false, Nat.add_zero,
        Nat.mul_mod_right, decide_true, Bool.and_true, Bool.and_eq_true, decide_eq_true_iff,
        Bool.not_eq_true'] at hb
      exact ⟨k, hk, hb.1.1, by simpa [hb.1.2] using hb.2.2⟩
    | true => simp [bit_lows] at hb
  · rintro ⟨k, hk, h₀, h₁⟩
    rw [tritsPerWord] at hk
    refine ⟨2 * k, by omega, ?_⟩
    simp [bit_lows, h₀, h₁]
    omega

/-- Some trit of the word is `1`. -/
theorem hasOne_iff {w : UInt64} :
    hasOne w = true ↔
      ∃ k < tritsPerWord, bit w (2 * k) = false ∧ bit w (2 * k + 1) = true := by
  rw [hasOne, hasZero_iff]
  refine exists_congr fun k ↦ and_congr_right fun hk ↦ ?_
  have hlt : 2 * k + 1 < 64 := by
    rw [tritsPerWord] at hk
    omega
  have hlt' : 2 * k < 64 := by omega
  simp [hlt, hlt']

/-- Inclusion of words: at every place the trits agree or the second is wild. -/
theorem within_iff {v w : UInt64} :
    within v w = true ↔ ∀ k < tritsPerWord,
      (∀ b : Bool, bit v (2 * k + b.toNat) = bit w (2 * k + b.toNat)) ∨
        ∀ b : Bool, bit w (2 * k + b.toNat) = true := by
  have hzero : within v w = true ↔ ¬ (v ^^^ w) &&& ~~~(wildBits w) ≠ 0 := by
    rw [within, beq_iff_eq, not_not]
  rw [hzero, ne_zero_iff]
  constructor
  · intro hno k hk
    by_cases hw : bit w (2 * k) = true ∧ bit w (2 * k + 1) = true
    · exact .inr fun b ↦ by cases b <;> simp [hw.1, hw.2]
    · refine .inl fun b ↦ ?_
      by_contra hne
      have hlt : 2 * k + b.toNat < 64 := by
        rw [tritsPerWord] at hk
        have := b.toNat_le
        omega
      refine hno ⟨2 * k + b.toNat, hlt, ?_⟩
      have hnw : (bit w (2 * k) && bit w (2 * k + 1)) = false := by
        rw [← Bool.not_eq_true, Bool.and_eq_true]
        exact hw
      rw [bit_and, bit_xor, bit_not, bit_wildBits hk, hnw, decide_eq_true hlt]
      simpa using hne
  · rintro h ⟨n, hn, hb⟩
    obtain ⟨k, hk, b, rfl⟩ := exists_trit_place hn
    rw [bit_and, bit_xor, bit_not, bit_wildBits hk] at hb
    rcases h k hk with heq | hwild
    · simp [heq b] at hb
    · have h₀ := hwild false
      have h₁ := hwild true
      simp_all

/-! ### Writing a trit, and the first places -/

/-- The bits of a trit. -/
theorem bit_bits (t : Trit) (n : Nat) :
    bit t.bits n = (decide (n = 0) && t.mayZero || decide (n = 1) && t.mayOne) := by
  by_cases h : n < 64
  · have key : ∀ i : Fin 64, bit t.bits i =
        (decide (i.val = 0) && t.mayZero || decide (i.val = 1) && t.mayOne) := by
      cases t <;> decide
    exact key ⟨n, h⟩
  · rw [bit_of_ge (Nat.le_of_not_lt h), decide_eq_false (by omega), decide_eq_false (by omega)]
    rfl

/-- **Writing a trit changes its own two bits and no others.** -/
theorem bit_put {w : UInt64} {k j : Nat} (hk : k < tritsPerWord) (hj : j < tritsPerWord) (t : Trit)
    (b : Bool) :
    bit (put w k t) (2 * j + b.toNat) =
      if j = k then t.allows b else bit w (2 * j + b.toNat) := by
  rw [tritsPerWord] at hk hj
  have hm : 2 * k < 64 := by omega
  have hn : 2 * j + b.toNat < 64 := by
    have := b.toNat_le
    omega
  have hthree : ∀ n, bit 3 n = decide (n < 2) := by
    intro n
    by_cases h : n < 64
    · have key : ∀ i : Fin 64, bit 3 i = decide (i.val < 2) := by decide
      exact key ⟨n, h⟩
    · rw [bit_of_ge (Nat.le_of_not_lt h), decide_eq_false (by omega)]
  rw [put, bit_or, bit_and, bit_not, bit_shiftLeft hm, bit_shiftLeft hm, bit_bits, hthree]
  split
  · rename_i h
    subst h
    cases b with
    | false => simp [Trit.allows, hm]
    | true =>
      rw [Bool.toNat_true] at hn
      have hge : ¬ 2 * j + 1 < 2 * j := by omega
      simp [Trit.allows, hn, hge]
  · rename_i h
    rcases Nat.lt_or_gt_of_ne h with hlt | hgt
    · have : 2 * j + b.toNat < 2 * k := by
        have := b.toNat_le
        omega
      simp [hn, this]
    · have hge : ¬ 2 * j + b.toNat < 2 * k := by omega
      have hfar : ¬ 2 * j + b.toNat - 2 * k < 2 := by omega
      have h₀ : ¬ 2 * j + b.toNat - 2 * k = 0 := by omega
      have h₁ : ¬ 2 * j + b.toNat - 2 * k = 1 := by omega
      simp only [hn, hge, hfar, h₀, h₁]
      simp

/-- The mask of the first places. -/
theorem bit_firstPlaces (n m : Nat) : bit (firstPlaces n) m = decide (m < 64 ∧ m < 2 * n) := by
  rw [firstPlaces]
  split
  · rename_i h
    rw [tritsPerWord] at h
    rw [bit_allWild]
    exact decide_eq_decide.2 (by omega)
  · rename_i h
    rw [tritsPerWord] at h
    have hlt : 2 * n < 64 := by omega
    by_cases hm : m < 64
    · have key : (1 <<< (2 * n).toUInt64 - 1 : UInt64).toBitVec.toNat = 2 ^ (2 * n) - 1 := by
        have hpow : 2 ^ (2 * n) < 2 ^ 64 := Nat.pow_lt_pow_right (by omega) hlt
        have hpos : 0 < 2 ^ (2 * n) := Nat.two_pow_pos _
        have hsize : 2 * n < UInt64.size := by
          rw [UInt64.size]
          omega
        have hshift : (1 <<< (2 * n).toUInt64 : UInt64).toNat = 2 ^ (2 * n) := by
          rw [UInt64.toNat_shiftLeft, Nat.toUInt64_eq, UInt64.toNat_ofNat_of_lt' hsize,
            Nat.mod_eq_of_lt hlt, UInt64.toNat_one, Nat.one_shiftLeft, Nat.mod_eq_of_lt hpow]
        rw [UInt64.toNat_toBitVec, UInt64.toNat_sub_of_le, hshift, UInt64.toNat_one]
        rw [UInt64.le_iff_toNat_le, hshift, UInt64.toNat_one]
        exact hpos
      rw [bit, BitVec.getLsbD, key, Nat.testBit_two_pow_sub_one]
      exact decide_eq_decide.2 (by omega)
    · rw [bit_of_ge (Nat.le_of_not_lt hm), decide_eq_false (by omega)]

/-! ### Counting bits

The count is a loop over the word, shifted by one place each time. The invariant is that what was
counted are the lowest places. -/

theorem toNat_and_one (w : UInt64) : (w &&& 1).toNat = (bit w 0).toNat := by
  rw [UInt64.toNat_and, UInt64.toNat_one, Nat.and_one_is_mod, bit, BitVec.getLsbD,
    UInt64.toNat_toBitVec, Nat.testBit_zero]
  rcases Nat.mod_two_eq_zero_or_one w.toNat with h | h <;> simp [h]

/-- Counting looks at the lowest places one by one. -/
theorem countBits_eq (n : Nat) (w : UInt64) : countBits n w = (List.range n).countP (bit w) := by
  induction n generalizing w with
  | zero => rfl
  | succ n ih =>
    rw [countBits, ih, List.range_succ_eq_map, List.countP_cons, List.countP_map, toNat_and_one,
      Nat.add_comm]
    have hshift : bit (w >>> 1) = bit w ∘ Nat.succ := by
      funext i
      exact bit_shiftRight_one w i
    rw [hshift]
    cases bit w 0 <;> simp

/-- **The population count is the number of bits set.** -/
theorem popcount_eq (w : UInt64) : popcount w = (List.range 64).countP (bit w) :=
  countBits_eq 64 w

end HeaderFlow.Word
