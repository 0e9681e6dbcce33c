import HeaderFlow.Proofs.Pattern.Reduction

/-!
# Overwriting a pattern

Under a concrete mask, overwriting replaces some trits and keeps the others, and a header that
matches turns into headers that match the new pattern (`matches_replaceMasked`).

The number of wildcards that were lost is what overwriting a region compares a hole with its frame
by. **A hole that lost as many as the frame around it agrees with the frame wherever something was
overwritten**, so no header that was outside the hole is inside afterwards
(`matches_of_replaceMasked`). A hole that lost fewer is given up, which can only add headers.

Why the counts say this: a hole lies inside its frame, so where the frame has no wildcard the hole
has none either. It loses a wildcard only where the frame loses one, and if it loses as many, it
loses one wherever the frame does (`wild_of_lost_eq`). Where neither had a wildcard to lose, both
had the same trit. So at all positions that are overwritten, hole and frame allowed the same, and a
header comes out of both or of neither.

The count itself is a population count of words that are put together with masks and shifts.
`bits_lossWords` says which bits are set in them, and `imp_of_countP_eq` is the step from equal
counts to equal positions.
-/

namespace HeaderFlow.Pattern

variable {p q mask value : Pattern} {x y : Nat → Bool}

/-- Every trit of the mask is `0` or `1`. -/
def Concrete (mask : Pattern) : Prop := ∀ i < mask.width, (mask.trit i).isConcrete = true

/-- The header `y` arises from `x` by putting, wherever the mask is `1`, a bit that the value
allows.
-/
def Turns (mask value : Pattern) (x y : Nat → Bool) : Prop :=
  ∀ i, if i < mask.width ∧ mask.trit i = .one then value.allows i (y i) = true else y i = x i

/-! ### The new pattern -/

theorem bytes_replaceMasked : (p.replaceMasked mask value).pattern.bytes = p.bytes := rfl

/-- What can be overwritten has the length of mask and value. -/
theorem of_overwrite_eq_ok {o : Overwritten} (ho : p.overwrite mask value = .ok o) :
    p.bytes = mask.bytes ∧ p.bytes = value.bytes ∧ o = p.replaceMasked mask value := by
  simp only [overwrite, checkWidth] at ho
  split at ho
  · split at ho
    · exact ⟨‹_›, ‹_›, (Except.ok.inj ho).symm⟩
    · exact absurd ho (by simp [bind, Except.bind])
  · exact absurd ho (by simp [bind, Except.bind])

/-- The words that two patterns of one length have at a position. -/
theorem words_of_lt (hmask : p.bytes = mask.bytes) {i : Nat}
    (hlt : i / Word.tritsPerWord < p.words.length) :
    ∃ w m, p.words[i / Word.tritsPerWord]? = some w ∧ mask.words[i / Word.tritsPerWord]? = some m ∧
      (∀ b : Bool, p.allows i b = Word.bit w (2 * (i % Word.tritsPerWord) + b.toNat)) ∧
      ∀ b : Bool, mask.allows i b = Word.bit m (2 * (i % Word.tritsPerWord) + b.toNat) := by
  have hplace : i % Word.tritsPerWord < Word.tritsPerWord := Nat.mod_lt i (by decide)
  have hpos : Word.tritsPerWord * (i / Word.tritsPerWord) + i % Word.tritsPerWord = i :=
    Nat.div_add_mod i _
  have hw := List.getElem?_eq_getElem hlt
  have hm := List.getElem?_eq_getElem (length_words_eq hmask ▸ hlt)
  refine ⟨_, _, hw, hm, fun b ↦ ?_, fun b ↦ ?_⟩
  · rw [← allows_of_word hw hplace, hpos]
  · rw [← allows_of_word hm hplace, hpos]

/-- The word in which a trit has its bits. -/
theorem bit_div (i : Nat) (b : Bool) : (2 * i + b.toNat) / 64 = i / Word.tritsPerWord := by
  have hb := b.toNat_le
  rw [Word.tritsPerWord]
  omega

/-- The place of a bit in its word. -/
theorem bit_mod (i : Nat) (b : Bool) :
    (2 * i + b.toNat) % 64 = 2 * (i % Word.tritsPerWord) + b.toNat := by
  have hb := b.toNat_le
  rw [Word.tritsPerWord]
  omega

/-- **The new pattern allows what the old one does where the mask may be `0`, and what the value
does where the mask may be `1`.** -/
theorem allows_replaceMasked (hmask : p.bytes = mask.bytes) (hvalue : p.bytes = value.bytes)
    {i : Nat} (hi : i < p.width) (b : Bool) :
    (p.replaceMasked mask value).pattern.allows i b =
      (p.allows i b && mask.allows i false || value.allows i b && mask.allows i true) := by
  have hplace := bit_div i b ▸ div_lt_length_words hi b
  obtain ⟨w, m, hw, hm, hpi, hmi⟩ := words_of_lt hmask hplace
  obtain ⟨-, v, -, hv, -, hvi⟩ := words_of_lt hvalue hplace
  have hget : ∀ k : _ → _ → UInt64, (List.zipWith k (p.words.zip mask.words)
      value.words)[(2 * i + b.toNat) / 64]? = some (k (w, m) v) := by
    intro k
    rw [bit_div, List.getElem?_zipWith, List.getElem?_zip_eq_some (z := (w, m)) |>.2 ⟨hw, hm⟩, hv]
  have hlt : ¬ p.bytes * tritsPerByte ≤ i := Nat.not_le.2 hi
  rw [replaceMasked, allows_ofWords, bits_of_getElem? (hget _), bit_mod,
    Word.bit_select (Nat.mod_lt i (by decide)), hpi, hvi, hmi, hmi, decide_eq_false hlt,
    Bool.or_false]
  rfl

/-- A concrete mask says at each position whether it is overwritten. -/
theorem allows_of_concrete (hmask : mask.Concrete) {i : Nat} (hi : i < mask.width) :
    mask.trit i = .one ∧ mask.allows i true = true ∧ mask.allows i false = false ∨
      mask.trit i ≠ .one ∧ mask.allows i true = false ∧ mask.allows i false = true := by
  have hc := hmask i hi
  simp only [allows]
  cases ht : mask.trit i <;> simp_all [Trit.isConcrete, Trit.allows, Trit.mayOne, Trit.mayZero]

/-- **What a matching header turns into matches the new pattern.** -/
theorem matches_replaceMasked (hconcrete : mask.Concrete) (hmask : p.bytes = mask.bytes)
    (hvalue : p.bytes = value.bytes) (hx : p.Matches x) (hxy : Turns mask value x y) :
    (p.replaceMasked mask value).pattern.Matches y := by
  intro i hi
  have hwidth : p.width = mask.width := by rw [width, width, hmask]
  have himask : i < mask.width := hwidth ▸ hi
  have hyi := hxy i
  show (p.replaceMasked mask value).pattern.allows i (y i) = true
  rw [allows_replaceMasked hmask hvalue hi]
  rcases allows_of_concrete hconcrete himask with ⟨hone, ht, hf⟩ | ⟨hone, ht, hf⟩
  · rw [if_pos ⟨himask, hone⟩] at hyi
    simp [ht, hyi]
  · rw [if_neg fun hc ↦ hone hc.2] at hyi
    simp [hf, hyi, matches_iff.1 hx i]

/-! ### Lost wildcards -/

/-- The words in which the bits are set that count as lost. -/
def lossWords (p mask : Pattern) : List UInt64 :=
  (p.wordsWithUse.zip mask.words).map fun ((w, used), m) ↦ Word.wildHighs w &&& m &&& used

/-- The wildcards that were lost are counted as bits. -/
theorem lost_eq (p mask value : Pattern) :
    (p.replaceMasked mask value).lost = tally Word.popcount (lossWords p mask) := by
  simp only [replaceMasked, lossWords]
  generalize p.wordsWithUse.zip mask.words = l
  induction l with
  | nil => rfl
  | cons a l ih => rw [tally_cons, List.map_cons, tally_cons, ih]

/-- There are as many of these words as the pattern has. -/
theorem length_lossWords (hmask : p.bytes = mask.bytes) :
    (lossWords p mask).length = p.words.length := by
  simp [lossWords, wordsWithUse, length_words_eq hmask]

/-- The bits in use are those of the trits inside. -/
theorem bit_usedBits (p : Pattern) (i : Nat) (b : Bool) :
    Word.bit (usedBits p.bytes (i / Word.tritsPerWord)) (2 * (i % Word.tritsPerWord) + b.toNat) =
      decide (i < p.width) := by
  have hb := b.toNat_le
  rw [usedBits, Word.bit_firstPlaces, width]
  refine decide_eq_decide.2 ?_
  rw [Word.tritsPerWord] at *
  omega

/-- A bit counts as lost if it is the upper one of a wildcard at a position that the mask may
set. -/
theorem bits_lossWords (hmask : p.bytes = mask.bytes) {i : Nat} (b : Bool)
    (hlt : (2 * i + b.toNat) / 64 < p.words.length) :
    bits (lossWords p mask) (2 * i + b.toNat) =
      (b && (p.allows i false && p.allows i true) && mask.allows i b && decide (i < p.width)) := by
  rw [bit_div] at hlt
  obtain ⟨w, m, hw, hm, hpi, hmi⟩ := words_of_lt hmask hlt
  have huse : p.wordsWithUse[i / Word.tritsPerWord]? =
      some (w, usedBits p.bytes (i / Word.tritsPerWord)) := by
    simp [wordsWithUse, hw]
  have hget : (lossWords p mask)[(2 * i + b.toNat) / 64]? =
      some (Word.wildHighs w &&& m &&& usedBits p.bytes (i / Word.tritsPerWord)) := by
    rw [bit_div, lossWords, List.getElem?_map,
      List.getElem?_zip_eq_some (z := ((w, usedBits p.bytes _), m)) |>.2 ⟨huse, hm⟩]
    rfl
  rw [bits_of_getElem? hget, bit_mod, Word.bit_and, Word.bit_and,
    Word.bit_wildHighs (Nat.mod_lt i (by decide)), bit_usedBits, hmi, hpi, hpi]
  rfl

/-- If one test implies another one and both count as many, they agree. -/
theorem imp_of_countP_eq {α : Type} {a b : α → Bool} {l : List α}
    (himp : ∀ c ∈ l, a c = true → b c = true) (heq : l.countP a = l.countP b) {c : α} (hc : c ∈ l)
    (hb : b c = true) : a c = true := by
  induction l with
  | nil => exact absurd hc List.not_mem_nil
  | cons d l ih =>
    have hle : l.countP a ≤ l.countP b :=
      List.countP_mono_left fun c hc ↦ himp c (List.mem_cons_of_mem _ hc)
    have hd := himp d List.mem_cons_self
    rw [List.countP_cons, List.countP_cons] at heq
    rcases List.mem_cons.1 hc with rfl | hc
    · by_contra ha
      rw [if_neg ha, if_pos hb] at heq
      omega
    · refine ih (fun c hc ↦ himp c (List.mem_cons_of_mem _ hc)) ?_ hc
      by_cases ha : a d = true
      · rw [if_pos ha, if_pos (hd ha)] at heq
        omega
      · rw [if_neg ha] at heq
        split at heq <;> omega

/-- **Of two patterns, one inside the other, that lost as many wildcards, both are wild wherever the
outer one is and the mask may be `1`.** -/
theorem wild_of_lost_eq (hbytes : p.bytes = q.bytes) (hmask : q.bytes = mask.bytes)
    (hsub : ∀ i b, p.allows i b = true → q.allows i b = true)
    (hlost : (p.replaceMasked mask value).lost = (q.replaceMasked mask value).lost) {i : Nat}
    (hi : i < q.width) (hone : mask.allows i true = true)
    (hwild : ∀ b, q.allows i b = true) (b : Bool) : p.allows i b = true := by
  have hpmask := hbytes.trans hmask
  have hwidth : p.width = q.width := by rw [width, width, hbytes]
  rw [lost_eq, lost_eq, tally_popcount, tally_popcount, length_lossWords hpmask,
    length_lossWords hmask, length_words_eq hbytes] at hlost
  have himp : ∀ n ∈ List.range (64 * q.words.length),
      bits (lossWords p mask) n = true → bits (lossWords q mask) n = true := by
    intro n hn
    have hlt : n / 64 < q.words.length := by
      have := List.mem_range.1 hn
      omega
    obtain ⟨c, hc⟩ : ∃ c : Bool, n = 2 * (n / 2) + c.toNat := by
      rcases Nat.mod_two_eq_zero_or_one n with h | h
      · exact ⟨false, by simp; omega⟩
      · exact ⟨true, by simp; omega⟩
    rw [hc] at hlt ⊢
    rw [bits_lossWords hpmask c (length_words_eq hbytes ▸ hlt), bits_lossWords hmask c hlt, hwidth]
    simp only [Bool.and_eq_true]
    rintro ⟨⟨⟨hc, h₀, h₁⟩, hm⟩, hi⟩
    exact ⟨⟨⟨hc, hsub _ _ h₀, hsub _ _ h₁⟩, hm⟩, hi⟩
  have hlt := div_lt_length_words hi true
  have hmem : 2 * i + true.toNat ∈ List.range (64 * q.words.length) := List.mem_range.2 (by omega)
  have hlossq : bits (lossWords q mask) (2 * i + true.toNat) = true := by
    rw [bits_lossWords hmask true hlt]
    simp [hwild, hone, hi]
  have hloss := imp_of_countP_eq himp hlost hmem hlossq
  rw [bits_lossWords hpmask true (length_words_eq hbytes ▸ hlt)] at hloss
  simp only [Bool.and_eq_true] at hloss
  cases b
  · exact hloss.1.1.2.1
  · exact hloss.1.1.2.2

/-- **A hole that lost as many wildcards as its frame gains no header**: what it has afterwards came
from what it had. -/
theorem matches_of_replaceMasked (hconcrete : mask.Concrete) (hp : p.Solid q.bytes)
    (hmask : q.bytes = mask.bytes) (hvalue : q.bytes = value.bytes)
    (hsub : ∀ h, p.Matches h → q.Matches h)
    (hlost : (p.replaceMasked mask value).lost = (q.replaceMasked mask value).lost)
    (hx : q.Matches x) (hxy : Turns mask value x y)
    (hy : (p.replaceMasked mask value).pattern.Matches y) : p.Matches x := by
  intro i hi
  have hwidth : p.width = q.width := by rw [width, width, hp.1]
  have hwidth' : q.width = mask.width := by rw [width, width, hmask]
  have himask : i < mask.width := by omega
  have hsub' : ∀ i b, p.allows i b = true → q.allows i b = true := fun i b ↦
    allows_of_forall_matches hp.2 hsub
  have hyi := hxy i
  show p.allows i (x i) = true
  rcases allows_of_concrete hconcrete himask with ⟨hone, ht, hf⟩ | ⟨hone, ht, hf⟩
  · have hxi := matches_iff.1 hx i
    by_cases hwild : ∀ b, q.allows i b = true
    · exact wild_of_lost_eq hp.1 hmask hsub' hlost (by omega) ht hwild _
    · -- the frame has a concrete trit here, and the hole, which has no conflict, the same one
      have hother : q.allows i (!x i) = false := by
        by_contra hne
        refine hwild fun b ↦ ?_
        rw [Bool.not_eq_false] at hne
        by_cases hb : b = x i
        · rw [hb, hxi]
        · rw [Bool.eq_not_of_ne hb, hne]
      have hsome := hasConflict_eq_false_iff.1 hp.2 i
      cases hb : x i with
      | false =>
        rw [hb] at hother
        refine hsome.resolve_right fun h ↦ ?_
        exact absurd (hsub' i true h) (by simpa using hother)
      | true =>
        rw [hb] at hother
        refine hsome.resolve_left fun h ↦ ?_
        exact absurd (hsub' i false h) (by simpa using hother)
  · rw [if_neg fun hc ↦ hone hc.2] at hyi
    have hyi' := matches_iff.1 hy i
    rw [allows_replaceMasked (hp.1.trans hmask) (hp.1.trans hvalue) hi, ht, hf, hyi] at hyi'
    simpa using hyi'

end HeaderFlow.Pattern
