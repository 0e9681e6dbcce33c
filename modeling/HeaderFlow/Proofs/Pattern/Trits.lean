import HeaderFlow.Pattern.Algebra
import HeaderFlow.Proofs.Word

/-!
# Patterns, trit by trit

A pattern packs its trits into words. Here it is unpacked: `Pattern.allows p i b` says whether the
trit at position `i` allows the bit `b`, and every operation on patterns is described by what it
does to `allows`. **Padding drops out of these descriptions**: past the end every trit is wild, so
the statements quantify over all positions and not only over those inside the pattern.

`Pattern.bits` numbers the packed bits of a list of words consecutively. It is the one place where
a position is divided into a word and a place in that word.
-/

namespace HeaderFlow.Pattern

/-! ### The packed bits

Past the last word every bit is set. This is how the trits past the end come to be wild without a
case for them. -/

/-- The bit number `n` of a list of words; past the last word every bit is set. -/
def bits (ws : List UInt64) (n : Nat) : Bool :=
  match ws[n / 64]? with
  | some w => Word.bit w (n % 64)
  | none => true

/-- A bit is looked up in its word. -/
theorem bits_of_getElem? {ws : List UInt64} {n : Nat} {w : UInt64} (h : ws[n / 64]? = some w) :
    bits ws n = Word.bit w (n % 64) := by
  rw [bits, h]

/-- Past the last word every bit is set. -/
theorem bits_of_ge {ws : List UInt64} {n : Nat} (h : ws.length ≤ n / 64) : bits ws n = true := by
  rw [bits, List.getElem?_eq_none h]

/-- A list is cut off or filled up with wildcards. -/
theorem getElem?_resize {m j : Nat} {ws : List UInt64} (h : j < m) :
    (resize m ws)[j]? = some (ws[j]?.getD Word.allWild) := by
  rw [resize]
  by_cases hj : j < ws.length
  · rw [List.getElem?_append_left (by rw [List.length_take]; omega), List.getElem?_take_of_lt h,
      List.getElem?_eq_getElem hj]
    rfl
  · rw [List.getElem?_append_right (by rw [List.length_take]; omega),
      List.getElem?_replicate_of_lt (by rw [List.length_take]; omega),
      List.getElem?_eq_none (by omega)]
    rfl

/-- Packing keeps the bits inside the pattern and sets all others. -/
theorem bits_ofWords (bytes : Nat) (ws : List UInt64) (n : Nat) :
    bits (ofWords bytes ws).words n =
      (bits ws n || decide (2 * (bytes * tritsPerByte) ≤ n)) := by
  have hcount : wordCount bytes = (bytes * 8 + 31) / 32 := rfl
  have hbyte : tritsPerByte = 8 := rfl
  by_cases hn : n / 64 < wordCount bytes
  · have hword : (ofWords bytes ws).words[n / 64]? =
        some (ws[n / 64]?.getD Word.allWild ||| ~~~(usedBits bytes (n / 64))) := by
      rw [ofWords, getElem?_pad, getElem?_resize hn]
      rfl
    have hold : Word.bit (ws[n / 64]?.getD Word.allWild) (n % 64) = bits ws n := by
      rw [bits]
      cases ws[n / 64]? with
      | none => simp [Word.bit_allWild, Nat.mod_lt]
      | some w => rfl
    rw [bits_of_getElem? hword, Word.bit_or, Word.bit_not, hold, usedBits, Word.bit_firstPlaces,
      decide_eq_true (Nat.mod_lt n (by omega)), Bool.true_and, ← decide_not]
    congr 1
    refine decide_eq_decide.2 ?_
    rw [Word.tritsPerWord, hbyte]
    omega
  · have hlen : (ofWords bytes ws).words.length = wordCount bytes := (ofWords bytes ws).length_words
    rw [bits_of_ge (by omega), decide_eq_true (by rw [hbyte]; omega), Bool.or_true]

/-- A pattern is packed already. -/
theorem ofWords_words (p : Pattern) : ofWords p.bytes p.words = p := by
  obtain ⟨bytes, words, hlen, hpad⟩ := p
  have hresize : resize (wordCount bytes) words = words := by
    rw [resize, ← hlen, List.take_length, Nat.sub_self, List.replicate_zero, List.append_nil]
  have hwords : pad bytes words = words := by
    refine List.ext_getElem? fun i ↦ ?_
    rw [getElem?_pad]
    cases h : words[i]? with
    | none => rfl
    | some w => exact congrArg some (hpad i w h)
  simp only [ofWords, hresize, hwords]

/-- Past the last trit every bit is set. -/
theorem bits_words_of_ge {p : Pattern} {n : Nat} (h : 2 * p.width ≤ n) : bits p.words n = true := by
  rw [← ofWords_words p, bits_ofWords,
    decide_eq_true (show 2 * (p.bytes * tritsPerByte) ≤ n from h), Bool.or_true]

/-- Two lists of as many words are equal if their bits are. -/
theorem words_ext {vs ws : List UInt64} (hlen : vs.length = ws.length)
    (h : ∀ n, bits vs n = bits ws n) : vs = ws := by
  refine List.ext_getElem hlen fun j hv hw ↦ Word.ext fun n hn ↦ ?_
  have hdiv : (64 * j + n) / 64 = j := by omega
  have hmod : (64 * j + n) % 64 = n := by omega
  have key := h (64 * j + n)
  rwa [bits_of_getElem? (w := vs[j]) (by rw [hdiv, List.getElem?_eq_getElem hv]),
    bits_of_getElem? (w := ws[j]) (by rw [hdiv, List.getElem?_eq_getElem hw]), hmod] at key

/-- What is done to words bit by bit is done to the list bit by bit. -/
theorem bits_zipWith {f : UInt64 → UInt64 → UInt64} {g : Bool → Bool → Bool}
    (hf : ∀ v w n, n < 64 → Word.bit (f v w) n = g (Word.bit v n) (Word.bit w n))
    {vs ws : List UInt64} {n : Nat} (hv : n / 64 < vs.length) (hw : n / 64 < ws.length) :
    bits (List.zipWith f vs ws) n = g (bits vs n) (bits ws n) := by
  have hget : (List.zipWith f vs ws)[n / 64]? = some (f vs[n / 64] ws[n / 64]) := by
    rw [List.getElem?_zipWith, List.getElem?_eq_getElem hv, List.getElem?_eq_getElem hw]
  rw [bits_of_getElem? hget, bits_of_getElem? (List.getElem?_eq_getElem hv),
    bits_of_getElem? (List.getElem?_eq_getElem hw), hf _ _ _ (Nat.mod_lt n (by omega))]

/-! ### The values that a trit allows

A trit has two bits, one for each value, and the bit for the value `b` at position `i` has the
number `2 * i + b`. All that is computed with words is read through this numbering. -/

/-- The trit at position `i` allows the bit `b`. -/
def allows (p : Pattern) (i : Nat) (b : Bool) : Bool := (p.trit i).allows b

/-- What a trit allows is a bit of the list. -/
theorem allows_eq_bits (p : Pattern) (i : Nat) (b : Bool) :
    p.allows i b = bits p.words (2 * i + b.toNat) := by
  have hb := b.toNat_le
  have hdiv : (2 * i + b.toNat) / 64 = i / 32 := by omega
  have hmod : (2 * i + b.toNat) % 64 = 2 * (i % 32) + b.toNat := by omega
  rw [allows, trit, bits, hdiv, hmod, Word.tritsPerWord]
  cases p.words[i / 32]? with
  | none => cases b <;> rfl
  | some w => exact Word.allows_trit (Nat.mod_lt i (by decide)) b

/-- A bit of the list is what a trit allows. -/
theorem bits_words_eq_allows (p : Pattern) (n : Nat) :
    bits p.words n = p.allows (n / 2) (decide (n % 2 = 1)) := by
  rw [allows_eq_bits]
  congr 1
  rcases Nat.mod_two_eq_zero_or_one n with h | h <;> simp [h] <;> omega

/-- Past the end every value is allowed. -/
theorem allows_of_ge {p : Pattern} {i : Nat} (h : p.width ≤ i) (b : Bool) :
    p.allows i b = true := by
  rw [allows_eq_bits, bits_words_of_ge (by omega)]

/-- **A pattern is determined by its length and the values it allows.** -/
theorem eq_of_allows {p q : Pattern} (hbytes : p.bytes = q.bytes)
    (h : ∀ i b, p.allows i b = q.allows i b) : p = q := by
  have hlen : p.words.length = q.words.length := by rw [p.length_words, q.length_words, hbytes]
  have hwords : p.words = q.words := words_ext hlen fun n ↦ by
    rw [bits_words_eq_allows, bits_words_eq_allows, h]
  rw [← ofWords_words p, ← ofWords_words q, hbytes, hwords]

/-- A trit is made up of what it allows. -/
theorem trit_eq_ofAllowed (p : Pattern) (i : Nat) :
    p.trit i = Trit.ofAllowed (p.allows i false) (p.allows i true) :=
  (Trit.ofAllowed_mayZero_mayOne (p.trit i)).symm

/-- What a packed list allows. -/
theorem allows_ofWords (bytes : Nat) (ws : List UInt64) (i : Nat) (b : Bool) :
    (ofWords bytes ws).allows i b =
      (bits ws (2 * i + b.toNat) || decide (bytes * tritsPerByte ≤ i)) := by
  have hb := b.toNat_le
  rw [allows_eq_bits, bits_ofWords]
  congr 1
  exact decide_eq_decide.2 (by omega)

/-- The words of two patterns of one length pair up. -/
theorem length_words_eq {p q : Pattern} (h : p.bytes = q.bytes) :
    p.words.length = q.words.length := by
  rw [p.length_words, q.length_words, h]

/-- A trit inside has its bits in some word. -/
theorem div_lt_length_words {p : Pattern} {i : Nat} (h : i < p.width) (b : Bool) :
    (2 * i + b.toNat) / 64 < p.words.length := by
  have hb := b.toNat_le
  have hcount : wordCount p.bytes = (p.bytes * 8 + 31) / 32 := rfl
  rw [width, tritsPerByte] at h
  rw [p.length_words, hcount]
  omega

/-- A bitwise operation on two patterns acts on what they allow. -/
theorem allows_zipWords {f : UInt64 → UInt64 → UInt64} {g : Bool → Bool → Bool}
    (hf : ∀ v w n, n < 64 → Word.bit (f v w) n = g (Word.bit v n) (Word.bit w n))
    (hg : g true true = true) {p q : Pattern} (hbytes : p.bytes = q.bytes) (i : Nat) (b : Bool) :
    (zipWords f p q).allows i b = g (p.allows i b) (q.allows i b) := by
  have hwidth : p.width = q.width := by rw [width, width, hbytes]
  rw [zipWords, allows_ofWords]
  by_cases hi : i < p.width
  · rw [bits_zipWith hf (div_lt_length_words hi b) (div_lt_length_words (hwidth ▸ hi) b),
      ← allows_eq_bits, ← allows_eq_bits, decide_eq_false (by rw [width] at hi; omega),
      Bool.or_false]
  · have hge : p.width ≤ i := Nat.le_of_not_lt hi
    rw [allows_of_ge hge, allows_of_ge (hwidth ▸ hge), hg,
      decide_eq_true (show p.bytes * tritsPerByte ≤ i from hge), Bool.or_true]

/-! ### Filling, writing, widening

What each operation does to `allows`. The lemmas on lengths are tagged for simplification, because
the position of a trit is compared with the length in all of them. -/

@[simp] theorem bytes_ofWords (bytes : Nat) (ws : List UInt64) : (ofWords bytes ws).bytes = bytes :=
  rfl

@[simp] theorem bytes_allWild (bytes : Nat) : (allWild bytes).bytes = bytes := rfl

@[simp] theorem bytes_put (p : Pattern) (i : Nat) (t : Trit) : (p.put i t).bytes = p.bytes := rfl

@[simp] theorem bytes_zipWords (f : UInt64 → UInt64 → UInt64) (p q : Pattern) :
    (zipWords f p q).bytes = p.bytes := rfl

@[simp] theorem allows_allWild (bytes i : Nat) (b : Bool) : (allWild bytes).allows i b = true := by
  rw [allWild, fill, allows_ofWords, Bool.or_eq_true]
  left
  by_cases h : (2 * i + b.toNat) / 64 < wordCount bytes
  · rw [bits_of_getElem? (List.getElem?_replicate_of_lt h), Word.fill, Word.bit_allWild]
    exact decide_eq_true (Nat.mod_lt _ (by omega))
  · exact bits_of_ge (by rw [List.length_replicate]; omega)

/-- Writing a trit into a list of words. -/
theorem bits_modify_put {ws : List UInt64} {j : Nat} {b : Bool}
    (h : (2 * j + b.toNat) / 64 < ws.length) (i : Nat) (t : Trit) :
    bits (ws.modify (i / Word.tritsPerWord) fun w ↦ Word.put w (i % Word.tritsPerWord) t)
        (2 * j + b.toNat) =
      if j = i then t.allows b else bits ws (2 * j + b.toNat) := by
  have hb := b.toNat_le
  have hplace : ∀ k, k % Word.tritsPerWord < Word.tritsPerWord := fun k ↦ Nat.mod_lt k (by decide)
  have hdiv : (2 * j + b.toNat) / 64 = j / Word.tritsPerWord := by
    rw [Word.tritsPerWord]
    omega
  have hmod : (2 * j + b.toNat) % 64 = 2 * (j % Word.tritsPerWord) + b.toNat := by
    rw [Word.tritsPerWord]
    omega
  obtain ⟨w, hget⟩ : ∃ w, ws[(2 * j + b.toNat) / 64]? = some w := ⟨_, List.getElem?_eq_getElem h⟩
  have hget' : (ws.modify (i / Word.tritsPerWord) fun w ↦ Word.put w (i % Word.tritsPerWord) t)[
      (2 * j + b.toNat) / 64]? = some (if i / Word.tritsPerWord = j / Word.tritsPerWord then
        Word.put w (i % Word.tritsPerWord) t else w) := by
    rw [List.getElem?_modify, hget, hdiv]
    rfl
  rw [bits_of_getElem? hget', bits_of_getElem? hget, hmod]
  by_cases hword : i / Word.tritsPerWord = j / Word.tritsPerWord
  · have hsame : j % Word.tritsPerWord = i % Word.tritsPerWord ↔ j = i := by
      rw [Word.tritsPerWord] at *
      omega
    rw [if_pos hword, Word.bit_put (hplace i) (hplace j)]
    simp only [hsame]
  · have hne : j ≠ i := fun e ↦ hword (by rw [e])
    rw [if_neg hword, if_neg hne]

/-- **Writing a trit inside a pattern changes that trit and no other.** -/
theorem allows_put {p : Pattern} {i : Nat} (hi : i < p.width) (t : Trit) (j : Nat) (b : Bool) :
    (p.put i t).allows j b = if j = i then t.allows b else p.allows j b := by
  rw [put, allows_ofWords]
  by_cases hj : j < p.width
  · rw [bits_modify_put (div_lt_length_words hj b), ← allows_eq_bits,
      decide_eq_false (by rw [width] at hj; omega), Bool.or_false]
  · have hge : p.width ≤ j := Nat.le_of_not_lt hj
    rw [decide_eq_true (show p.bytes * tritsPerByte ≤ j from hge), Bool.or_true,
      if_neg (by omega), allows_of_ge hge]

/-- Writing a list of trits inside a pattern changes the trits from there on. -/
theorem allows_putAll_eq (p : Pattern) (i : Nat) (ts : List Trit) (h : i + ts.length ≤ p.width)
    (j : Nat) (b : Bool) :
    (p.putAll i ts).allows j b =
      if i ≤ j then (ts[j - i]?.map (·.allows b)).getD (p.allows j b) else p.allows j b := by
  induction ts generalizing p i with
  | nil => simp [putAll]
  | cons t ts ih =>
    rw [List.length_cons] at h
    rw [putAll, ih _ _ (by rw [width, bytes_put, ← width]; omega), allows_put (by omega)]
    rcases Nat.lt_trichotomy j i with hlt | rfl | hgt
    · rw [if_neg (by omega), if_neg (by omega), if_neg (by omega)]
    · rw [if_neg (by omega), if_pos rfl, if_pos (Nat.le_refl _), Nat.sub_self]
      rfl
    · rw [if_pos (by omega), if_neg (by omega), if_pos (by omega),
        show j - i = (j - (i + 1)) + 1 by omega, List.getElem?_cons_succ]

/-- Writing the same trit several times. -/
theorem allows_putAll (p : Pattern) (i : Nat) (t : Trit) (n : Nat) (h : i + n ≤ p.width) (j : Nat)
    (b : Bool) :
    (p.putAll i (List.replicate n t)).allows j b =
      if i ≤ j ∧ j < i + n then t.allows b else p.allows j b := by
  rw [allows_putAll_eq _ _ _ (by rwa [List.length_replicate]), List.getElem?_replicate]
  by_cases hij : i ≤ j
  · rw [if_pos hij]
    by_cases hj : j < i + n
    · rw [if_pos (by omega), if_pos ⟨hij, hj⟩]
      rfl
    · rw [if_neg (by omega), if_neg (by omega)]
      rfl
  · rw [if_neg hij, if_neg (by omega)]

theorem bytes_putAll (p : Pattern) (i : Nat) (ts : List Trit) :
    (p.putAll i ts).bytes = p.bytes := by
  induction ts generalizing p i with
  | nil => rfl
  | cons t ts ih => rw [putAll, ih, bytes_put]

/-- Writing all trits of a pattern gives the pattern. -/
theorem putAll_toTrits (p : Pattern) : (allWild p.bytes).putAll 0 p.toTrits = p := by
  have hlen : p.toTrits.length = p.width := by rw [toTrits, List.length_map, List.length_range]
  refine eq_of_allows (bytes_putAll ..) fun j b ↦ ?_
  rw [allows_putAll_eq _ _ _ (by rw [hlen, Nat.zero_add]; exact Nat.le_refl _),
    if_pos (Nat.zero_le j), Nat.sub_zero, allows_allWild, toTrits, List.getElem?_map]
  by_cases hj : j < p.width
  · rw [List.getElem?_range hj]
    rfl
  · rw [List.getElem?_eq_none (by rw [List.length_range]; omega), allows_of_ge (by omega)]
    rfl

/-- Repacking for a greater length keeps every trit. -/
theorem allows_grown {p : Pattern} {bytes : Nat} (h : p.bytes ≤ bytes) (i : Nat) (b : Bool) :
    (ofWords bytes p.words).allows i b = p.allows i b := by
  rw [allows_ofWords, ← allows_eq_bits]
  by_cases hi : bytes * tritsPerByte ≤ i
  · have hge : p.width ≤ i := Nat.le_trans (Nat.mul_le_mul_right _ h) hi
    rw [allows_of_ge hge, Bool.true_or]
  · rw [decide_eq_false hi, Bool.or_false]

theorem bytes_enlargeWith (p : Pattern) (bytes : Nat) (t : Trit) :
    (p.enlargeWith bytes t).bytes = max p.bytes bytes := by
  rw [enlargeWith]
  split
  · omega
  · cases t <;> simp only [bytes_putAll, bytes_ofWords] <;> omega

/-- Widening keeps the old trits and gives the new ones their value. -/
theorem allows_enlargeWith (p : Pattern) (bytes : Nat) (t : Trit) (i : Nat) (b : Bool) :
    (p.enlargeWith bytes t).allows i b =
      if p.width ≤ i ∧ i < bytes * tritsPerByte then t.allows b else p.allows i b := by
  rw [enlargeWith]
  split
  · rename_i h
    have hle : bytes * tritsPerByte ≤ p.width := Nat.mul_le_mul_right _ h
    rw [if_neg (by omega)]
  · rename_i h
    have hle : p.bytes ≤ bytes := by omega
    have hwidth : (ofWords bytes p.words).width = bytes * tritsPerByte := rfl
    have hmul : p.width ≤ bytes * tritsPerByte := Nat.mul_le_mul_right _ hle
    have hput : ∀ u : Trit, ((ofWords bytes p.words).putAll p.width
        (List.replicate ((ofWords bytes p.words).width - p.width) u)).allows i b =
          if p.width ≤ i ∧ i < bytes * tritsPerByte then u.allows b else p.allows i b := by
      intro u
      rw [allows_putAll _ _ _ _ (by omega), allows_grown hle, hwidth,
        show p.width + (bytes * tritsPerByte - p.width) = bytes * tritsPerByte by omega]
    cases t with
    | wild =>
      rw [allows_grown hle]
      split
      · rename_i hi
        rw [allows_of_ge hi.1]
        cases b <;> rfl
      · rfl
    | conflict => exact hput _
    | zero => exact hput _
    | one => exact hput _

/-- **Widening with wild trits changes nothing that a pattern allows.** -/
@[simp] theorem allows_enlarge (p : Pattern) (bytes i : Nat) (b : Bool) :
    (p.enlarge bytes).allows i b = p.allows i b := by
  rw [enlarge, allows_enlargeWith]
  split
  · rename_i hi
    rw [allows_of_ge hi.1]
    cases b <;> rfl
  · rfl

@[simp] theorem bytes_enlarge (p : Pattern) (bytes : Nat) :
    (p.enlarge bytes).bytes = max p.bytes bytes :=
  bytes_enlargeWith p bytes .wild

end HeaderFlow.Pattern
