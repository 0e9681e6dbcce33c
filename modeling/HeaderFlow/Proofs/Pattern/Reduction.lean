import HeaderFlow.Pattern.Condense
import HeaderFlow.Proofs.Pattern.Cover

/-!
# Reducing patterns

Three reductions replace patterns by fewer or smaller ones: a pattern inside another is dropped, two
patterns that are opposite in one trit are joined, and a pattern loses the headers of another when
this is the change of a single bit. The last two rest on population counts: `tally_popcount` turns
the count over all words into a count over all packed bits, so that "the count is one" says that
**exactly one bit is set**.

`condense_spec` is the result for whole lists: condensing keeps the union of the covers, whatever
the mask, and the bound on the number of steps suffices to work off the queue.

## From words to covers

* *Inclusion* is asked word by word, and each word says so of its trits (`matches_of_within`).
* *Joining*: two words may differ only in opposite trits, and a count over all words has to be one
  at most. Then the patterns differ in one position, and the union of the two covers is a cover
  (`matches_of_join?_eq_some`).
* *Narrowing*: the words of the surplus have the bits that only the first pattern has. With one such
  bit, a header that matches the first pattern fails to match the second exactly if it has this
  value, and clearing the other bit of that trit leaves those headers (`matches_narrow`). The
  formula clears the partner by shifting, in both directions, masked (`bit_clearPartner`).

## The queue

A pattern is taken from the queue and sifted through those that are accepted. It is dropped, or
pushes some of them out, or merges with one, and the merge goes back to the queue. So a step takes
one pattern from the queue and perhaps one from the accepted list, for the one that comes back.
**The number of patterns in both, with the queue counted twice, goes down**, so twice as many steps
as there are patterns at the start are enough.
-/

namespace HeaderFlow.Pattern

variable {p q : Pattern} {h : Nat → Bool}

/-! ### Inclusion -/

/-- At each position two patterns of one length either both have a word, or both are past their
last word and allow everything. -/
theorem words_at (hbytes : p.bytes = q.bytes) (i : Nat) :
    (∃ v w, p.words[i / Word.tritsPerWord]? = some v ∧ q.words[i / Word.tritsPerWord]? = some w ∧
      (∀ b : Bool, p.allows i b = Word.bit v (2 * (i % Word.tritsPerWord) + b.toNat)) ∧
        ∀ b : Bool, q.allows i b = Word.bit w (2 * (i % Word.tritsPerWord) + b.toNat)) ∨
      ∀ b, p.allows i b = true ∧ q.allows i b = true := by
  have hplace : i % Word.tritsPerWord < Word.tritsPerWord := Nat.mod_lt i (by decide)
  have hpos : Word.tritsPerWord * (i / Word.tritsPerWord) + i % Word.tritsPerWord = i :=
    Nat.div_add_mod i _
  by_cases hi : i / Word.tritsPerWord < p.words.length
  · have hv := List.getElem?_eq_getElem hi
    have hw := List.getElem?_eq_getElem (length_words_eq hbytes ▸ hi)
    refine .inl ⟨_, _, hv, hw, fun b ↦ ?_, fun b ↦ ?_⟩
    · rw [← allows_of_word hv hplace, hpos]
    · rw [← allows_of_word hw hplace, hpos]
  · refine .inr fun b ↦ ?_
    have hb := b.toNat_le
    have hdiv : (2 * i + b.toNat) / 64 = i / Word.tritsPerWord := by
      rw [Word.tritsPerWord]
      omega
    exact ⟨by rw [allows_eq_bits, bits_of_ge (by omega)],
      by rw [allows_eq_bits, bits_of_ge (by rw [← length_words_eq hbytes]; omega)]⟩

/-- The words at one place make a pair. -/
theorem mem_pairs {j : Nat} {v w : UInt64} (hv : p.words[j]? = some v) (hw : q.words[j]? = some w) :
    (v, w) ∈ pairs p q :=
  List.mem_of_getElem? (List.getElem?_zip_eq_some.2 ⟨hv, hw⟩)

/-- **Inclusion of patterns is inclusion of covers.** -/
theorem matches_of_within (hbytes : p.bytes = q.bytes) (hw : within p q = true)
    (hm : p.Matches h) : q.Matches h := by
  rw [within, Bool.or_eq_true] at hw
  rcases hw with hc | hall
  · exact absurd hm (not_matches_of_hasConflict hc)
  · refine matches_iff.2 fun i ↦ ?_
    rcases words_at hbytes i with ⟨v, w, hv, hw, hpi, hqi⟩ | hfree
    · have hwithin := List.all_eq_true.1 hall (v, w) (mem_pairs hv hw)
      rcases Word.within_iff.1 hwithin _ (Nat.mod_lt i (by decide)) with heq | hwild
      · rw [hqi, ← heq, ← hpi]
        exact matches_iff.1 hm i
      · rw [hqi, hwild]
    · exact (hfree _).2

/-! ### Counting packed bits -/

/-- **A population count over words is the number of packed bits that are set.** -/
theorem tally_popcount (ws : List UInt64) :
    tally Word.popcount ws = (List.range (64 * ws.length)).countP (bits ws) := by
  induction ws with
  | nil => rfl
  | cons w ws ih =>
    have hfirst : (List.range 64).countP (bits (w :: ws)) =
        (List.range 64).countP (Word.bit w) := by
      refine List.countP_congr fun n hn ↦ ?_
      have hlt := List.mem_range.1 hn
      rw [bits_of_getElem? (w := w) (by rw [Nat.div_eq_of_lt hlt]; rfl), Nat.mod_eq_of_lt hlt]
    have hrest : bits (w :: ws) ∘ (64 + ·) = bits ws := by
      funext n
      have hdiv : (64 + n) / 64 = n / 64 + 1 := by omega
      have hmod : (64 + n) % 64 = n % 64 := by omega
      show bits (w :: ws) (64 + n) = bits ws n
      rw [bits, bits, hdiv, hmod, List.getElem?_cons_succ]
    rw [tally_cons, ih, Word.popcount_eq, List.length_cons, Nat.mul_add, Nat.mul_one, Nat.add_comm,
      Nat.add_comm (64 * ws.length), List.range_add, List.countP_append, List.countP_map, hfirst,
      hrest, Nat.add_comm]

/-- If at most one bit is set, any two that are set are the same. -/
theorem eq_of_tally_popcount_le_one {ws : List UInt64} (hle : tally Word.popcount ws ≤ 1)
    {m n : Nat} (hm : m < 64 * ws.length) (hn : n < 64 * ws.length) (hbm : bits ws m = true)
    (hbn : bits ws n = true) : m = n := by
  rw [tally_popcount, List.countP_eq_length_filter] at hle
  have hmem : ∀ k < 64 * ws.length, bits ws k = true →
      k ∈ (List.range (64 * ws.length)).filter (bits ws) :=
    fun k hk hb ↦ List.mem_filter.2 ⟨List.mem_range.2 hk, hb⟩
  have hm' := hmem m hm hbm
  have hn' := hmem n hn hbn
  match hl : (List.range (64 * ws.length)).filter (bits ws) with
  | [] =>
    rw [hl] at hm'
    exact absurd hm' List.not_mem_nil
  | [k] =>
    rw [hl, List.mem_singleton] at hm' hn'
    rw [hm', hn']
  | _ :: _ :: _ =>
    rw [hl, List.length_cons, List.length_cons] at hle
    omega

/-- If the count is positive, some bit is set. -/
theorem exists_of_tally_popcount_pos {ws : List UInt64} (hpos : 0 < tally Word.popcount ws) :
    ∃ n < 64 * ws.length, bits ws n = true := by
  rw [tally_popcount, List.countP_pos_iff] at hpos
  obtain ⟨n, hn, hb⟩ := hpos
  exact ⟨n, List.mem_range.1 hn, hb⟩

/-- Pairs of words are counted as words. -/
theorem tally_zip (f : UInt64 → UInt64 → UInt64) (vs ws : List UInt64) :
    tally (fun (v, w) ↦ Word.popcount (f v w)) (vs.zip ws) =
      tally Word.popcount (List.zipWith f vs ws) := by
  induction vs generalizing ws with
  | nil => rfl
  | cons v vs ih =>
    cases ws with
    | nil => rfl
    | cons w ws => rw [List.zip_cons_cons, List.zipWith_cons_cons, tally_cons, tally_cons, ih]

/-! ### Joining two patterns -/

@[simp] theorem bytes_join (p q : Pattern) : (join p q).bytes = p.bytes := rfl

/-- A join allows what either operand allows. -/
theorem allows_join (hbytes : p.bytes = q.bytes) (i : Nat) (b : Bool) :
    (join p q).allows i b = (p.allows i b || q.allows i b) := by
  refine allows_zipWords (g := Bool.or) (fun v w n _ ↦ ?_) rfl hbytes i b
  rw [Word.bit_or, Word.bit_and, Word.bit_xor]
  cases Word.bit v n <;> cases Word.bit w n <;> rfl

/-- Two patterns that differ only in opposite trits either agree at a position or differ in both of
its bits. -/
theorem differ_of_differInOpposites (hbytes : p.bytes = q.bytes)
    (hd : differInOpposites p q = true) (i : Nat) :
    (∀ b, p.allows i b = q.allows i b) ∨ ∀ b, p.allows i b = !q.allows i b := by
  rcases words_at hbytes i with ⟨v, w, hv, hw, hpi, hqi⟩ | hfree
  · have hvw := List.all_eq_true.1 hd (v, w) (mem_pairs hv hw)
    rw [Bool.and_eq_true, Bool.not_eq_true', Bool.not_eq_true', ← Bool.not_eq_true,
      ← Bool.not_eq_true, Word.hasZero_iff, Word.hasOne_iff] at hvw
    have hplace : i % Word.tritsPerWord < Word.tritsPerWord := Nat.mod_lt i (by decide)
    have h₀ := fun hx ↦ hvw.1 ⟨_, hplace, hx⟩
    have h₁ := fun hx ↦ hvw.2 ⟨_, hplace, hx⟩
    have e₀ := hpi false
    have e₁ := hpi true
    have f₀ := hqi false
    have f₁ := hqi true
    simp only [Bool.toNat_false, Bool.toNat_true, Nat.add_zero] at e₀ e₁ f₀ f₁
    rw [Word.bit_xor, Word.bit_xor, ← e₀, ← e₁, ← f₀, ← f₁] at h₀ h₁
    simp only [Bool.forall_bool]
    revert h₀ h₁
    cases p.allows i false <;> cases p.allows i true <;> cases q.allows i false <;>
      cases q.allows i true <;> decide
  · exact .inl fun b ↦ by rw [(hfree b).1, (hfree b).2]

/-- The number of opposite trits counts the positions at which both bits differ. -/
theorem eq_of_countOpposites_le_one (hbytes : p.bytes = q.bytes) (hle : countOpposites p q ≤ 1)
    {i j : Nat} (hi : ∀ b, p.allows i b = !q.allows i b) (hj : ∀ b, p.allows j b = !q.allows j b) :
    i = j := by
  set differing : List UInt64 :=
    List.zipWith (fun v w ↦ Word.wildHighs (v ^^^ w)) p.words q.words with hdiffering
  have hlen : differing.length = p.words.length := by
    rw [hdiffering, List.length_zipWith, length_words_eq hbytes, Nat.min_self]
  rw [countOpposites, pairs, tally_zip (fun v w ↦ Word.wildHighs (v ^^^ w)), ← hdiffering] at hle
  -- a position with opposite trits sets the odd one of its two bits
  have key : ∀ k, (∀ b, p.allows k b = !q.allows k b) →
      2 * k + 1 < 64 * differing.length ∧ bits differing (2 * k + 1) = true := by
    intro k hk
    have hplace : k % Word.tritsPerWord < Word.tritsPerWord := Nat.mod_lt k (by decide)
    rcases words_at hbytes k with ⟨v, w, hv, hw, hpk, hqk⟩ | hfree
    · have hlt : k / Word.tritsPerWord < p.words.length := (List.getElem?_eq_some_iff.1 hv).1
      have hdiv : (2 * k + 1) / 64 = k / Word.tritsPerWord := by
        rw [Word.tritsPerWord]
        omega
      have hmod : (2 * k + 1) % 64 = 2 * (k % Word.tritsPerWord) + true.toNat := by
        rw [Word.tritsPerWord, Bool.toNat_true]
        omega
      have hget : differing[(2 * k + 1) / 64]? = some (Word.wildHighs (v ^^^ w)) := by
        rw [hdiffering, List.getElem?_zipWith, hdiv, hv, hw]
      have hxor : ∀ b : Bool,
          Word.bit (v ^^^ w) (2 * (k % Word.tritsPerWord) + b.toNat) = true := by
        intro b
        rw [Word.bit_xor, ← hpk, ← hqk, hk b]
        cases q.allows k b <;> rfl
      have h₀ := hxor false
      have h₁ := hxor true
      rw [Bool.toNat_false, Nat.add_zero] at h₀
      rw [Bool.toNat_true] at h₁
      refine ⟨?_, ?_⟩
      · rw [hlen]
        rw [Word.tritsPerWord] at hlt
        omega
      · rw [bits_of_getElem? hget, hmod, Word.bit_wildHighs hplace, h₀, h₁]
        rfl
    · have := hk true
      rw [(hfree true).1, (hfree true).2] at this
      exact absurd this (by decide)
  obtain ⟨hi_lt, hi_bit⟩ := key i hi
  obtain ⟨hj_lt, hj_bit⟩ := key j hj
  have := eq_of_tally_popcount_le_one hle hi_lt hj_lt hi_bit hj_bit
  omega

/-- When a join is answered, it is the join trit by trit, and at most one trit differs. -/
theorem join?_eq_some {m : Pattern} (hm : join? p q = some m) :
    m = join p q ∧ m.hasConflict = false ∧ differInOpposites p q = true ∧
      countOpposites p q ≤ 1 := by
  rw [join?] at hm
  split at hm
  · exact absurd hm (by simp)
  split at hm
  · exact absurd hm (by simp)
  rename_i hd
  rw [Bool.not_eq_true', Bool.not_eq_false] at hd
  simp only at hm
  split at hm
  · exact absurd hm (by simp)
  rename_i hcount
  rw [Bool.or_eq_true, not_or, Bool.not_eq_true, decide_eq_true_iff, Nat.not_lt] at hcount
  obtain rfl := Option.some.inj hm
  exact ⟨rfl, hcount.1, hd, hcount.2⟩

/-- **A join matches exactly what either operand does.** -/
theorem matches_of_join?_eq_some {m : Pattern} (hbytes : p.bytes = q.bytes)
    (hm : join? p q = some m) : m.Matches h ↔ p.Matches h ∨ q.Matches h := by
  obtain ⟨rfl, -, hd, hcount⟩ := join?_eq_some hm
  simp only [matches_iff, allows_join hbytes, Bool.or_eq_true]
  constructor
  · intro hall
    -- away from the one opposite position the two patterns agree, so either will do there
    by_cases hsome : ∃ i, q.allows i (h i) = false
    · obtain ⟨i, hi⟩ := hsome
      left
      have hopp : ∀ b, p.allows i b = !q.allows i b := by
        rcases differ_of_differInOpposites hbytes hd i with heq | hopp
        · have := hall i
          rw [heq, or_self, hi] at this
          exact absurd this (by decide)
        · exact hopp
      intro j
      rcases differ_of_differInOpposites hbytes hd j with heq | hopp'
      · have := hall j
        rwa [← heq, or_self] at this
      · obtain rfl := eq_of_countOpposites_le_one hbytes hcount hopp hopp'
        rw [hopp, hi]
        rfl
    · right
      intro i
      by_contra hi
      exact hsome ⟨i, by simpa using hi⟩
  · rintro (hp | hq) i
    · exact .inl (hp i)
    · exact .inr (hq i)

/-! ### Subtracting a single bit -/

/-- The place of the other bit of the same trit. -/
def partner (n : Nat) : Nat := if n % 2 = 1 then n - 1 else n + 1

/-- The partner of the bit for one value is the one for the other. -/
theorem partner_add_toNat (i : Nat) (b : Bool) :
    partner (2 * i + b.toNat) = 2 * i + (!b).toNat := by
  cases b <;> simp [partner]

/-- **The formula clears the partner of the one bit that is set**, and leaves all others. -/
theorem bit_clearPartner {c : UInt64} {n : Nat} (hn : n < 64)
    (hc : ∀ m < 64, Word.bit c m = decide (m = n)) (w : UInt64) {m : Nat} (hm : m < 64) :
    Word.bit (clearPartner w c) m = (Word.bit w m && !decide (m = partner n)) := by
  have hhigh : (c &&& Word.highs != 0) = decide (n % 2 = 1) := by
    rw [UInt64.and_comm, Word.and_single_ne_zero hn hc, Word.bit_highs]
    simp [hn]
  rw [clearPartner, hhigh]
  by_cases hodd : n % 2 = 1
  · rw [if_pos (decide_eq_true hodd), Word.bit_and, Word.bit_not, Word.bit_shiftRight_one,
      decide_eq_true hm, Bool.true_and, partner, if_pos hodd]
    by_cases hm' : m + 1 < 64
    · rw [hc _ hm']
      congr 2
      exact decide_eq_decide.2 (by omega)
    · rw [Word.bit_of_ge (Nat.le_of_not_lt hm'), decide_eq_false (show ¬ m = n - 1 by omega)]
  · rw [if_neg (by simp [hodd]), Word.bit_and, Word.bit_not, decide_eq_true hm, Bool.true_and,
      partner, if_neg hodd]
    cases m with
    | zero => rw [Word.bit_shiftLeft_one_zero, decide_eq_false (by omega)]
    | succ m =>
      rw [Word.bit_shiftLeft_one hm, hc _ (by omega)]
      congr 2
      exact decide_eq_decide.2 (by omega)

/-- The packed bits of one pattern that another does not have. -/
def surplus (p q : Pattern) : List UInt64 := List.zipWith (fun w v ↦ w &&& ~~~v) p.words q.words

/-- The surplus has as many words as the pattern. -/
theorem length_surplus (hbytes : p.bytes = q.bytes) : (surplus p q).length = p.words.length := by
  rw [surplus, List.length_zipWith, length_words_eq hbytes, Nat.min_self]

/-- A bit of the surplus is one that only the first pattern has. -/
theorem bits_surplus (hbytes : p.bytes = q.bytes) {n : Nat} (hn : n < 64 * p.words.length) :
    bits (surplus p q) n = (bits p.words n && !bits q.words n) := by
  have hp : n / 64 < p.words.length := by omega
  refine bits_zipWith (g := fun a b ↦ a && !b) (fun v w m hm ↦ ?_) hp (length_words_eq hbytes ▸ hp)
  rw [Word.bit_and, Word.bit_not, decide_eq_true hm, Bool.true_and]

/-- A value that only one of two patterns of one length allows is a surplus bit. -/
theorem surplus_of_allows (hbytes : p.bytes = q.bytes) {i : Nat} {b : Bool}
    (hp : p.allows i b = true) (hq : q.allows i b = false) :
    2 * i + b.toNat < 64 * p.words.length ∧ bits (surplus p q) (2 * i + b.toNat) = true := by
  have hb := b.toNat_le
  have hlt : 2 * i + b.toNat < 64 * p.words.length := by
    by_contra hge
    rw [allows_eq_bits, bits_of_ge (by rw [← length_words_eq hbytes]; omega)] at hq
    exact absurd hq (by decide)
  refine ⟨hlt, ?_⟩
  rw [bits_surplus hbytes hlt, ← allows_eq_bits, ← allows_eq_bits, hp, hq]
  rfl

/-- The excess counts the bits of the surplus. -/
theorem excess_narrow (p q : Pattern) :
    (narrow p q).excess = tally Word.popcount (surplus p q) := by
  rw [narrow]
  exact apply_ite Narrowed.excess .. |>.trans (ite_self _)

/-- **No surplus means that the pattern lies inside.** -/
theorem allows_of_excess_eq_zero (hbytes : p.bytes = q.bytes) (hzero : (narrow p q).excess = 0)
    {i : Nat} {b : Bool} (hp : p.allows i b = true) : q.allows i b = true := by
  by_contra hq
  rw [Bool.not_eq_true] at hq
  obtain ⟨hlt, hbit⟩ := surplus_of_allows hbytes hp hq
  rw [excess_narrow, tally_popcount, List.countP_eq_zero, length_surplus hbytes] at hzero
  exact hzero _ (List.mem_range.2 hlt) hbit

/-- Clearing the partner of the only surplus bit, in packed form. -/
theorem bits_clearPartner (hbytes : p.bytes = q.bytes) {n : Nat}
    (hbit : ∀ m < 64 * p.words.length, bits (surplus p q) m = decide (m = n)) {m : Nat}
    (hm : m < 64 * p.words.length) :
    bits (List.zipWith (fun w c ↦ if c = 0 then w else clearPartner w c) p.words (surplus p q)) m =
      (bits p.words m && !decide (m = partner n)) := by
  have hm' : m / 64 < p.words.length := by omega
  obtain ⟨w, hw⟩ : ∃ w, p.words[m / 64]? = some w := ⟨_, List.getElem?_eq_getElem hm'⟩
  obtain ⟨c, hc⟩ : ∃ c, (surplus p q)[m / 64]? = some c :=
    ⟨_, List.getElem?_eq_getElem (length_surplus hbytes ▸ hm')⟩
  have hget : (List.zipWith (fun w c ↦ if c = 0 then w else clearPartner w c) p.words
      (surplus p q))[m / 64]? = some (if c = 0 then w else clearPartner w c) := by
    rw [List.getElem?_zipWith, hw, hc]
  have hcbit : ∀ k < 64, Word.bit c k = decide (64 * (m / 64) + k = n) := by
    intro k hk
    have hdiv : (64 * (m / 64) + k) / 64 = m / 64 := by omega
    have hmod : (64 * (m / 64) + k) % 64 = k := by omega
    rw [← hbit _ (by omega), bits_of_getElem? (by rw [hdiv, hc]), hmod]
  rw [bits_of_getElem? hget, bits_of_getElem? hw]
  have hpart : ∀ k, partner k / 64 = k / 64 ∧ partner k % 64 = partner (k % 64) := by
    intro k
    unfold partner
    split <;> split <;> omega
  split
  · rename_i hzero
    have hne : m ≠ partner n := by
      rintro rfl
      have hfalse := hcbit (n % 64) (by omega)
      rw [hzero, Word.bit_zero, eq_comm, decide_eq_false_iff_not, (hpart n).1] at hfalse
      omega
    rw [decide_eq_false hne, Bool.not_false, Bool.and_true]
  · rename_i hzero
    obtain ⟨k, hk, hck⟩ := Word.ne_zero_iff.1 hzero
    rw [hcbit k hk, decide_eq_true_iff] at hck
    have hsingle : ∀ l < 64, Word.bit c l = decide (l = n % 64) := by
      intro l hl
      rw [hcbit l hl]
      exact decide_eq_decide.2 (by omega)
    rw [bit_clearPartner (Nat.mod_lt n (by omega)) hsingle w (Nat.mod_lt m (by omega))]
    congr 2
    have := hpart n
    exact decide_eq_decide.2 (by omega)

/-- With a surplus of a single bit, narrowing clears the other bit of that trit. -/
theorem allows_narrow (hbytes : p.bytes = q.bytes) (hone : (narrow p q).excess = 1) :
    ∃ i b, p.allows i b = true ∧ q.allows i b = false ∧
      (∀ j c, p.allows j c = true → q.allows j c = false → j = i ∧ c = b) ∧
      ∀ j c, (narrow p q).pattern.allows j c =
        (p.allows j c && !decide (2 * j + c.toNat = 2 * i + (!b).toNat)) := by
  have htally := excess_narrow p q ▸ hone
  have hpattern : (narrow p q).pattern = ofWords p.bytes
      (List.zipWith (fun w c ↦ if c = 0 then w else clearPartner w c) p.words (surplus p q)) := by
    rw [narrow]
    exact congrArg Narrowed.pattern (if_pos htally)
  -- The count is one, so there is a bit `n` that is set, and it is the only one.
  obtain ⟨n, hn, hbit⟩ := exists_of_tally_popcount_pos (by omega : 0 < tally _ (surplus p q))
  have hle : tally Word.popcount (surplus p q) ≤ 1 := by omega
  have hunique : ∀ m < 64 * (surplus p q).length, bits (surplus p q) m = decide (m = n) := by
    intro m hm
    rw [Bool.eq_iff_iff, decide_eq_true_iff]
    exact ⟨fun hb ↦ eq_of_tally_popcount_le_one hle hm hn hb hbit, fun e ↦ e ▸ hbit⟩
  rw [length_surplus hbytes] at hn hunique
  have hback : 2 * (n / 2) + (decide (n % 2 = 1)).toNat = n := by
    rcases Nat.mod_two_eq_zero_or_one n with h | h <;> simp [h] <;> omega
  have hboth := bits_surplus hbytes hn
  rw [hbit, bits_words_eq_allows, bits_words_eq_allows, eq_comm, Bool.and_eq_true,
    Bool.not_eq_true'] at hboth
  refine ⟨n / 2, decide (n % 2 = 1), hboth.1, hboth.2, fun j c hp hq ↦ ?_, fun j c ↦ ?_⟩
  · obtain ⟨hlt, hb⟩ := surplus_of_allows hbytes hp hq
    rw [hunique _ hlt, decide_eq_true_iff] at hb
    have hc := c.toNat_le
    refine ⟨by omega, ?_⟩
    cases c <;> simp at hb ⊢ <;> omega
  · have hb := (decide (n % 2 = 1)).toNat_le
    -- The trit of this bit is inside, as past the end both patterns allow everything.
    have hinside : n / 2 < p.width := by
      by_contra hge
      have hge' : q.width ≤ n / 2 := by
        rw [width, ← hbytes]
        exact Nat.le_of_not_lt hge
      exact absurd (hboth.2.symm.trans (allows_of_ge hge' _)) (by decide)
    have hpart : partner n / 2 = n / 2 := by
      unfold partner
      split <;> omega
    have hc := c.toNat_le
    rw [hpattern, allows_ofWords, ← partner_add_toNat, hback]
    by_cases hj : j < p.width
    · have := div_lt_length_words hj c
      rw [bits_clearPartner hbytes hunique (by omega), ← allows_eq_bits,
        decide_eq_false (show ¬ p.bytes * tritsPerByte ≤ j from Nat.not_le.2 hj), Bool.or_false]
    · have hge : p.width ≤ j := Nat.le_of_not_lt hj
      rw [decide_eq_true (show p.bytes * tritsPerByte ≤ j from hge), Bool.or_true,
        allows_of_ge hge, decide_eq_false (by omega)]
      rfl

theorem bytes_narrow (p q : Pattern) : (narrow p q).pattern.bytes = p.bytes := by
  rw [narrow]
  exact apply_ite (fun n : Narrowed ↦ n.pattern.bytes) .. |>.trans (ite_self _)

/-- Nothing is narrowed unless there is just one surplus bit. -/
theorem narrow_of_excess_ne_one (hne : (narrow p q).excess ≠ 1) : (narrow p q).pattern = p := by
  rw [excess_narrow] at hne
  rw [narrow]
  exact congrArg Narrowed.pattern (if_neg hne)

/-- **A surplus of one bit makes the new pattern the difference**, also when the other pattern lies
partly outside or has a conflict. -/
theorem matches_narrow (hbytes : p.bytes = q.bytes) (hone : (narrow p q).excess = 1) :
    (narrow p q).pattern.Matches h ↔ p.Matches h ∧ ¬ q.Matches h := by
  obtain ⟨i, b, hpi, hqi, hunique, hallows⟩ := allows_narrow hbytes hone
  simp only [matches_iff, hallows, Bool.and_eq_true, Bool.not_eq_true', decide_eq_false_iff_not]
  constructor
  · intro hall
    refine ⟨fun j ↦ (hall j).1, fun hq ↦ ?_⟩
    have hne := (hall i).2
    have hib : h i = b := by
      cases hh : h i <;> cases b <;> simp_all
    rw [← hib, hq i] at hqi
    exact absurd hqi (by decide)
  · rintro ⟨hp, hq⟩ j
    refine ⟨hp j, fun heq ↦ ?_⟩
    obtain ⟨k, hk⟩ := not_forall.1 hq
    obtain ⟨rfl, hkb⟩ := hunique k (h k) (hp k) (by simpa using hk)
    have hj : j = k := by
      have h₁ := (h j).toNat_le
      have h₂ := (!b).toNat_le
      omega
    rw [hj, hkb] at heq
    cases b <;> simp at heq

/-- Narrowing makes no conflict, as the value in surplus stays. -/
theorem hasConflict_narrow (hbytes : p.bytes = q.bytes) (hp : p.hasConflict = false) :
    (narrow p q).pattern.hasConflict = false := by
  by_cases hone : (narrow p q).excess = 1
  · obtain ⟨i, b, hpi, -, -, hallows⟩ := allows_narrow hbytes hone
    rw [hasConflict_eq_false_iff] at *
    intro j
    simp only [hallows, Bool.and_eq_true, Bool.not_eq_true', decide_eq_false_iff_not]
    by_cases hj : j = i
    · subst hj
      cases b <;> simp [hpi]
    · have hj' : ∀ c : Bool, ¬ 2 * j + c.toNat = 2 * i + (!b).toNat := by
        intro c
        have h₁ := c.toNat_le
        have h₂ := (!b).toNat_le
        omega
      exact (hp j).imp (⟨·, hj' _⟩) (⟨·, hj' _⟩)
  · rwa [narrow_of_excess_ne_one hone]

/-! ### Pairs -/

/-- What a pairing leaves of its two operands. -/
def Pairing.kept (p q : Pattern) : Pairing → List Pattern
  | .neither => []
  | .first => [p]
  | .second => [q]
  | .both => [p, q]
  | .merged m => [m]

/-- **A pairing keeps the union of the two covers**, with every mask. -/
theorem exists_mem_kept_combine (hbytes : p.bytes = q.bytes) (mask : Option Pattern) :
    (∃ m ∈ (combine p q mask).kept p q, m.Matches h) ↔ p.Matches h ∨ q.Matches h := by
  rw [combine]
  rcases hp : p.hasConflict with - | -
  · rcases hq : q.hasConflict with - | -
    · dsimp only
      split
      · rename_i hw
        simpa [Pairing.kept] using matches_of_within hbytes.symm hw
      split
      · rename_i hw
        simpa [Pairing.kept] using matches_of_within hbytes hw
      split
      · simp [Pairing.kept]
      · cases hj : join? p q with
        | none => simp [Pairing.kept]
        | some m => simpa [Pairing.kept] using matches_of_join?_eq_some hbytes hj
    · simp [Pairing.kept, not_matches_of_hasConflict hq]
  · rcases hq : q.hasConflict with - | -
    · simp [Pairing.kept, not_matches_of_hasConflict hp]
    · simp [Pairing.kept, not_matches_of_hasConflict hp, not_matches_of_hasConflict hq]

/-- A pairing of a pattern without conflict keeps something. -/
theorem combine_ne_neither (hp : p.hasConflict = false) (mask : Option Pattern) :
    combine p q mask ≠ .neither := by
  rw [combine, hp]
  cases q.hasConflict with
  | true => simp
  | false =>
    dsimp only
    split
    · simp
    split
    · simp
    split
    · simp
    · cases join? p q <;> simp

/-- A merge has the length of its operands and no conflict. -/
theorem combine_eq_merged {m : Pattern} {mask : Option Pattern}
    (hm : combine p q mask = .merged m) : m.bytes = p.bytes ∧ m.hasConflict = false := by
  rw [combine] at hm
  cases hp : p.hasConflict with
  | true => cases hq : q.hasConflict <;> rw [hp, hq] at hm <;> exact absurd hm (by simp)
  | false =>
    cases hq : q.hasConflict with
    | true =>
      rw [hp, hq] at hm
      exact absurd hm (by simp)
    | false =>
      rw [hp, hq] at hm
      dsimp only at hm
      split at hm
      · exact absurd hm (by simp)
      split at hm
      · exact absurd hm (by simp)
      split at hm
      · exact absurd hm (by simp)
      cases hj : join? p q with
      | none =>
        rw [hj] at hm
        exact absurd hm (by simp)
      | some m' =>
        rw [hj] at hm
        obtain rfl := Pairing.merged.inj hm
        obtain ⟨rfl, hc, -, -⟩ := join?_eq_some hj
        exact ⟨rfl, hc⟩

/-! ### Lists -/

/-- The header matches some pattern of the list. -/
def MatchesAny (ps : List Pattern) (h : Nat → Bool) : Prop := ∃ p ∈ ps, p.Matches h

@[simp] theorem matchesAny_nil : ¬ MatchesAny [] h := by simp [MatchesAny]

@[simp] theorem matchesAny_cons {ps : List Pattern} :
    MatchesAny (p :: ps) h ↔ p.Matches h ∨ MatchesAny ps h := by
  simp [MatchesAny]

@[simp] theorem matchesAny_append {ps qs : List Pattern} :
    MatchesAny (ps ++ qs) h ↔ MatchesAny ps h ∨ MatchesAny qs h := by
  simp [MatchesAny, or_and_right, exists_or]

/-- What sifting a pattern through accepted ones achieves. -/
structure Sifts (v : Pattern) (accepted : List Pattern) (s : Sifted) : Prop where
  /-- Nothing is lost and nothing added. -/
  cover : ∀ h, MatchesAny s.accepted h ∨ MatchesAny s.merged.toList h ∨
    (s.survives = true ∧ v.Matches h) ↔ MatchesAny accepted h ∨ v.Matches h
  /-- The remaining patterns were there before. -/
  subset : ∀ a ∈ s.accepted, a ∈ accepted
  /-- A merged pattern is as good as the others. -/
  merged : ∀ m ∈ s.merged.toList, m.Solid v.bytes
  /-- A merged pattern takes the place of an accepted one. -/
  length_le : s.accepted.length + s.merged.toList.length ≤ accepted.length
  /-- A pattern that was merged does not survive. -/
  merged_eq_none : s.survives = true → s.merged = none

/-- **Sifting a pattern keeps the union of the covers.** -/
theorem sift_spec (mask : Option Pattern) {v : Pattern} {accepted : List Pattern}
    (ha : ∀ a ∈ accepted, a.Solid v.bytes) :
    ∃ s, sift v mask accepted = .ok s ∧ Sifts v accepted s := by
  induction accepted with
  | nil => exact ⟨_, rfl, ⟨by simp, by simp, by simp, by simp, by simp⟩⟩
  | cons a rest ih =>
    obtain ⟨⟨hbytes, hconflict⟩, hrest⟩ := List.forall_mem_cons.1 ha
    have hkept : ∀ h, (∃ m ∈ (combine a v mask).kept a v, m.Matches h) ↔
        a.Matches h ∨ v.Matches h :=
      fun h ↦ exists_mem_kept_combine hbytes mask
    rw [sift, pairing_eq hbytes]
    cases hc : combine a v mask with
    | neither => exact absurd hc (combine_ne_neither hconflict mask)
    | first =>
      refine ⟨_, rfl, ⟨fun h ↦ ?_, by simp, by simp, by simp, by simp⟩⟩
      have := hkept h
      simp only [hc, Pairing.kept, List.mem_singleton, exists_eq_left] at this
      simp only [matchesAny_cons, Option.toList_none, matchesAny_nil, Bool.false_eq_true,
        false_and, or_false, or_right_comm, ← this]
    | second =>
      obtain ⟨s, hs, hsift⟩ := ih hrest
      refine ⟨s, hs, ⟨fun h ↦ ?_, fun b hb ↦ List.mem_cons_of_mem _ (hsift.subset b hb),
        hsift.merged, Nat.le_succ_of_le hsift.length_le, hsift.merged_eq_none⟩⟩
      have := hkept h
      simp only [hc, Pairing.kept, List.mem_singleton, exists_eq_left] at this
      rw [hsift.cover, matchesAny_cons, or_right_comm, ← this, or_comm]
    | both =>
      obtain ⟨s, hs, hsift⟩ := ih hrest
      refine ⟨{ s with accepted := a :: s.accepted }, ?_, ⟨fun h ↦ ?_, ?_, hsift.merged, ?_,
        hsift.merged_eq_none⟩⟩
      · show (sift v mask rest >>= _) = _
        rw [hs]
        rfl
      · simp only [matchesAny_cons, or_assoc, hsift.cover h]
      · intro b hb
        rcases List.mem_cons.1 hb with rfl | hb
        · exact List.mem_cons_self
        · exact List.mem_cons_of_mem _ (hsift.subset b hb)
      · have := hsift.length_le
        simp only [List.length_cons]
        omega
    | merged m =>
      obtain ⟨hm, hmc⟩ := combine_eq_merged hc
      refine ⟨_, rfl, ⟨fun h ↦ ?_, fun b hb ↦ List.mem_cons_of_mem _ hb, ?_, by simp, by simp⟩⟩
      · have := hkept h
        simp only [hc, Pairing.kept, List.mem_singleton, exists_eq_left] at this
        simp only [Option.toList_some, matchesAny_cons, matchesAny_nil, or_false,
          Bool.false_eq_true, false_and, this]
        tauto
      · intro r hr
        obtain rfl := List.mem_singleton.1 hr
        exact ⟨hm.trans hbytes, hmc⟩

/-- Working off the queue keeps the cover, if there are steps enough: a step takes one pattern from
the queue, and a merged pattern that comes back has cost an accepted one. -/
theorem condenseQueue_spec (mask : Option Pattern) {bytes : Nat} {steps : Nat}
    {queue accepted : List Pattern} (hsteps : 2 * queue.length + accepted.length ≤ steps)
    (hq : ∀ p ∈ queue, p.Solid bytes) (ha : ∀ p ∈ accepted, p.Solid bytes) :
    ∃ out, condenseQueue mask steps queue accepted = .ok out ∧ (∀ p ∈ out, p.Solid bytes) ∧
      ∀ h, MatchesAny out h ↔ MatchesAny queue h ∨ MatchesAny accepted h := by
  induction steps generalizing queue accepted with
  | zero =>
    have hnil : queue = [] := List.eq_nil_of_length_eq_zero (by omega)
    exact ⟨accepted, rfl, ha, fun h ↦ by simp [hnil]⟩
  | succ steps ih =>
    cases queue with
    | nil => exact ⟨accepted, rfl, ha, fun h ↦ by simp⟩
    | cons v queue =>
      obtain ⟨⟨hbytes, hconflict⟩, hq'⟩ := List.forall_mem_cons.1 hq
      obtain ⟨s, hs, hsift⟩ := sift_spec mask (v := v) (hbytes.symm ▸ ha)
      have hremain : ∀ p ∈ s.accepted, p.Solid bytes := fun b hb ↦ ha b (hsift.subset b hb)
      have hmerged : ∀ p ∈ s.merged.toList, p.Solid bytes := hbytes ▸ hsift.merged
      have hlen := hsift.length_le
      have haccepted : ∀ p ∈ if s.survives then s.accepted ++ [v] else s.accepted,
          p.Solid bytes := by
        split
        · exact List.forall_mem_append.2 ⟨hremain, by simpa using ⟨hbytes, hconflict⟩⟩
        · exact hremain
      -- A pattern that survives comes with no merge; one that does not may leave a merge, for an
      -- accepted pattern less.
      have hmeasure : 2 * (queue ++ s.merged.toList).length +
          (if s.survives then s.accepted ++ [v] else s.accepted).length ≤ steps := by
        rw [List.length_append]
        rw [List.length_cons] at hsteps
        split
        · rename_i hsurvives
          rw [hsift.merged_eq_none hsurvives] at hlen ⊢
          simp only [Option.toList_none, List.length_nil, List.length_append,
            List.length_singleton] at hlen ⊢
          omega
        · have := Option.length_toList_le (o := s.merged)
          omega
      obtain ⟨out, hout, hsolid, hcover⟩ := ih hmeasure
        (List.forall_mem_append.2 ⟨hq', hmerged⟩) haccepted
      refine ⟨out, ?_, hsolid, fun h ↦ ?_⟩
      · rw [condenseQueue, hs]
        exact hout
      · have hsurv : MatchesAny (if s.survives then s.accepted ++ [v] else s.accepted) h ↔
            MatchesAny s.accepted h ∨ (s.survives = true ∧ v.Matches h) := by
          split <;> simp_all
        have key := hsift.cover h
        rw [hcover, hsurv, matchesAny_append, matchesAny_cons, or_assoc,
          or_left_comm (a := MatchesAny s.merged.toList h), key]
        exact (or_assoc.symm.trans or_comm).trans or_assoc.symm

/-- **Condensing a list of patterns of one length keeps the union of their covers**, and leaves no
pattern with a conflict. -/
theorem condense_spec (mask : Option Pattern) {bytes : Nat} {input : List Pattern}
    (hbytes : ∀ p ∈ input, p.bytes = bytes) :
    ∃ out, condense mask input = .ok out ∧ (∀ p ∈ out, p.Solid bytes) ∧
      ∀ h, MatchesAny out h ↔ MatchesAny input h := by
  have hsolid : ∀ p ∈ input.filter fun v ↦ !v.hasConflict, p.Solid bytes := by
    intro p hp
    obtain ⟨hmem, hc⟩ := List.mem_filter.1 hp
    exact ⟨hbytes p hmem, by simpa using hc⟩
  obtain ⟨out, hout, hout_solid, hcover⟩ :=
    condenseQueue_spec mask (Nat.le_refl _) hsolid (List.forall_mem_nil _)
  refine ⟨out, hout, hout_solid, fun h ↦ (hcover h).trans ?_⟩
  rw [or_iff_left matchesAny_nil]
  constructor
  · rintro ⟨p, hp, hm⟩
    exact ⟨p, List.mem_of_mem_filter hp, hm⟩
  · rintro ⟨p, hp, hm⟩
    refine ⟨p, List.mem_filter.2 ⟨hp, ?_⟩, hm⟩
    rw [exists_matches_iff.1 ⟨h, hm⟩]
    rfl

end HeaderFlow.Pattern
