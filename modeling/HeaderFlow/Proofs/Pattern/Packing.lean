import HeaderFlow.Proofs.Pattern.Overwrite

/-!
# Packed words

The type of patterns promises as many words as the trits need, and wildcards in what the last word
does not use. Operations on patterns keep the promise by packing their result anew. Here it is shown
that **hardly any of them would have to**: `Built` generates lists of words by the formulas alone,
and mends the last word only where a list is filled, grown or overwritten. Still these lists are
packed (`packed_of_built`), and they are exactly the words of patterns (`built_iff`).

So the words of an intersection, of a union of neighbours, of a trit-wise conjunction or negation
are those that the formula yields, and no bit of the padding ever reaches a trit (`words_meet` and
so on).
-/

namespace HeaderFlow.Pattern

variable {p q r : Pattern} {bytes more i : Nat} {ws vs ms : List UInt64}

/-- There are as many words as the trits need, and after the last trit there are only wildcards. -/
structure Packed (bytes : Nat) (ws : List UInt64) : Prop where
  length : ws.length = (8 * bytes + 31) / 32
  padding : ∀ i w, 8 * bytes ≤ i → ws[i / 32]? = some w → Word.trit w (i % 32) = .wild

/-- Makes wild what the last word does not use. -/
def mend (bytes : Nat) (ws : List UInt64) : List UInt64 :=
  ws.modify (ws.length - 1) fun w ↦ w ||| ~~~(usedBits bytes (ws.length - 1))

/-- The bits of `w` that are not in `v`, if there is just one, decide which bit is cleared. -/
def narrowWords (ws vs : List UInt64) : List UInt64 :=
  List.zipWith (fun w c ↦ if c = 0 then w else clearPartner w c) ws
    (List.zipWith (fun w v ↦ w &&& ~~~v) ws vs)

/-- The lists of words that the operations build, each by its formula. -/
inductive Built : (bytes : Nat) → List UInt64 → Prop
  | fill (bytes : Nat) (t : Trit) :
    Built bytes (mend bytes (List.replicate (wordCount bytes) (Word.fill t)))
  | put {bytes : Nat} {ws : List UInt64} {i : Nat} (t : Trit) : Built bytes ws → i < 8 * bytes →
    Built bytes (ws.modify (i / 32) fun w ↦ Word.put w (i % 32) t)
  | grow {bytes more : Nat} {ws : List UInt64} : Built bytes ws → bytes < more →
    Built more (mend more (resize (wordCount more) ws))
  | overwrite {bytes : Nat} {ws ms vs : List UInt64} : Built bytes ws → Built bytes ms →
    Built bytes vs →
    Built bytes (mend bytes (List.zipWith (fun (w, m) v ↦ Word.select m w v) (ws.zip ms) vs))
  | meet {bytes : Nat} {ws vs : List UInt64} : Built bytes ws → Built bytes vs →
    Built bytes (List.zipWith (fun w v ↦ w &&& v) ws vs)
  | join {bytes : Nat} {ws vs : List UInt64} : Built bytes ws → Built bytes vs →
    Built bytes (List.zipWith (fun w v ↦ (w &&& v) ||| (w ^^^ v)) ws vs)
  | narrow {bytes : Nat} {ws vs : List UInt64} : Built bytes ws → Built bytes vs →
    tally Word.popcount (List.zipWith (fun w v ↦ w &&& ~~~v) ws vs) = 1 →
    Built bytes (narrowWords ws vs)
  | and {bytes : Nat} {ws vs : List UInt64} : Built bytes ws → Built bytes vs →
    Built bytes (List.zipWith Word.and ws vs)
  | not {bytes : Nat} {ws : List UInt64} : Built bytes ws → Built bytes (ws.map Word.not)

/-! ### Packed lists are the words of patterns -/

/-- How many words the trits of some bytes need. -/
theorem wordCount_eq (bytes : Nat) : wordCount bytes = (8 * bytes + 31) / 32 := by
  rw [wordCount, tritsPerByte, Word.tritsPerWord]
  omega

/-- A trit is wild exactly when both its bits are set. -/
theorem trit_eq_wild_iff {w : UInt64} {k : Nat} (hk : k < Word.tritsPerWord) :
    Word.trit w k = .wild ↔ ∀ b : Bool, Word.bit w (2 * k + b.toNat) = true := by
  simp only [← Word.allows_trit hk, Bool.forall_bool]
  cases Word.trit w k <;> decide

/-- A list is packed if it has the right length and all bits past the last trit are set. -/
theorem packed_iff : Packed bytes ws ↔
    ws.length = wordCount bytes ∧ ∀ n, 16 * bytes ≤ n → bits ws n = true := by
  have hplace : ∀ i, i % 32 < Word.tritsPerWord := fun i ↦ Nat.mod_lt i (by decide)
  constructor
  · rintro ⟨hlen, hpad⟩
    refine ⟨hlen.trans (wordCount_eq bytes).symm, fun n hn ↦ ?_⟩
    by_cases hlt : n / 64 < ws.length
    · have hword : ws[n / 2 / 32]? = some ws[n / 64] := by
        rw [show n / 2 / 32 = n / 64 by omega, List.getElem?_eq_getElem hlt]
      have hbit := (trit_eq_wild_iff (hplace _)).1 (hpad (n / 2) _ (by omega) hword)
        (decide (n % 2 = 1))
      rw [bits_of_getElem? (List.getElem?_eq_getElem hlt)]
      convert hbit using 2
      rcases Nat.mod_two_eq_zero_or_one n with h | h <;> simp [h] <;> omega
    · exact bits_of_ge (Nat.le_of_not_lt hlt)
  · rintro ⟨hlen, hpad⟩
    refine ⟨hlen.trans (wordCount_eq bytes), fun i w hi hw ↦
      (trit_eq_wild_iff (hplace i)).2 fun b ↦ ?_⟩
    have hb := b.toNat_le
    have hn := hpad (2 * i + b.toNat) (by omega)
    rw [bits_of_getElem? (w := w) (by rw [← hw]; congr 1; omega)] at hn
    convert hn using 2
    omega

/-- **Packing anew leaves a packed list as it is.** -/
theorem Packed.words_ofWords (h : Packed bytes ws) : (ofWords bytes ws).words = ws := by
  obtain ⟨hlen, hpad⟩ := packed_iff.1 h
  refine words_ext ((ofWords bytes ws).length_words.trans hlen.symm) fun n ↦ ?_
  rw [bits_ofWords, tritsPerByte]
  by_cases hn : 2 * (bytes * 8) ≤ n
  · rw [hpad n (by omega), Bool.true_or]
  · rw [decide_eq_false hn, Bool.or_false]

/-- The words of a pattern are packed. -/
theorem packed_words (p : Pattern) : Packed p.bytes p.words :=
  packed_iff.2 ⟨p.length_words, fun n hn ↦ bits_words_of_ge (by rw [width, tritsPerByte]; omega)⟩

/-- Only the last word of a list has anything to mend. -/
theorem mend_eq_pad (h : ws.length = wordCount bytes) : mend bytes ws = pad bytes ws := by
  rw [wordCount_eq] at h
  refine List.ext_getElem? fun i ↦ ?_
  rw [mend, List.getElem?_modify, getElem?_pad]
  cases hw : ws[i]? with
  | none => rfl
  | some w =>
    have hlt : i < ws.length := (List.getElem?_eq_some_iff.1 hw).1
    by_cases hi : ws.length - 1 = i
    · simp [hi]
    · have hfull : usedBits bytes i = Word.allWild := by
        rw [usedBits, Word.firstPlaces, tritsPerByte, Word.tritsPerWord, if_pos (by omega)]
      have hnone : ~~~Word.allWild = 0 := by decide
      simp [hi, hfull, hnone]

/-- Packing a list of the right length mends it and does no more. -/
theorem words_ofWords (h : ws.length = wordCount bytes) :
    (ofWords bytes ws).words = mend bytes ws := by
  have hresize : resize (wordCount bytes) ws = ws := by
    rw [resize, ← h, List.take_length, Nat.sub_self, List.replicate_zero, List.append_nil]
  simp only [mend_eq_pad h, ofWords, hresize]

/-- A list of the right length is packed when it was mended. -/
theorem packed_mend (h : ws.length = wordCount bytes) : Packed bytes (mend bytes ws) :=
  words_ofWords h ▸ packed_words (ofWords bytes ws)

/-! ### What needs no mending -/

/-- Packed lists for one length have as many words. -/
theorem Packed.length_eq (hws : Packed bytes ws) (hvs : Packed bytes vs) : ws.length = vs.length :=
  hws.length.trans hvs.length.symm

/-- Words combined pair by pair are packed if wildcards combine to wildcards. -/
theorem packed_zipWith {f : UInt64 → UInt64 → UInt64} (hws : Packed bytes ws)
    (hvs : Packed bytes vs)
    (hf : ∀ v w k, k < Word.tritsPerWord → (∀ b : Bool, Word.bit v (2 * k + b.toNat) = true) →
      (∀ b : Bool, Word.bit w (2 * k + b.toNat) = true) →
        ∀ b : Bool, Word.bit (f v w) (2 * k + b.toNat) = true) :
    Packed bytes (List.zipWith f ws vs) := by
  refine ⟨?_, fun i u hi hu ↦ ?_⟩
  · rw [List.length_zipWith, hws.length_eq hvs, Nat.min_self, hvs.length]
  · have hplace : i % 32 < Word.tritsPerWord := Nat.mod_lt i (by decide)
    obtain ⟨w, v, hw, hv, rfl⟩ := List.getElem?_zipWith_eq_some.1 hu
    have hwild := (trit_eq_wild_iff hplace).1 (hws.padding i w hi hw)
    have hwild' := (trit_eq_wild_iff hplace).1 (hvs.padding i v hi hv)
    exact (trit_eq_wild_iff hplace).2 (hf w v _ hplace hwild hwild')

/-- Exchanging the bits of each trit keeps a list packed. -/
theorem packed_not (hws : Packed bytes ws) : Packed bytes (ws.map Word.not) := by
  refine ⟨(List.length_map _).trans hws.length, fun i u hi hu ↦ ?_⟩
  have hplace : i % 32 < Word.tritsPerWord := Nat.mod_lt i (by decide)
  rw [List.getElem?_map, Option.map_eq_some_iff] at hu
  obtain ⟨w, hw, rfl⟩ := hu
  have hwild := (trit_eq_wild_iff hplace).1 (hws.padding i w hi hw)
  refine (trit_eq_wild_iff hplace).2 fun b ↦ ?_
  rw [Word.bit_negation hplace, hwild]

/-- Writing a trit inside keeps a list packed. -/
theorem packed_put (hws : Packed bytes ws) (hi : i < 8 * bytes) (t : Trit) :
    Packed bytes (ws.modify (i / 32) fun w ↦ Word.put w (i % 32) t) := by
  refine ⟨(List.length_modify ..).trans hws.length, fun j u hj hu ↦ ?_⟩
  have hplace : ∀ k, k % 32 < Word.tritsPerWord := fun k ↦ Nat.mod_lt k (by decide)
  rw [List.getElem?_modify, Option.map_eq_map, Option.map_eq_some_iff] at hu
  obtain ⟨w, hw, rfl⟩ := hu
  have hwild := (trit_eq_wild_iff (hplace j)).1 (hws.padding j w hj hw)
  refine (trit_eq_wild_iff (hplace j)).2 fun b ↦ ?_
  split
  · rw [Word.bit_put (hplace i) (hplace j), if_neg (by omega), hwild]
  · exact hwild b

/-- The one surplus bit belongs to a trit, so its partner is not padding either. -/
theorem packed_narrow (hws : Packed bytes ws) (hvs : Packed bytes vs)
    (hone : tally Word.popcount (List.zipWith (fun w v ↦ w &&& ~~~v) ws vs) = 1) :
    Packed bytes (narrowWords ws vs) := by
  set p := ofWords bytes ws with hp
  set q := ofWords bytes vs with hq
  have hpw : p.words = ws := hws.words_ofWords
  have hqw : q.words = vs := hvs.words_ofWords
  have hsurplus : surplus p q = List.zipWith (fun w v ↦ w &&& ~~~v) ws vs := by
    rw [surplus, hpw, hqw]
  rw [← hsurplus] at hone
  obtain ⟨n, hn, hbit⟩ := exists_of_tally_popcount_pos (by omega : 0 < tally _ (surplus p q))
  have hunique : ∀ m < 64 * (surplus p q).length, bits (surplus p q) m = decide (m = n) := by
    intro m hm
    rw [Bool.eq_iff_iff, decide_eq_true_iff]
    exact ⟨fun hb ↦ eq_of_tally_popcount_le_one (by omega) hm hn hb hbit, fun e ↦ e ▸ hbit⟩
  have hbytes : p.bytes = q.bytes := rfl
  rw [length_surplus hbytes] at hn hunique
  have hinside : n < 16 * bytes := by
    by_contra hge
    rw [bits_surplus hbytes hn, hqw, (packed_iff.1 hvs).2 n (by omega), Bool.not_true,
      Bool.and_false] at hbit
    exact absurd hbit (by decide)
  refine packed_iff.2 ⟨?_, fun m hm ↦ ?_⟩
  · rw [narrowWords, List.length_zipWith, List.length_zipWith, hws.length_eq hvs, Nat.min_self,
      Nat.min_self, hvs.length, wordCount_eq]
  · by_cases hlt : m < 64 * p.words.length
    · have hclear := bits_clearPartner hbytes hunique hlt
      rw [hpw, hsurplus, (packed_iff.1 hws).2 m hm] at hclear
      rw [narrowWords, hclear, Bool.true_and, Bool.not_eq_true', decide_eq_false_iff_not, partner]
      split <;> omega
    · refine bits_of_ge ?_
      rw [narrowWords, List.length_zipWith, List.length_zipWith]
      rw [hpw] at hlt
      omega

/-- **Every list that the operations build is packed.** -/
theorem packed_of_built (h : Built bytes ws) : Packed bytes ws := by
  induction h with
  | fill bytes t => exact packed_mend List.length_replicate
  | put t _ hi ih => exact packed_put ih hi t
  | grow _ _ _ => exact packed_mend (length_resize ..)
  | @overwrite bytes ws ms vs _ _ _ hws hms hvs =>
    refine packed_mend ?_
    rw [List.length_zipWith, List.length_zip, hws.length_eq hms, Nat.min_self, hms.length_eq hvs,
      Nat.min_self, hvs.length, wordCount_eq]
  | meet _ _ hws hvs =>
    exact packed_zipWith hws hvs fun v w k _ hv hw b ↦ by rw [Word.bit_and, hv, hw]; rfl
  | join _ _ hws hvs =>
    exact packed_zipWith hws hvs fun v w k _ hv hw b ↦ by
      rw [Word.bit_or, Word.bit_and, hv, hw]
      rfl
  | narrow _ _ hone hws hvs => exact packed_narrow hws hvs hone
  | and _ _ hws hvs =>
    refine packed_zipWith hws hvs fun v w k hk hv hw b ↦ ?_
    have h₀ := hv false
    have h₁ := hv true
    have h₁' := hw true
    rw [Bool.toNat_false, Nat.add_zero] at h₀
    rw [Bool.toNat_true] at h₁ h₁'
    rw [Word.bit_conjunction hk, h₀, h₁, h₁']
    cases b <;> rfl
  | not _ hws => exact packed_not hws

/-! ### Every pattern is built -/

/-- Writing a trit changes one word. -/
theorem words_put (p : Pattern) {i : Nat} (hi : i < p.width) (t : Trit) :
    (p.put i t).words = p.words.modify (i / 32) fun w ↦ Word.put w (i % 32) t :=
  (packed_put (packed_words p) (by rwa [width, tritsPerByte, Nat.mul_comm] at hi) t).words_ofWords

/-- A pattern of wildcards is built by filling. -/
theorem built_allWild (bytes : Nat) : Built bytes (allWild bytes).words := by
  rw [allWild, fill, words_ofWords List.length_replicate]
  exact .fill bytes .wild

/-- Trits are written one after the other. -/
theorem built_putAll (hp : Built p.bytes p.words) {i : Nat} {ts : List Trit}
    (h : i + ts.length ≤ p.width) : Built p.bytes (p.putAll i ts).words := by
  induction ts generalizing p i with
  | nil => exact hp
  | cons t ts ih =>
    rw [List.length_cons] at h
    have hi : i < 8 * p.bytes := by
      rw [width, tritsPerByte] at h
      omega
    refine ih (p := p.put i t) ?_ (by rw [width, bytes_put, ← width]; omega)
    rw [words_put p (by omega)]
    exact .put t hp hi

/-- A pattern is its trits, written one after the other into wildcards. -/
theorem built_words (p : Pattern) : Built p.bytes p.words := by
  have hlen : p.toTrits.length = p.width := by rw [toTrits, List.length_map, List.length_range]
  rw [← putAll_toTrits p, bytes_putAll]
  exact built_putAll (built_allWild _) (by rw [hlen, Nat.zero_add]; exact Nat.le_refl _)

/-- **The lists that the operations build are the words of the patterns.** -/
theorem built_iff : Built bytes ws ↔ ∃ p : Pattern, p.bytes = bytes ∧ p.words = ws := by
  constructor
  · exact fun h ↦ ⟨ofWords bytes ws, rfl, (packed_of_built h).words_ofWords⟩
  · rintro ⟨p, rfl, rfl⟩
    exact built_words p

/-! ### The operations yield the words of their formulas -/

/-- A list that the operations build is not changed by packing. -/
theorem words_of_built (h : Built bytes ws) : (ofWords bytes ws).words = ws :=
  (packed_of_built h).words_ofWords

/-- The words of an intersection are conjunctions of bits. -/
theorem words_meet (hq : q.bytes = p.bytes) :
    (meet p q).words = List.zipWith (fun w v ↦ w &&& v) p.words q.words :=
  words_of_built (.meet (built_words p) (hq ▸ built_words q))

/-- The words of a union of neighbours, by the formula. -/
theorem words_join (hq : q.bytes = p.bytes) :
    (join p q).words = List.zipWith (fun w v ↦ (w &&& v) ||| (w ^^^ v)) p.words q.words :=
  words_of_built (.join (built_words p) (hq ▸ built_words q))

/-- The words of a trit-wise conjunction, by the formula. -/
theorem words_zipWords_and (hq : q.bytes = p.bytes) :
    (zipWords Word.and p q).words = List.zipWith Word.and p.words q.words :=
  words_of_built (.and (built_words p) (hq ▸ built_words q))

/-- The words of a negation, by the formula. -/
theorem words_not (p : Pattern) : p.not.words = p.words.map Word.not :=
  words_of_built (.not (built_words p))

/-- The words of a narrowed pattern: one bit is cleared, or none. -/
theorem words_narrow (hq : q.bytes = p.bytes) :
    (narrow p q).pattern.words =
      if (narrow p q).excess = 1 then narrowWords p.words q.words else p.words := by
  rw [excess_narrow, surplus]
  split
  · rename_i hone
    have hpattern : (narrow p q).pattern = ofWords p.bytes (narrowWords p.words q.words) := by
      rw [narrow]
      exact congrArg Narrowed.pattern (if_pos hone)
    rw [hpattern]
    exact words_of_built (.narrow (built_words p) (hq ▸ built_words q) hone)
  · rename_i hmore
    rw [narrow]
    exact congrArg (fun o : Narrowed ↦ o.pattern.words) (if_neg hmore)

/-- The words of an overwritten pattern, of which the last has to be mended. -/
theorem words_replaceMasked {mask value : Pattern} (hmask : mask.bytes = p.bytes)
    (hvalue : value.bytes = p.bytes) :
    (p.replaceMasked mask value).pattern.words =
      mend p.bytes (List.zipWith (fun (w, m) v ↦ Word.select m w v) (p.words.zip mask.words)
        value.words) := by
  refine words_ofWords ?_
  rw [List.length_zipWith, List.length_zip, length_words_eq hmask, Nat.min_self,
    length_words_eq hvalue, Nat.min_self, p.length_words]

/-- The words of a widened pattern, of which the last has to be mended. -/
theorem words_enlarge (h : p.bytes < more) :
    (p.enlarge more).words = mend more (resize (wordCount more) p.words) := by
  rw [enlarge, enlargeWith, if_neg (Nat.not_le.2 h), mend_eq_pad (length_resize ..)]
  rfl

/-- New trits that are not wild are written one by one. -/
theorem enlargeWith_eq_putAll (h : p.bytes < more) (t : Trit) :
    p.enlargeWith more t =
      (p.enlarge more).putAll (8 * p.bytes) (List.replicate (8 * more - 8 * p.bytes) t) := by
  have hbytes : (p.enlarge more).bytes = more := by
    rw [bytes_enlarge]
    omega
  have hwidth : p.width = 8 * p.bytes := Nat.mul_comm ..
  refine eq_of_allows (by rw [bytes_enlargeWith, bytes_putAll, bytes_enlarge]) fun i b ↦ ?_
  rw [allows_putAll _ _ _ _ (by rw [width, hbytes, tritsPerByte]; omega), allows_enlargeWith,
    allows_enlarge, tritsPerByte, hwidth,
    show 8 * p.bytes + (8 * more - 8 * p.bytes) = more * 8 by omega]

/-- The words of the results, by the formulas that `Built` goes by. -/
structure Wordwise (p q r : Pattern) : Prop where
  /-- Writing a trit touches one word. -/
  set : ∀ i t s, p.set i t = .ok s → s.words = p.words.modify (i / 32) fun w ↦ Word.put w (i % 32) t
  /-- Growing adds wild words and mends the last. -/
  enlarge : ∀ more, p.bytes < more → (p.enlarge more).words =
    mend more (resize (wordCount more) p.words)
  /-- Other trits than wild ones are then written one by one. -/
  enlargeWith : ∀ more t, p.bytes < more → p.enlargeWith more t =
    (p.enlarge more).putAll (8 * p.bytes) (List.replicate (8 * more - 8 * p.bytes) t)
  /-- The words of an intersection. -/
  intersect : ∀ m, p.intersect q = .ok (some m) →
    m.words = List.zipWith (fun w v ↦ w &&& v) p.words q.words
  /-- The words of a union of neighbours. -/
  merge : ∀ m, p.merge q = .ok (some m) →
    m.words = List.zipWith (fun w v ↦ (w &&& v) ||| (w ^^^ v)) p.words q.words
  /-- The words of a pattern from which another was subtracted. -/
  subtractBit : ∀ o, p.subtractBit q = .ok o →
    o.pattern.words = if o.excess = 1 then narrowWords p.words q.words else p.words
  /-- The words of a pattern that was overwritten. -/
  overwrite : ∀ o, p.overwrite q r = .ok o → o.pattern.words = mend p.bytes
    (List.zipWith (fun (w, m) v ↦ Word.select m w v) (p.words.zip q.words) r.words)
  /-- The words of a conjunction. -/
  and : ∀ c, p.and q = .ok c → c.words = List.zipWith Word.and p.words q.words
  /-- The words of a negation. -/
  not : p.not.words = p.words.map Word.not

/-- Each operation yields the words of its formula. -/
theorem wordwise (hq : q.bytes = p.bytes) (hr : r.bytes = p.bytes) : Wordwise p q r where
  set i t s hs := by
    rw [set, checkIndex] at hs
    split at hs
    · obtain rfl := Except.ok.inj hs
      exact words_put p ‹_› t
    · exact absurd hs (by simp [Except.map])
  enlarge _ h := words_enlarge h
  enlargeWith _ t h := enlargeWith_eq_putAll h t
  intersect m hm := by
    obtain ⟨-, hm⟩ := of_intersect_eq_ok hm
    obtain ⟨rfl, -⟩ := meet?_eq_some_iff.1 hm
    exact words_meet hq
  merge m hm := by
    rw [merge_eq hq.symm] at hm
    obtain ⟨rfl, -⟩ := join?_eq_some (Except.ok.inj hm)
    exact words_join hq
  subtractBit o ho := by
    rw [subtractBit_eq hq.symm] at ho
    obtain rfl := Except.ok.inj ho
    exact words_narrow hq
  overwrite o ho := by
    obtain ⟨-, -, rfl⟩ := of_overwrite_eq_ok ho
    exact words_replaceMasked hq hr
  and c hc := by
    rw [and_eq hq.symm] at hc
    obtain rfl := Except.ok.inj hc
    exact words_zipWords_and hq
  not := words_not p

end HeaderFlow.Pattern
