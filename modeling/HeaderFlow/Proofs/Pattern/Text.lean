import HeaderFlow.Pattern.Text
import HeaderFlow.Proofs.Pattern.Trits

/-!
# Patterns and their written form

Reading a pattern drops the separators and writes the trits into wildcards one after the other. So a
text without other characters is read as **the pattern of its trits** (`parse_ofList`), as long as
they fill whole bytes, and the written form of a pattern is read as that pattern (`parse_text`).
-/

namespace HeaderFlow.Pattern

variable {cs : List Char} {ts : List Trit} {h : Nat → Bool}

/-- The character is a separator or the written form of a trit. -/
def IsTritChar (c : Char) : Prop := isSeparator c = true ∨ (Trit.ofChar? c).isSome = true

/-- A separator is no trit. -/
theorem ofChar?_of_isSeparator {c : Char} (hc : isSeparator c = true) : Trit.ofChar? c = none := by
  rw [isSeparator, Bool.or_eq_true, beq_iff_eq, beq_iff_eq] at hc
  rcases hc with rfl | rfl <;> rfl

/-- Separators are skipped. -/
theorem readTrits_eq (hcs : ∀ c ∈ cs, IsTritChar c) (i : Nat) :
    readTrits i cs = .ok (cs.filterMap Trit.ofChar?) := by
  induction cs generalizing i with
  | nil => rfl
  | cons c cs ih =>
    have hrest := ih fun d hd ↦ hcs d (List.mem_cons_of_mem _ hd)
    rw [readTrits, hrest]
    split
    · rename_i hsep
      rw [List.filterMap_cons_none (ofChar?_of_isSeparator hsep)]
    · rename_i hsep
      obtain ⟨t, ht⟩ := Option.isSome_iff_exists.1 ((hcs c List.mem_cons_self).resolve_left hsep)
      rw [ht, List.filterMap_cons_some ht]
      rfl

/-- **A text of trits and separators is read as the pattern of its trits**, if there are whole bytes
of them. -/
theorem parse_ofList (hcs : ∀ c ∈ cs, IsTritChar c) :
    parse (String.ofList cs) =
      if (cs.filterMap Trit.ofChar?).length % tritsPerByte = 0 then
        .ok (ofTrits (cs.filterMap Trit.ofChar?))
      else .error (.partialByte (String.ofList cs) (cs.filterMap Trit.ofChar?).length) := by
  rw [parse, String.toList_ofList, readTrits_eq hcs]
  rfl

/-! ### The pattern of a list of trits -/

@[simp] theorem bytes_ofTrits (ts : List Trit) : (ofTrits ts).bytes = ts.length / tritsPerByte :=
  bytes_putAll ..

/-- The pattern of whole bytes of trits is as long as they are many. -/
theorem width_ofTrits (hts : ts.length % tritsPerByte = 0) : (ofTrits ts).width = ts.length := by
  rw [width, bytes_ofTrits]
  exact Nat.div_mul_cancel (Nat.dvd_of_mod_eq_zero hts)

/-- A trit stands where it was in the list. -/
theorem trit_ofTrits (hts : ts.length % tritsPerByte = 0) {i : Nat} {t : Trit}
    (ht : ts[i]? = some t) : (ofTrits ts).trit i = t := by
  have hallows : ∀ b, (ofTrits ts).allows i b = t.allows b := by
    intro b
    have hle : 0 + ts.length ≤ (allWild (ts.length / tritsPerByte)).width := by
      rw [width, bytes_allWild, Nat.div_mul_cancel (Nat.dvd_of_mod_eq_zero hts)]
      omega
    rw [ofTrits, allows_putAll_eq _ _ _ hle, if_pos (Nat.zero_le i), Nat.sub_zero, ht]
    rfl
  rw [trit_eq_ofAllowed, hallows, hallows]
  exact Trit.ofAllowed_mayZero_mayOne t

/-- A header matches the pattern of some trits if each of them allows its bit. -/
theorem matches_ofTrits (hts : ts.length % tritsPerByte = 0) :
    (ofTrits ts).Matches h ↔
      ∀ (i : Nat) (t : Trit), ts[i]? = some t → t.allows (h i) = true := by
  rw [Matches, width_ofTrits hts]
  constructor
  · intro hm i t ht
    have hi := hm i (List.getElem?_eq_some_iff.1 ht).1
    rwa [trit_ofTrits hts ht] at hi
  · intro hall i hi
    have ht := List.getElem?_eq_getElem hi
    rw [trit_ofTrits hts ht]
    exact hall i _ ht

theorem length_toTrits (p : Pattern) : p.toTrits.length = p.width := by
  rw [toTrits, List.length_map, List.length_range]

/-- A pattern is the pattern of its trits. -/
theorem ofTrits_toTrits (p : Pattern) : ofTrits p.toTrits = p := by
  rw [ofTrits, length_toTrits, width, Nat.mul_div_cancel _ (by decide), putAll_toTrits]

/-! ### Writing and reading -/

/-- Writing trits and reading them character by character gives them back. -/
theorem filterMap_writeTrits (i : Nat) (ts : List Trit) :
    (writeTrits i ts).filterMap Trit.ofChar? = ts := by
  induction ts generalizing i with
  | nil => rfl
  | cons t ts ih =>
    have hcomma : Trit.ofChar? ',' = none := rfl
    rw [writeTrits]
    split
    · rw [List.filterMap_cons_none hcomma, List.filterMap_cons_some (Trit.ofChar?_toChar t), ih]
    · rw [List.filterMap_cons_some (Trit.ofChar?_toChar t), ih]

/-- A written pattern has no blanks. -/
theorem of_mem_writeTrits {i : Nat} {c : Char} (hc : c ∈ writeTrits i ts) :
    c = ',' ∨ (Trit.ofChar? c).isSome = true := by
  induction ts generalizing i with
  | nil => exact absurd hc List.not_mem_nil
  | cons t ts ih =>
    have hchar : (Trit.ofChar? t.toChar).isSome = true := by rw [Trit.ofChar?_toChar]; rfl
    rw [writeTrits] at hc
    split at hc
    · rcases List.mem_cons.1 hc with rfl | hc
      · exact .inl rfl
      · rcases List.mem_cons.1 hc with rfl | hc
        · exact .inr hchar
        · exact ih hc
    · rcases List.mem_cons.1 hc with rfl | hc
      · exact .inr hchar
      · exact ih hc

/-- **What was written is read back.** -/
theorem parse_text (p : Pattern) : parse p.text = .ok p := by
  have hcs : ∀ c ∈ writeTrits 0 p.toTrits, IsTritChar c := fun c hc ↦
    (of_mem_writeTrits hc).imp_left fun h ↦ by rw [h]; rfl
  rw [text, parse_ofList hcs, filterMap_writeTrits, ofTrits_toTrits, length_toTrits, width,
    Nat.mul_mod_left, if_pos rfl]

end HeaderFlow.Pattern
