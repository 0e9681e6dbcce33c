import Mathlib.Data.List.Forall2
import HeaderFlow.Proofs.Pattern.Text
import HeaderFlow.Proofs.Pattern.Tritwise

/-!
# Which texts are patterns

A text is a pattern if, **commas and spaces apart, it is made of the characters of trits, and there
are whole bytes of them**. This is said here of the text alone (`significant`, `tritChars`), and so
is what the pattern is: its trits are the remaining characters in order, and its written form is
these characters in lower case, in groups of eight with commas between them (`Spelled`).

All other texts fail for one of two reasons, and the characters are looked at first: **a text with a
character that means nothing is reported for the first of them, even if its trits do not fill whole
bytes** (`Explains`).

Packing has no part in this. Reading and writing meet in the list of trits, and that a pattern has
the trits that it was built from is a fact about all lists (`toTrits_ofTrits`).
-/

namespace HeaderFlow

namespace Trit

/-- A trit is written in lower case. -/
theorem toChar_of_ofChar? {c : Char} {u : Trit} (hu : ofChar? c = some u) :
    u.toChar = c.toLower := by
  unfold ofChar? at hu
  split at hu <;> first | (obtain rfl := Option.some.inj hu; decide) | exact absurd hu (by simp)

end Trit

namespace Pattern

variable {t : String} {cs pre post : List Char} {ts : List Trit} {c : Char} {i n : Nat}

/-! ### What a text is made of -/

/-- The characters of trits. -/
def tritChars : List Char := ['0', '1', 'x', 'X', 'z', 'Z']

/-- What is left of a text without commas and spaces. -/
def significant (t : String) : List Char := t.toList.filter fun c ↦ c ≠ ',' ∧ c ≠ ' '

/-- A character is read as a trit exactly if it is one of theirs. -/
theorem isSome_ofChar?_iff : (Trit.ofChar? c).isSome = true ↔ c ∈ tritChars := by
  unfold Trit.ofChar?
  split <;> simp_all [tritChars]

theorem isSeparator_iff : isSeparator c = true ↔ c = ',' ∨ c = ' ' := by
  rw [isSeparator, Bool.or_eq_true, beq_iff_eq, beq_iff_eq]

/-- Which characters mean something. -/
theorem isTritChar_iff : IsTritChar c ↔ c = ',' ∨ c = ' ' ∨ c ∈ tritChars := by
  rw [IsTritChar, isSeparator_iff, isSome_ofChar?_iff, or_assoc]

/-- What is left has no separators. -/
theorem mem_significant : c ∈ significant t ↔ c ∈ t.toList ∧ c ≠ ',' ∧ c ≠ ' ' := by
  simp [significant]

/-- Nothing is wrong with a text exactly if nothing is wrong with what is left of it. -/
theorem forall_isTritChar_iff :
    (∀ c ∈ t.toList, IsTritChar c) ↔ ∀ c ∈ significant t, c ∈ tritChars := by
  simp only [mem_significant, isTritChar_iff]
  refine forall_congr' fun c ↦ ?_
  tauto

/-- The characters that are left are those of the trits. -/
theorem forall₂_significant (h : ∀ c ∈ t.toList, IsTritChar c) :
    List.Forall₂ (fun c u ↦ Trit.ofChar? c = some u) (significant t)
      (t.toList.filterMap Trit.ofChar?) := by
  rw [significant]
  generalize t.toList = cs at h ⊢
  induction cs with
  | nil => exact .nil
  | cons c cs ih =>
    obtain ⟨hc, hcs⟩ := List.forall_mem_cons.1 h
    by_cases hsep : c = ',' ∨ c = ' '
    · rw [List.filter_cons_of_neg (by simpa [or_iff_not_imp_left] using hsep),
        List.filterMap_cons_none (ofChar?_of_isSeparator (isSeparator_iff.2 hsep))]
      exact ih hcs
    · obtain ⟨u, hu⟩ := Option.isSome_iff_exists.1 (hc.resolve_left (mt isSeparator_iff.1 hsep))
      rw [List.filter_cons_of_pos (by simpa [not_or] using hsep), List.filterMap_cons_some hu]
      exact .cons hu (ih hcs)

/-! ### The first character that means nothing -/

/-- Reading stops at the first character that means nothing, and says where. -/
theorem readTrits_of_bad (hpre : ∀ d ∈ pre, IsTritChar d) (hc : ¬ IsTritChar c) (i : Nat) :
    readTrits i (pre ++ c :: post) = .error (.badChar c (i + pre.length)) := by
  -- on what stands in front, where each character moves the position by one, whether it counts as a
  -- trit or not
  induction pre generalizing i with
  | nil =>
    rw [IsTritChar, not_or, Bool.not_eq_true, Option.not_isSome_iff_eq_none] at hc
    rw [List.nil_append, readTrits, hc.1, hc.2]
    rfl
  | cons d pre ih =>
    obtain ⟨hd, hpre'⟩ := List.forall_mem_cons.1 hpre
    have hrest := ih hpre' (i + 1)
    have hlen : i + 1 + pre.length = i + (d :: pre).length := by
      rw [List.length_cons]
      omega
    rw [hlen] at hrest
    rw [List.cons_append, readTrits, hrest]
    split
    · rfl
    · rename_i hsep
      obtain ⟨u, hu⟩ := Option.isSome_iff_exists.1 (hd.resolve_left hsep)
      rw [hu]
      rfl

/-- A character that means nothing is found, or there is none. -/
theorem forall_or_exists_bad (cs : List Char) : (∀ c ∈ cs, IsTritChar c) ∨
    ∃ pre c post, cs = pre ++ c :: post ∧ (∀ d ∈ pre, IsTritChar d) ∧ ¬ IsTritChar c := by
  induction cs with
  | nil => exact .inl (List.forall_mem_nil _)
  | cons d cs ih =>
    by_cases hd : IsTritChar d
    · refine ih.imp (fun h ↦ List.forall_mem_cons.2 ⟨hd, h⟩) ?_
      rintro ⟨pre, c, post, rfl, hpre, hc⟩
      exact ⟨d :: pre, c, post, rfl, List.forall_mem_cons.2 ⟨hd, hpre⟩, hc⟩
    · exact .inr ⟨[], d, cs, rfl, List.forall_mem_nil _, hd⟩

/-- **The first wrong character is reported, with its place.** -/
theorem parse_of_bad (htext : t.toList = pre ++ c :: post) (hpre : ∀ d ∈ pre, IsTritChar d)
    (hc : ¬ IsTritChar c) : parse t = .error (.badChar c pre.length) := by
  rw [parse, htext, readTrits_of_bad hpre hc, Nat.zero_add]
  rfl

/-! ### Groups of eight -/

/-- Trits are written one after the other. -/
theorem writeTrits_append (i : Nat) (ts us : List Trit) :
    writeTrits i (ts ++ us) = writeTrits i ts ++ writeTrits (i + ts.length) us := by
  induction ts generalizing i with
  | nil => rfl
  | cons u ts ih =>
    rw [List.cons_append, writeTrits, writeTrits, ih, List.length_cons, Nat.add_right_comm,
      Nat.add_assoc]
    split <;> rfl

/-- Inside a byte there are no commas. -/
theorem writeTrits_of_inside (hi : 0 < i % tritsPerByte)
    (hlen : i % tritsPerByte + ts.length ≤ tritsPerByte) :
    writeTrits i ts = ts.map Trit.toChar := by
  induction ts generalizing i with
  | nil => rfl
  | cons u ts ih =>
    rw [List.length_cons] at hlen
    rw [writeTrits, if_neg (by omega), List.map_cons]
    cases ts with
    -- the last trit may fill the byte, and then the hypothesis says nothing about what is behind it
    | nil => rfl
    | cons v ts =>
      rw [List.length_cons] at hlen ih
      rw [tritsPerByte] at *
      rw [ih (by omega) (by omega)]

/-- A whole byte, with a comma in front unless it is the first. -/
theorem writeTrits_byte (hi : i % tritsPerByte = 0) (hlen : ts.length = tritsPerByte) :
    writeTrits i ts = (if 0 < i then [','] else []) ++ ts.map Trit.toChar := by
  cases ts with
  | nil => exact absurd hlen (by decide)
  | cons u ts =>
    rw [List.length_cons, tritsPerByte] at hlen
    rw [tritsPerByte] at hi
    rw [writeTrits, writeTrits_of_inside (by rw [tritsPerByte]; omega)
      (by rw [tritsPerByte]; omega), List.map_cons]
    by_cases hpos : 0 < i
    · rw [if_pos ⟨hpos, hi⟩, if_pos hpos]
      rfl
    · rw [if_neg (fun h ↦ hpos h.1), if_neg hpos]
      rfl

/-- After the first byte, each one follows a comma. -/
theorem exists_groups_behind (hi : i % tritsPerByte = 0) (hpos : 0 < i) (n : Nat)
    (hlen : ts.length = n * tritsPerByte) : ∃ groups : List (List Char),
      groups.flatten = ts.map Trit.toChar ∧ (∀ g ∈ groups, g.length = tritsPerByte) ∧
      writeTrits i ts = groups.flatMap (',' :: ·) := by
  -- on the number of bytes, since a step through the trits would leave a byte cut in two
  induction n generalizing i ts with
  | zero =>
    obtain rfl := List.eq_nil_of_length_eq_zero (hlen.trans (Nat.zero_mul _))
    exact ⟨[], rfl, List.forall_mem_nil _, rfl⟩
  | succ n ih =>
    rw [Nat.succ_mul] at hlen
    have hfirst : (ts.take tritsPerByte).length = tritsPerByte := by
      rw [List.length_take]
      omega
    have hnext : (i + tritsPerByte) % tritsPerByte = 0 := by rw [Nat.add_mod_right, hi]
    have hrest : (ts.drop tritsPerByte).length = n * tritsPerByte := by
      rw [List.length_drop]
      omega
    obtain ⟨groups, hflat, hgroups, hwrite⟩ := ih hnext (Nat.add_pos_left hpos _) hrest
    refine ⟨(ts.take tritsPerByte).map Trit.toChar :: groups, ?_, ?_, ?_⟩
    · rw [List.flatten_cons, hflat, ← List.map_append, List.take_append_drop]
    · exact List.forall_mem_cons.2 ⟨by rw [List.length_map, hfirst], hgroups⟩
    · conv_lhs => rw [← List.take_append_drop tritsPerByte ts]
      rw [writeTrits_append, writeTrits_byte hi hfirst, if_pos hpos, hfirst, hwrite]
      rfl

/-- Commas stand in front of all groups but the first. -/
theorem intercalate_cons (g : List Char) (groups : List (List Char)) :
    [','].intercalate (g :: groups) = g ++ groups.flatMap (',' :: ·) := by
  induction groups generalizing g with
  | nil => simp [List.intercalate]
  | cons g' groups ih =>
    rw [List.intercalate_cons_cons, ih, List.flatMap_cons]
    simp

/-- **Trits of whole bytes are written in groups of eight, with commas between them.** -/
theorem exists_groups (hts : ts.length % tritsPerByte = 0) : ∃ groups : List (List Char),
    groups.flatten = ts.map Trit.toChar ∧ (∀ g ∈ groups, g.length = tritsPerByte) ∧
      writeTrits 0 ts = [','].intercalate groups := by
  rcases Nat.eq_zero_or_pos ts.length with hnil | hpos
  · obtain rfl := List.eq_nil_of_length_eq_zero hnil
    exact ⟨[], rfl, List.forall_mem_nil _, rfl⟩
  · -- the first byte stands alone, as there is no comma in front of it
    have hle : tritsPerByte ≤ ts.length := Nat.le_of_dvd hpos (Nat.dvd_of_mod_eq_zero hts)
    have hfirst : (ts.take tritsPerByte).length = tritsPerByte := List.length_take_of_le hle
    obtain ⟨n, hn⟩ := Nat.dvd_of_mod_eq_zero hts
    have hrest : (ts.drop tritsPerByte).length = (n - 1) * tritsPerByte := by
      rw [List.length_drop, hn, Nat.sub_mul, Nat.mul_comm, Nat.one_mul]
    obtain ⟨groups, hflat, hgroups, hwrite⟩ :=
      exists_groups_behind (Nat.mod_self tritsPerByte) (by decide) (n - 1) hrest
    refine ⟨(ts.take tritsPerByte).map Trit.toChar :: groups, ?_, ?_, ?_⟩
    · rw [List.flatten_cons, hflat, ← List.map_append, List.take_append_drop]
    · exact List.forall_mem_cons.2 ⟨by rw [List.length_map, hfirst], hgroups⟩
    · conv_lhs => rw [← List.take_append_drop tritsPerByte ts]
      rw [writeTrits_append, writeTrits_byte (by decide) hfirst, hfirst, Nat.zero_add, hwrite,
        intercalate_cons]
      rfl

/-! ### Patterns and lists of trits -/

/-- A pattern has the trits that it was built from. -/
theorem toTrits_ofTrits (hts : ts.length % tritsPerByte = 0) : (ofTrits ts).toTrits = ts := by
  refine List.ext_getElem (by rw [length_toTrits, width_ofTrits hts]) fun i _ hi ↦ ?_
  simp only [toTrits, List.getElem_map, List.getElem_range]
  exact trit_ofTrits hts (List.getElem?_eq_getElem hi)

/-! ### Reading -/

/-- The pattern is what these characters of trits say, and is written with them again. -/
structure Spelled (cs : List Char) (p : Pattern) : Prop where
  /-- There is one trit for each character. -/
  width : p.width = cs.length
  /-- The trits are those of the characters, in order, and are written as they are, in lower
  case. -/
  trit : ∀ (i : Nat) (c : Char), cs[i]? = some c →
    ∃ u, p.get i = .ok u ∧ Trit.ofChar? c = some u ∧ u.toChar = c.toLower
  /-- The written form is the characters in lower case, in groups of eight with commas between
  them. -/
  text : ∃ groups : List (List Char), groups.flatten = cs.map Char.toLower ∧
    (∀ g ∈ groups, g.length = 8) ∧ p.text = ",".intercalate (groups.map String.ofList)

/-- The error and its wording say why a text is not a pattern. -/
inductive Explains (t : String) : TextError → String → Prop where
  /-- The first character that is neither a separator nor that of a trit is named, with its place in
  the text. -/
  | badChar (pre : List Char) (c : Char) (post : List Char) (htext : t.toList = pre ++ c :: post)
      (hpre : ∀ d ∈ pre, d = ',' ∨ d = ' ' ∨ d ∈ tritChars)
      (hc : ¬ (c = ',' ∨ c = ' ' ∨ c ∈ tritChars)) :
      Explains t (.badChar c pre.length)
      s!"[parse] unexpected character '{c}' at position {pre.length}"
  /-- All characters have a meaning, and the trits are counted. -/
  | partialByte (n : Nat) (hall : ∀ c ∈ significant t, c ∈ tritChars)
      (hn : (significant t).length = n) (hbyte : n % 8 ≠ 0) :
      Explains t (.partialByte t n)
      s!"[parse] vector '{t}' has {n} trits, not a whole number of bytes"

/-- Trits are written as they were read, in lower case. -/
theorem map_toChar_eq (hcs : List.Forall₂ (fun c u ↦ Trit.ofChar? c = some u) cs ts) :
    ts.map Trit.toChar = cs.map Char.toLower := by
  induction hcs with
  | nil => rfl
  | cons hu _ ih => rw [List.map_cons, List.map_cons, Trit.toChar_of_ofChar? hu, ih]

/-- The pattern of some trits is spelled by the characters they were read from. -/
theorem spelled_ofTrits (hcs : List.Forall₂ (fun c u ↦ Trit.ofChar? c = some u) cs ts)
    (hts : ts.length % tritsPerByte = 0) : Spelled cs (ofTrits ts) where
  width := by rw [width_ofTrits hts, hcs.length_eq]
  trit i c hc := by
    obtain ⟨hi, rfl⟩ := List.getElem?_eq_some_iff.1 hc
    have hi' : i < ts.length := hcs.length_eq ▸ hi
    have hu : Trit.ofChar? cs[i] = some ts[i] := hcs.get hi hi'
    refine ⟨ts[i], ?_, hu, Trit.toChar_of_ofChar? hu⟩
    rw [get_eq (by rwa [width_ofTrits hts]), trit_ofTrits hts (List.getElem?_eq_getElem hi')]
  text := by
    obtain ⟨groups, hflat, hgroups, hwrite⟩ := exists_groups hts
    refine ⟨groups, hflat.trans (map_toChar_eq hcs), hgroups, String.toList_injective ?_⟩
    rw [text, toTrits_ofTrits hts, String.toList_ofList, hwrite, String.toList_intercalate,
      List.map_map]
    simp [Function.comp_def]

/-- The ways in which reading can end. -/
theorem parse_cases (t : String) :
    (∃ p, parse t = .ok p ∧ (∀ c ∈ significant t, c ∈ tritChars) ∧ (significant t).length % 8 = 0 ∧
      Spelled (significant t) p) ∨
    ∃ e, parse t = .error e ∧ Explains t e e.message ∧
      ¬ ((∀ c ∈ significant t, c ∈ tritChars) ∧ (significant t).length % 8 = 0) := by
  rcases forall_or_exists_bad t.toList with hall | ⟨pre, c, post, htext, hpre, hc⟩
  · have hchars := forall_isTritChar_iff.1 hall
    have hspell := forall₂_significant hall
    have hparse := parse_ofList hall
    rw [String.ofList_toList, ← hspell.length_eq] at hparse
    by_cases hlen : (significant t).length % tritsPerByte = 0
    · rw [if_pos hlen] at hparse
      exact .inl ⟨_, hparse, hchars, hlen, spelled_ofTrits hspell (hspell.length_eq ▸ hlen)⟩
    · rw [if_neg hlen] at hparse
      exact .inr ⟨_, hparse, Explains.partialByte _ hchars rfl hlen, fun h ↦ hlen h.2⟩
  · refine .inr ⟨_, parse_of_bad htext hpre hc,
      Explains.badChar pre c post htext ?_ (mt isTritChar_iff.2 hc), fun h ↦ ?_⟩
    · exact fun d hd ↦ isTritChar_iff.1 (hpre d hd)
    · exact hc (forall_isTritChar_iff.2 h.1 c (htext ▸ List.mem_append_right _ List.mem_cons_self))

/-- **Writing and reading patterns.** Whatever its length and its trits, a pattern is read back from
its written form. Any other text is read exactly if, commas and spaces apart, it is made of the
characters of whole bytes of trits; the pattern is then what they spell, and the error is the reason
otherwise. -/
theorem text_codec :
    (∀ p : Pattern, parse p.text = .ok p) ∧
    ∀ t : String,
      ((∃ p, parse t = .ok p) ↔
        (∀ c ∈ significant t, c ∈ tritChars) ∧ (significant t).length % 8 = 0) ∧
      (∀ p, parse t = .ok p → Spelled (significant t) p) ∧
      ∀ e, parse t = .error e → Explains t e e.message := by
  refine ⟨parse_text, fun t ↦ ?_⟩
  rcases parse_cases t with ⟨q, hq, hchars, hlen, hspelled⟩ | ⟨f, hf, hexplains, hnot⟩
  · refine ⟨⟨fun _ ↦ ⟨hchars, hlen⟩, fun _ ↦ ⟨q, hq⟩⟩, fun p hp ↦ ?_, fun e he ↦ ?_⟩
    · obtain rfl := Except.ok.inj (hq.symm.trans hp)
      exact hspelled
    · exact absurd (hq.symm.trans he) (by simp)
  · refine ⟨⟨fun ⟨p, hp⟩ ↦ ?_, fun h ↦ absurd h hnot⟩, fun p hp ↦ ?_, fun e he ↦ ?_⟩
    · exact absurd (hf.symm.trans hp) (by simp)
    · exact absurd (hf.symm.trans hp) (by simp)
    · obtain rfl := Except.error.inj (hf.symm.trans he)
      exact hexplains

/-- Separators may stand anywhere, letters may be of either case, and a wrong character comes before
a wrong count. -/
theorem text_codec_mixed :
    (∃ p, parse "1X 0z,,01xx" = .ok p ∧ Spelled ['1', 'X', '0', 'z', '0', '1', 'x', 'x'] p) ∧
    Explains "1010,x?" (.badChar '?' 6) "[parse] unexpected character '?' at position 6" ∧
    Explains "1 01" (.partialByte "1 01" 3)
      "[parse] vector '1 01' has 3 trits, not a whole number of bytes" := by
  have hchars : significant "1X 0z,,01xx" = ['1', 'X', '0', 'z', '0', '1', 'x', 'x'] := by cbv
  obtain ⟨hread, hspelled, -⟩ := text_codec.2 "1X 0z,,01xx"
  rw [hchars] at hread hspelled
  obtain ⟨p, hp⟩ := hread.2 ⟨by simp [tritChars], rfl⟩
  have hbad : parse "1010,x?" = .error (.badChar '?' 6) := by cbv
  have hpartial : parse "1 01" = .error (.partialByte "1 01" 3) := by cbv
  exact ⟨⟨p, hp, hspelled p hp⟩, (text_codec.2 "1010,x?").2.2 _ hbad,
    (text_codec.2 "1 01").2.2 _ hpartial⟩

end Pattern

end HeaderFlow
