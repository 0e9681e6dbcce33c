import HeaderFlow.Proofs.Space.Places

/-!
# Whatever is read was written

The readers of the grammar never make anything up: with an answer comes an expression that the
characters taken are a way to write (`Found`), and with an error a cause in the text. It is an
induction on the number of calls (`sound`), of which there are enough since every item takes at
least one character. `Sound text bytes fuel` is what `fuel` calls are good for, and one lemma for
each of the readers carries it from `fuel` to `fuel + 1`.

An item is read in parts: a parenthesis is opened, something is found inside, a sign follows, and
what is behind the sign decides what the item was. So there is a lemma for each way in which the
parts make an item (`found_nil`, `Found.group`, `Found.minus`, `found_pattern`, `Found.except`),
which are about texts only, and one for each branch of the reader, which says which of them applies.
-/

namespace HeaderFlow.Space

variable {α β : Type} {text : String} {bytes : Nat} {c : Cursor} {e : Expr} {s : List Char}

/-- A closing parenthesis is read if it is there, or else there is a cause. -/
theorem expect_sound (hc : c.At text) : Answers (Cause text bytes)
    (fun c' ↦ (∃ b, Blanks b ∧ c.rest = b ++ ')' :: c'.rest) ∧ c'.bytes = c.bytes ∧ c'.At text)
    (expect text ')' c) := by
  have hskip := hc.skipWhile Text.isBlank
  rw [expect]
  split
  · exact .expectedAtEnd
  · rename_i d rest hrest
    split
    · rename_i hd
      obtain ⟨b, hb, hblanks⟩ := exists_blanks c
      refine ⟨⟨b, hb, ?_⟩, rfl, hskip.advance 1⟩
      rw [hblanks, hrest, Cursor.rest_advance_one hrest, hd]
    · exact hskip.badChar hrest

/-- A character of a pattern is a trit or a separator. -/
theorem isTritChar_of_isPatternChar {d : Char} (hd : isPatternChar d = true) :
    Pattern.IsTritChar d := by
  rw [isPatternChar, Bool.or_eq_true] at hd
  exact hd.imp_left fun h ↦ by rw [Pattern.isSeparator, h, Bool.true_or]

/-- **What is read as a pattern was written as one.** -/
theorem readPattern_sound (hc : c.At text) (hbytes : c.bytes = some bytes)
    (hsome : c.skipBlanks.rest ≠ []) :
    Answers (Cause text bytes)
      (fun out ↦ (∃ b run, Blanks b ∧ Run bytes run ∧ c.rest = b ++ (run ++ out.2.rest) ∧
        out.1 = .ofTrits (tritsOf run)) ∧ out.2.bytes = some bytes ∧ out.2.At text)
      (readPattern text c) := by
  have hskip := hc.skipWhile Text.isBlank
  obtain ⟨b, hb, hblanks⟩ := exists_blanks c
  obtain ⟨pre, hpre, -⟩ := id hskip
  have hsplit : c.skipBlanks.rest = c.skipBlanks.rest.takeWhile isPatternChar ++
      (c.skipBlanks.skipWhile isPatternChar).rest := List.takeWhile_append_dropWhile.symm
  have hchars : ∀ d ∈ c.skipBlanks.rest.takeWhile isPatternChar,
      isPatternChar d = true := fun _ hd ↦
    List.mem_takeWhile_imp hd
  rw [readPattern]
  split
  · contradiction
  · rename_i _ _ _ _ hrest _
    exact hskip.badChar hrest
  · rename_i hne
    generalize c.skipBlanks.rest.takeWhile isPatternChar = run at *
    have hne' : run ≠ [] := by
      rintro rfl
      obtain ⟨d, rest, hrest⟩ := List.exists_cons_of_ne_nil hsome
      exact hne d rest hrest rfl
    have hpre' : text.toList = pre ++ (run ++ (c.skipBlanks.skipWhile isPatternChar).rest) :=
      hsplit ▸ hpre
    rw [Pattern.parse_ofList fun d hd ↦ isTritChar_of_isPatternChar (hchars d hd)]
    split
    · rename_i hmod
      have hlen : (tritsOf run).length = 8 * (Pattern.ofTrits (tritsOf run)).bytes := by
        rw [Pattern.bytes_ofTrits, Pattern.tritsPerByte]
        exact (Nat.mul_div_cancel' (Nat.dvd_of_mod_eq_zero hmod)).symm
      have hrun : Run (Pattern.ofTrits (tritsOf run)).bytes run := ⟨hne', hchars, hlen⟩
      have hbytes' : (c.skipBlanks.skipWhile isPatternChar).bytes = some bytes := hbytes
      simp only [bind, Except.bind, hbytes']
      split
      · rename_i heq
        refine ⟨⟨b, run, hb, heq ▸ hrun, ?_, rfl⟩, hbytes', hskip.skipWhile _⟩
        rw [hblanks, hsplit]
      · rename_i hne
        exact .lengthMismatch hpre' hrun (Ne.symm hne)
    · rename_i hmod
      exact .partialByte hpre' hchars hmod

/-- An expression was found at the beginning of what was left. -/
structure Found (text : String) (bytes : Nat) (c : Cursor) (e : Expr) (out : List Region × Cursor) :
    Prop where
  /-- The text begins with it. -/
  spelled : ∃ s b, c.rest = s ++ (b ++ out.2.rest) ∧ Spells e s ∧ Blanks b
  /-- Its patterns have the right length, and its minus signs the right operands. -/
  proper : e.Proper bytes
  /-- Its regions are answered. -/
  regions : out.1 = e.regions
  /-- The length of the headers is still the same. -/
  bytes_eq : out.2.bytes = some bytes
  /-- What is left is the end of the text. -/
  place : out.2.At text
  /-- A pattern at its end has taken a minus sign if there was one. -/
  stops : e.EndsInPattern → ∀ rest, out.2.skipBlanks.rest ≠ '-' :: rest

theorem Spells.pos (hs : Spells e s) (he : e.Proper bytes) : 0 < s.length := by
  cases hs with
  | pattern run hb =>
    have := List.length_pos_iff.2 he.ne_nil
    simp only [List.length_append]
    omega
  | _ => simp only [List.length_append, List.length_cons]; omega

theorem Found.length_lt {out : List Region × Cursor} (h : Found text bytes c e out) :
    out.2.rest.length < c.rest.length := by
  obtain ⟨s, b, hrest, hs, -⟩ := h.spelled
  have := hs.pos h.proper
  rw [hrest, List.length_append, List.length_append]
  omega

theorem difference_eq {q : Region} {rs : List Region} (hq : q.frame.bytes = bytes)
    (hrs : Region.EveryOf (·.bytes = bytes) rs) :
    difference text [q] rs = .ok (.mk q.frame (q.holes ++ clipped rs q.frame)) := by
  rw [difference, clipList_eq (hq ▸ hrs)]

theorem uniform_regions (he : e.Proper bytes) : Region.EveryOf (·.bytes = bytes) e.regions :=
  Region.everyOf_iff.2 fun r hr ↦ ((containsAny_regions he).1 r hr).uniform

theorem bytes_frame {q : Region} (hq : q.Every (·.bytes = bytes)) : q.frame.bytes = bytes := by
  cases q
  exact (Region.every_mk.1 hq).1

/-- The minus sign of a difference in parentheses. -/
theorem difference_sound {l r : Expr} {pre s rest : List Char}
    (hpre : text.toList = pre ++ (s ++ rest)) (hs : Spells l s) (hl : l.Proper bytes)
    (hr : r.Proper bytes) (hopen : ¬ l.EndsInPattern) :
    Answers (Cause text bytes)
      (fun q ↦ (Expr.minus l r).Proper bytes ∧ [q] = (Expr.minus l r).regions)
      (difference text l.regions r.regions) := by
  by_cases hone : l.terms = 1
  · obtain ⟨q, hq⟩ := exists_regions_eq hl hone
    have hframe :=
      bytes_frame ((containsAny_regions hl).1 q (hq ▸ List.mem_singleton_self q)).uniform
    rw [hq, difference_eq hframe (uniform_regions hr), Answers, Expr.regions, hq]
    exact ⟨⟨hl, hone, hopen, hr⟩, rfl⟩
  · rw [difference]
    · exact .severalMinuends hpre hs hl hone
    · intro q hq
      exact hone ((length_regions hl).symm.trans (congrArg List.length hq))

/-- What `readMore` answers at `c`, having been given the regions `rs`. -/
def FoundMore (text : String) (bytes : Nat) (rs : List Region) (c : Cursor)
    (out : List Region × Cursor) : Prop :=
  out = (rs, c.skipBlanks) ∨ ∃ rest e qs, c.skipBlanks.rest = '+' :: rest ∧ out.1 = rs ++ qs ∧
    Found text bytes (c.skipBlanks.advance 1) e (qs, out.2)

/-- What `fuel` calls find at places from which the text has few enough characters left. -/
structure Sound (text : String) (bytes fuel : Nat) : Prop where
  /-- An item. -/
  item : ∀ c : Cursor, c.Awaits text → c.bytes = some bytes → 2 * c.rest.length + 1 ≤ fuel →
    Answers (Cause text bytes) (fun out ↦ ∃ e, e.IsItem ∧ Found text bytes c e out)
    (readItem text fuel c)
  /-- Nothing, or a plus sign and a list. -/
  more : ∀ (c : Cursor) (rs : List Region), c.At text → c.bytes = some bytes →
    2 * c.rest.length + 1 ≤ fuel →
    Answers (Cause text bytes) (FoundMore text bytes rs c) (readMore text fuel rs c)
  /-- A list. -/
  list : ∀ c : Cursor, c.Awaits text → c.bytes = some bytes → 2 * c.rest.length + 2 ≤ fuel →
    Answers (Cause text bytes) (fun out ↦ ∃ e, Found text bytes c e out) (readList text fuel c)

variable {fuel : Nat}

/-- A parenthesis was opened at `c`: what follows the blanks behind it. -/
theorem rest_group {tail : List Char} (hrest : c.skipBlanks.rest = '(' :: tail) :
    ∃ b b', Blanks b ∧ Blanks b' ∧
      c.rest = b ++ '(' :: (b' ++ (c.skipBlanks.advance 1).skipBlanks.rest) := by
  obtain ⟨b, hb, hblanks⟩ := exists_blanks c
  obtain ⟨b', hb', hblanks'⟩ := exists_blanks (c.skipBlanks.advance 1)
  refine ⟨b, b', hb, hb', ?_⟩
  rw [hblanks, hrest, ← Cursor.rest_advance_one hrest, hblanks']

/-- Blanks may stand in front of an expression. -/
theorem Spells.blanks {b : List Char} (hb : Blanks b) (hs : Spells e s) : Spells e (b ++ s) := by
  have happend : ∀ {b' : List Char}, Blanks b' → Blanks (b ++ b') := fun hb' ↦
    List.forall_mem_append.2 ⟨hb, hb'⟩
  induction hs with
  | nil h h' h'' =>
    rw [← List.append_assoc]
    exact .nil (happend h) h' h''
  | pattern run h =>
    rw [← List.append_assoc]
    exact .pattern run (happend h)
  | except run h h' hs _ =>
    rw [← List.append_assoc]
    exact .except run (happend h) h' hs
  | group h hs h' _ =>
    rw [← List.append_assoc]
    exact .group (happend h) hs h'
  | minus h hl h' hr h'' _ _ =>
    rw [← List.append_assoc]
    exact .minus (happend h) hl h' hr h''
  | plus _ h hs' ih _ =>
    rw [← List.append_assoc]
    exact .plus ih h hs'

/-- **An item and what follows it are a list.** -/
theorem Found.more {c₁ : Cursor} {rs before : List Region} {out : List Region × Cursor}
    (hitem : e.IsItem) (he : Found text bytes c e (rs, c₁))
    (hout : FoundMore text bytes (before ++ rs) c₁ out) :
    ∃ e' qs, out.1 = before ++ qs ∧ Found text bytes c e' (qs, out.2) := by
  obtain ⟨s, b, hs, hspells, hb⟩ := he.spelled
  obtain ⟨b', hb', hblanks⟩ := exists_blanks c₁
  have hbb : Blanks (b ++ b') := List.forall_mem_append.2 ⟨hb, hb'⟩
  have hregions : rs = e.regions := he.regions
  obtain rfl | ⟨rest, es, qs, hplus, hout, hes⟩ := hout
  · refine ⟨e, rs, rfl, ⟨s, b ++ b', ?_, hspells, hbb⟩, he.proper, hregions, he.bytes_eq,
      he.place.skipWhile _, fun hopen rest ↦ ?_⟩
    · rw [hs, hblanks, List.append_assoc]
    · rw [rest_skipBlanks_skipBlanks]
      exact he.stops hopen rest
  · obtain ⟨s', b'', hs', hspells', hb''⟩ := hes.spelled
    refine ⟨.plus e es, rs ++ qs, by rw [hout, List.append_assoc],
      ⟨s ++ ((b ++ b') ++ '+' :: s'), b'', ?_, .plus hspells hbb hspells', hb''⟩,
      ⟨hitem, he.proper, hes.proper⟩, ?_, hes.bytes_eq, hes.place, hes.stops⟩
    · rw [hs, hblanks, hplus, ← Cursor.rest_advance_one hplus, hs']
      simp
    · rw [Expr.regions, ← hregions, ← hes.regions]

/-- A list that is read was written. -/
theorem list_sound (h : Sound text bytes fuel) (hc : c.Awaits text) (hbytes : c.bytes = some bytes)
    (hfuel : 2 * c.rest.length + 2 ≤ fuel + 1) :
    Answers (Cause text bytes) (fun out ↦ ∃ e, Found text bytes c e out)
      (readList text (fuel + 1) c) := by
  rw [readList]
  refine (h.item c hc hbytes (by omega)).bind ?_
  rintro ⟨rs, c₁⟩ ⟨e, hitem, he⟩
  have hlt : c₁.rest.length < c.rest.length := he.length_lt
  refine (h.more c₁ ([] ++ rs) he.place he.bytes_eq (by omega)).imp fun out hout ↦ ?_
  obtain ⟨e', qs, hqs, he'⟩ := he.more hitem hout
  rw [List.nil_append] at hqs
  rw [← hqs] at he'
  exact ⟨e', he'⟩

/-- What is read behind an item was written with plus signs. -/
theorem more_sound (h : Sound text bytes fuel) {rs : List Region} (hc : c.At text)
    (hbytes : c.bytes = some bytes) (hfuel : 2 * c.rest.length + 1 ≤ fuel + 1) :
    Answers (Cause text bytes) (FoundMore text bytes rs c) (readMore text (fuel + 1) rs c) := by
  have hle := length_skipBlanks_le c
  rw [readMore]
  split
  · rename_i tail hrest
    have hc₁ : (c.skipBlanks.advance 1).Awaits text :=
      (hc.skipWhile _).awaits hrest (.inr (.inl rfl))
    rw [hrest, List.length_cons, ← Cursor.rest_advance_one hrest] at hle
    refine (h.item _ hc₁ hbytes (by omega)).bind ?_
    rintro ⟨qs, c₂⟩ ⟨e, hitem, he⟩
    have hlt : c₂.rest.length < _ := he.length_lt
    refine (h.more c₂ (rs ++ qs) he.place he.bytes_eq (by omega)).imp fun out hout ↦ ?_
    obtain ⟨e', qs', hqs, he'⟩ := he.more hitem hout
    exact .inr ⟨tail, e', qs', hrest, hqs, he'⟩
  · exact .inl rfl

section Parts

variable {c₁ c₂ c₃ c₄ c₅ : Cursor} {b b' b₂ b₄ : List Char} {left right : List Region} {q : Region}

/-- The parts of the empty set are found. -/
theorem found_nil (hopen : c.rest = b ++ '(' :: (b' ++ 'n' :: 'i' :: 'l' :: c₂.rest))
    (hb : Blanks b) (hb' : Blanks b') (hclose : c₂.rest = b₂ ++ ')' :: c₃.rest) (hb₂ : Blanks b₂)
    (hbytes : c₃.bytes = some bytes) (hplace : c₃.At text) : Found text bytes c .nil ([], c₃) where
  spelled := ⟨b ++ '(' :: (b' ++ 'n' :: 'i' :: 'l' :: (b₂ ++ [')'])), [], by simp [hopen, hclose],
    .nil hb hb' hb₂, List.forall_mem_nil _⟩
  proper := trivial
  regions := rfl
  bytes_eq := hbytes
  place := hplace
  stops := nofun

/-- The parts of a list in parentheses are found. -/
theorem Found.group (hl : Found text bytes c₁ l (left, c₂))
    (hopen : c.rest = b ++ '(' :: (b' ++ c₁.rest)) (hb : Blanks b) (hb' : Blanks b')
    (hclose : c₂.rest = b₂ ++ ')' :: c₃.rest) (hb₂ : Blanks b₂) (hbytes : c₃.bytes = some bytes)
    (hplace : c₃.At text) : Found text bytes c (.group l) (left, c₃) where
  spelled := by
    obtain ⟨s, b₃, hs, hspells, hb₃⟩ := hl.spelled
    refine ⟨_, [], ?_, .group hb (hspells.blanks hb') (List.forall_mem_append.2 ⟨hb₃, hb₂⟩),
      List.forall_mem_nil _⟩
    simp [hopen, hs, hclose]
  proper := hl.proper
  regions := hl.regions
  bytes_eq := hbytes
  place := hplace
  stops := nofun

/-- The parts of a difference in parentheses are found. -/
theorem Found.minus (hl : Found text bytes c₁ l (left, c₂)) (hr : Found text bytes c₃ r (right, c₄))
    (hopen : c.rest = b ++ '(' :: (b' ++ c₁.rest)) (hb : Blanks b) (hb' : Blanks b')
    (hminus : c₂.rest = b₂ ++ '-' :: c₃.rest) (hb₂ : Blanks b₂)
    (hclose : c₄.rest = b₄ ++ ')' :: c₅.rest) (hb₄ : Blanks b₄)
    (hbytes : c₅.bytes = some bytes) (hplace : c₅.At text) (hproper : (Expr.minus l r).Proper bytes)
    (hq : [q] = (Expr.minus l r).regions) : Found text bytes c (.minus l r) ([q], c₅) where
  spelled := by
    obtain ⟨s, b₃, hs, hspells, hb₃⟩ := hl.spelled
    obtain ⟨s', b₅, hs', hspells', hb₅⟩ := hr.spelled
    refine ⟨_, [], ?_, .minus hb (hspells.blanks hb') (List.forall_mem_append.2 ⟨hb₃, hb₂⟩) hspells'
      (List.forall_mem_append.2 ⟨hb₅, hb₄⟩), List.forall_mem_nil _⟩
    simp [hopen, hs, hminus, hs', hclose]
  proper := hproper
  regions := hq
  bytes_eq := hbytes
  place := hplace
  stops := nofun

/-- A pattern is found, and no minus sign behind it. -/
theorem found_pattern {run : List Char} (hrest : c.rest = b ++ (run ++ (b' ++ c₁.rest)))
    (hb : Blanks b) (hb' : Blanks b') (hrun : Run bytes run) (hbytes : c₁.bytes = some bytes)
    (hplace : c₁.At text) (hstops : ∀ rest, c₁.skipBlanks.rest ≠ '-' :: rest) :
    Found text bytes c (.pattern run) ([.plain (.ofTrits (tritsOf run))], c₁) where
  spelled := ⟨_, b', by simp [hrest], .pattern run hb, hb'⟩
  proper := hrun
  regions := rfl
  bytes_eq := hbytes
  place := hplace
  stops _ := hstops

/-- A pattern is found, a minus sign, and an item behind that. -/
theorem Found.except {run : List Char} (he : Found text bytes c₁ e (right, c₂)) (hitem : e.IsItem)
    (hrest : c.rest = b ++ (run ++ (b' ++ '-' :: c₁.rest))) (hb : Blanks b) (hb' : Blanks b')
    (hrun : Run bytes run) : Found text bytes c (.except run e)
      ([.mk (.ofTrits (tritsOf run)) (clipped right (.ofTrits (tritsOf run)))], c₂) where
  spelled := by
    obtain ⟨s, b₃, hs, hspells, hb₃⟩ := he.spelled
    exact ⟨_, b₃, by simp [hrest, hs], .except run hb hb' hspells, hb₃⟩
  proper := ⟨hrun, hitem, he.proper⟩
  regions := by rw [Expr.regions, ← he.regions]
  bytes_eq := he.bytes_eq
  place := he.place
  stops := he.stops

/-! What comes behind the first part of an item decides what the item is. -/

/-- What is read as the empty set was written as it. -/
theorem nil_sound (hc₁ : c₁.At text) (hopen : c.rest = b ++ '(' :: (b' ++ c₁.rest)) (hb : Blanks b)
    (hb' : Blanks b') {tail : List Char} (hnil : c₁.rest = 'n' :: 'i' :: 'l' :: tail)
    (hbytes : c₁.bytes = some bytes) :
    Answers (Cause text bytes) (fun out ↦ ∃ e, e.IsItem ∧ Found text bytes c e out)
      (do return ([], ← expect text ')' (c₁.advance 3))) := by
  have hrest : (c₁.advance 3).rest = tail := by
    rw [Cursor.advance, hnil]
    rfl
  refine (expect_sound (hc₁.advance 3)).bind ?_
  rintro c₂ ⟨⟨b₂, hb₂, hclose⟩, hbytes₂, hplace₂⟩
  refine ⟨.nil, trivial, found_nil ?_ hb hb' hclose hb₂ (hbytes₂.trans hbytes) hplace₂⟩
  rw [hopen, hnil, hrest]

/-- What is read behind the minus sign of a difference was written. -/
theorem Found.minus_sound (hl : Found text bytes c₁ l (left, c₂)) (h : Sound text bytes fuel)
    (hc₁ : c₁.At text) (hopen : c.rest = b ++ '(' :: (b' ++ c₁.rest)) (hb : Blanks b)
    (hb' : Blanks b') {tail : List Char} (hminus : c₂.skipBlanks.rest = '-' :: tail)
    (hfuel : 2 * c₁.rest.length + 2 ≤ fuel) :
    Answers (Cause text bytes) (fun out ↦ ∃ e, e.IsItem ∧ Found text bytes c e out) (do
      let (right, c₃) ← readList text fuel (c₂.skipBlanks.advance 1)
      let c₄ ← expect text ')' c₃
      return ([← difference text left right], c₄)) := by
  obtain ⟨b₂, hb₂, hblanks⟩ := exists_blanks c₂
  have hc₂ : (c₂.skipBlanks.advance 1).Awaits text :=
    (hl.place.skipWhile _).awaits hminus (.inr (.inr rfl))
  have hrest := Cursor.rest_advance_one hminus
  have hlt : c₂.rest.length < c₁.rest.length := hl.length_lt
  have hle := length_skipBlanks_le c₂
  rw [hminus, List.length_cons, ← hrest] at hle
  refine (h.list _ hc₂ hl.bytes_eq (by omega)).bind ?_
  rintro ⟨right, c₃⟩ ⟨r, hr⟩
  refine (expect_sound hr.place).bind ?_
  rintro c₄ ⟨⟨b₄, hb₄, hclose⟩, hbytes₄, hplace₄⟩
  obtain ⟨s, b₃, hs, hspells, hb₃⟩ := hl.spelled
  obtain ⟨pre, hpre, -⟩ := hc₁
  have hends : ¬ l.EndsInPattern := fun hends ↦ hl.stops hends _ hminus
  have hdiff := difference_sound (hs ▸ hpre) hspells hl.proper hr.proper hends
  rw [← show left = _ from hl.regions, ← show right = _ from hr.regions] at hdiff
  refine hdiff.bind fun q hq ↦ ⟨.minus l r, trivial, ?_⟩
  refine hl.minus hr hopen hb hb' ?_ hb₂ hclose hb₄ (hbytes₄.trans hr.bytes_eq) hplace₄ hq.1 hq.2
  rw [hblanks, hminus, hrest]

/-- What is read up to the closing parenthesis was written. -/
theorem Found.group_sound (hl : Found text bytes c₁ l (left, c₂))
    (hopen : c.rest = b ++ '(' :: (b' ++ c₁.rest)) (hb : Blanks b) (hb' : Blanks b') :
    Answers (Cause text bytes) (fun out ↦ ∃ e, e.IsItem ∧ Found text bytes c e out)
      (do return (left, ← expect text ')' c₂.skipBlanks)) := by
  obtain ⟨b₂, hb₂, hblanks⟩ := exists_blanks c₂
  refine (expect_sound (hl.place.skipWhile _)).bind ?_
  rintro c₃ ⟨⟨b₃, hb₃, hclose⟩, hbytes₃, hplace₃⟩
  refine ⟨.group l, trivial, hl.group hopen hb hb' ?_ (List.forall_mem_append.2 ⟨hb₂, hb₃⟩)
    (hbytes₃.trans hl.bytes_eq) hplace₃⟩
  rw [hblanks, List.append_assoc]
  exact congrArg (b₂ ++ ·) hclose

/-- What is read behind the minus sign of a pattern was written. -/
theorem except_sound {run : List Char} (h : Sound text bytes fuel) (hplace : c₁.At text)
    (hrest : c.rest = b ++ (run ++ (b' ++ c₁.rest))) (hb : Blanks b) (hb' : Blanks b')
    (hrun : Run bytes run) (hbytes : c₁.bytes = some bytes) {tail : List Char}
    (hminus : c₁.rest = '-' :: tail) (hfuel : 2 * c.rest.length ≤ fuel) :
    Answers (Cause text bytes) (fun out ↦ ∃ e, e.IsItem ∧ Found text bytes c e out) (do
      let (right, c₂) ← readItem text fuel (c₁.advance 1)
      return ([← difference text [.plain (.ofTrits (tritsOf run))] right], c₂)) := by
  have hc₁ : (c₁.advance 1).Awaits text := hplace.awaits hminus (.inr (.inr rfl))
  rw [hminus, ← Cursor.rest_advance_one hminus] at hrest
  have hlen := congrArg List.length hrest
  have hpos := List.length_pos_iff.2 hrun.ne_nil
  simp only [List.length_append, List.length_cons] at hlen
  refine (h.item _ hc₁ hbytes (by omega)).bind ?_
  rintro ⟨right, c₂⟩ ⟨e, hitem, he⟩
  have huniform := uniform_regions he.proper
  rw [← show right = _ from he.regions] at huniform
  simp only [difference_eq (q := .plain (.ofTrits (tritsOf run))) hrun.bytes_eq huniform]
  exact ⟨.except run e, trivial, he.except hitem hrest hb hb' hrun⟩

end Parts

/-- An item that starts with a parenthesis. -/
theorem parenthesis_sound (h : Sound text bytes fuel) (hc : c.Awaits text)
    (hbytes : c.bytes = some bytes) (hfuel : 2 * c.rest.length ≤ fuel) {tail : List Char}
    (hrest : c.skipBlanks.rest = '(' :: tail) :
    Answers (Cause text bytes) (fun out ↦ ∃ e, e.IsItem ∧ Found text bytes c e out)
      (readItem text (fuel + 1) c) := by
  obtain ⟨b, b', hb, hb', hopen⟩ := rest_group hrest
  have hplace : c.skipBlanks.At text := hc.at.skipWhile _
  have hc₁ : (c.skipBlanks.advance 1).skipBlanks.Awaits text :=
    (hplace.awaits hrest (.inl rfl)).skipBlanks
  have hlen : (c.skipBlanks.advance 1).skipBlanks.rest.length < c.rest.length := by
    rw [hopen, List.length_append, List.length_cons, List.length_append]
    omega
  rw [readItem]
  simp only [hrest]
  split
  · rename_i hnil
    exact nil_sound hc₁.at hopen hb hb' hnil hbytes
  · refine (h.list _ hc₁ hbytes (by omega)).bind ?_
    rintro ⟨left, c₂⟩ ⟨l, hl⟩
    simp only
    split
    · rename_i hminus
      exact hl.minus_sound h hc₁.at hopen hb hb' hminus (by omega)
    · exact hl.group_sound hopen hb hb'

/-- **An item that is read was written.** -/
theorem item_sound (h : Sound text bytes fuel) (hc : c.Awaits text) (hbytes : c.bytes = some bytes)
    (hfuel : 2 * c.rest.length + 1 ≤ fuel + 1) :
    Answers (Cause text bytes) (fun out ↦ ∃ e, e.IsItem ∧ Found text bytes c e out)
      (readItem text (fuel + 1) c) := by
  have hplace : c.skipBlanks.At text := hc.at.skipWhile _
  by_cases hopens : ∃ tail, c.skipBlanks.rest = '(' :: tail
  · obtain ⟨tail, hrest⟩ := hopens
    exact parenthesis_sound h hc hbytes (by omega) hrest
  rw [readItem]
  split
  · rename_i hrest
    exact hc.unexpectedEnd hrest
  · rename_i tail hrest
    exact absurd ⟨tail, hrest⟩ hopens
  · rename_i hne hnotopen
    have hsome : c.skipBlanks.skipBlanks.rest ≠ [] := by
      rw [rest_skipBlanks_skipBlanks]
      exact hne
    refine (readPattern_sound hplace hbytes hsome).bind ?_
    rintro ⟨p, c₁⟩ ⟨⟨b, run, hb, hrun, hrest, rfl⟩, hbytes₁, hplace₁⟩
    obtain ⟨b₀, hb₀, hblanks₀⟩ := exists_blanks c
    obtain ⟨b₁, hb₁, hblanks₁⟩ := exists_blanks c₁
    have hbb : Blanks (b₀ ++ b) := List.forall_mem_append.2 ⟨hb₀, hb⟩
    have hwhole : c.rest = (b₀ ++ b) ++ (run ++ (b₁ ++ c₁.skipBlanks.rest)) := by
      rw [hblanks₀, hrest, ← hblanks₁, List.append_assoc]
    simp only
    split
    · rename_i hminus
      exact except_sound h (hplace₁.skipWhile _) hwhole hbb hb₁ hrun hbytes₁ hminus (by omega)
    · rename_i hnotminus
      refine ⟨.pattern run, trivial,
        found_pattern hwhole hbb hb₁ hrun hbytes₁ (hplace₁.skipWhile _) ?_⟩
      intro rest
      rw [rest_skipBlanks_skipBlanks]
      exact hnotminus rest

/-- **Enough calls find an expression, or the cause of an error.** -/
theorem sound (fuel : Nat) : Sound text bytes fuel := by
  induction fuel with
  | zero => exact ⟨fun _ _ _ h ↦ absurd h (by omega), fun _ _ _ _ h ↦ absurd h (by omega),
      fun _ _ _ h ↦ absurd h (by omega)⟩
  | succ fuel ih => exact ⟨fun _ ↦ item_sound ih, fun _ _ ↦ more_sound ih, fun _ ↦ list_sound ih⟩

/-- **What is read up to the end of a text was written.** -/
theorem readAll_sound : Answers (Cause text bytes)
    (fun out ↦ ∃ e, Writes text bytes e ∧ out.1 = e.regions) (readAll text (some bytes)) := by
  have hstart : (Cursor.start text (some bytes)).Awaits text :=
    ⟨[], [], rfl, List.forall_mem_nil _, rfl, by simp⟩
  rw [readAll]
  refine ((sound _).list _ hstart rfl (Nat.le_refl _)).bind ?_
  rintro ⟨rs, c⟩ ⟨e, he⟩
  have hplace : c.skipBlanks.At text := he.place.skipWhile _
  simp only
  split
  · rename_i hend
    obtain ⟨s, b, hs, hspells, hb⟩ := he.spelled
    obtain ⟨b', hb', hblanks⟩ := exists_blanks c
    refine ⟨e, ⟨s, b ++ b', ?_, hspells, List.forall_mem_append.2 ⟨hb, hb'⟩, he.proper⟩, he.regions⟩
    rw [hend, List.append_nil] at hblanks
    rw [← hblanks]
    exact hs
  · rename_i hrest
    exact hplace.badChar hrest

end HeaderFlow.Space
