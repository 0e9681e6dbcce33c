import HeaderFlow.Proofs.Space.ReadingSound

/-!
# Whatever was written is read

A text that is a way to write an expression is read as that expression, and up to its end
(`readAll_complete`). This is an induction on the way the text was written:
`Complete text bytes e s` says that wherever `s` stands it is read as `e`, as an item, behind a plus
sign and as a list, and there is one lemma for each constructor of `Spells`.

## What may follow

Unlike soundness this needs to know what comes **behind** an item, because an item ends where no
further character could belong to it: behind a pattern there must be no more characters of patterns,
and behind one that could still be a minuend no minus sign. `Follows` and `FollowsList` say what is
left of that once blanks are skipped.

The length of the headers may be unknown at first. Then the first pattern fixes it, which is why
`Passed` speaks of the length behind an expression too: it is known by then, or no pattern has been
read.
-/

namespace HeaderFlow.Space

variable {α β : Type} {text : String} {bytes : Nat} {c : Cursor} {e : Expr} {s : List Char}
  {fuel : Nat}

/-- No character of a pattern is a blank. -/
theorem not_isBlank_of_isPatternChar {d : Char} (hd : isPatternChar d = true) :
    Text.isBlank d = false := by
  rw [isPatternChar, Bool.or_eq_true, beq_iff_eq] at hd
  rcases hd with rfl | hd
  · rfl
  · unfold Trit.ofChar? at hd
    split at hd <;> first | rfl | exact absurd hd (by decide)

/-- Blanks are skipped, and nothing else. -/
theorem dropWhile_blanks {b l : List Char} (hb : Blanks b) :
    (b ++ l).dropWhile Text.isBlank = l.dropWhile Text.isBlank :=
  List.dropWhile_append_of_pos hb

theorem dropWhile_cons {d : Char} {l : List Char} (hd : Text.isBlank d = false) :
    (d :: l).dropWhile Text.isBlank = d :: l :=
  List.dropWhile_cons_of_neg (by simp [hd])

/-- What may follow an expression: the end of the text, a plus or minus sign or a closing
parenthesis, but no minus sign that the expression would have taken. -/
def Follows (e : Expr) (rest : List Char) : Prop :=
  ∀ d tail, rest.dropWhile Text.isBlank = d :: tail →
    (d = '+' ∨ d = '-' ∨ d = ')') ∧ (e.EndsInPattern → d ≠ '-')

/-- What may follow a whole list. -/
def FollowsList (e : Expr) (rest : List Char) : Prop :=
  Follows e rest ∧ ∀ tail, rest.dropWhile Text.isBlank ≠ '+' :: tail

/-- A sign or a closing parenthesis may follow, with blanks in front. -/
theorem follows_of_blanks {b rest : List Char} {d : Char} (hb : Blanks b)
    (hd : d = '+' ∨ d = '-' ∨ d = ')') (hends : e.EndsInPattern → d ≠ '-') :
    Follows e (b ++ d :: rest) := by
  have hblank : Text.isBlank d = false := by rcases hd with rfl | rfl | rfl <;> rfl
  intro d' tail h
  rw [dropWhile_blanks hb, dropWhile_cons hblank, List.cons.injEq] at h
  obtain ⟨rfl, -⟩ := h
  exact ⟨hd, hends⟩

/-- A minus sign or a closing parenthesis may follow a list, with blanks in front. -/
theorem followsList_of_blanks {b rest : List Char} {d : Char} (hb : Blanks b)
    (hd : d = '-' ∨ d = ')') (hends : e.EndsInPattern → d ≠ '-') :
    FollowsList e (b ++ d :: rest) := by
  refine ⟨follows_of_blanks hb (.inr hd) hends, fun tail h ↦ ?_⟩
  rw [dropWhile_blanks hb, dropWhile_cons (by rcases hd with rfl | rfl <;> rfl), List.cons.injEq]
    at h
  rcases hd with rfl | rfl <;> exact absurd h.1 (by decide)

/-- A pattern ends where something follows it. -/
theorem takeWhile_of_follows {run rest : List Char} (hrun : ∀ d ∈ run, isPatternChar d = true)
    (hrest : Follows e rest) :
    (run ++ rest).takeWhile isPatternChar = run ∧ (run ++ rest).dropWhile isPatternChar = rest := by
  have hstop : ∀ d tail, rest = d :: tail → isPatternChar d = false := by
    rintro d tail rfl
    by_contra hd
    rw [Bool.not_eq_false] at hd
    have hnext := (hrest d tail (dropWhile_cons (not_isBlank_of_isPatternChar hd))).1
    rcases hnext with rfl | rfl | rfl <;> exact absurd hd (by decide)
  have hnone : rest.takeWhile isPatternChar = [] ∧ rest.dropWhile isPatternChar = rest := by
    cases rest with
    | nil => exact ⟨rfl, rfl⟩
    | cons d tail =>
      have hd := hstop d tail rfl
      exact ⟨List.takeWhile_cons_of_neg (by simp [hd]), List.dropWhile_cons_of_neg (by simp [hd])⟩
  rw [List.takeWhile_append_of_pos hrun, List.dropWhile_append_of_pos hrun, hnone.1, hnone.2,
    List.append_nil]
  exact ⟨rfl, rfl⟩

/-- The length of the headers is not known yet, or is `bytes`. -/
def Cursor.Fits (bytes : Nat) (c : Cursor) : Prop := c.bytes = none ∨ c.bytes = some bytes

/-- The expression was read, up to blanks that follow it. -/
structure Passed (bytes : Nat) (e : Expr) (rest : List Char) (c c' : Cursor) : Prop where
  /-- What follows is left. -/
  rest_eq : c'.skipBlanks.rest = rest.dropWhile Text.isBlank
  /-- The first pattern fixes the length of the headers. -/
  bytes_eq : c'.bytes = some bytes ∨ ¬ e.HasPattern ∧ c'.bytes = c.bytes

/-- The length that was known before is known behind the expression. -/
theorem Passed.fits {rest : List Char} {c' : Cursor} (h : Passed bytes e rest c c')
    (hc : c.Fits bytes) : c'.Fits bytes := by
  rcases h.bytes_eq with h | ⟨-, h⟩
  · exact .inr h
  · rwa [Cursor.Fits, h]

/-- One expression was read behind another. -/
theorem Passed.bytes_eq_behind {e' : Expr} {rest rest' : List Char} {c₁ c₂ c' : Cursor}
    (h : Passed bytes e rest c c₁) (h' : Passed bytes e' rest' c₂ c')
    (hsame : c₂.bytes = c₁.bytes) :
    c'.bytes = some bytes ∨ ¬ (e.HasPattern ∨ e'.HasPattern) ∧ c'.bytes = c.bytes := by
  rcases h'.bytes_eq with hknown | ⟨hnone', heq'⟩
  · exact .inl hknown
  · rcases h.bytes_eq with hknown | ⟨hnone, heq⟩
    · exact .inl (heq'.trans (hsame.trans hknown))
    · exact .inr ⟨fun hsome ↦ hsome.elim hnone hnone', heq'.trans (hsame.trans heq)⟩

/-- A text that begins with `s`, which is a way to write `e`, is read as `e`. -/
structure Complete (text : String) (bytes : Nat) (e : Expr) (s : List Char) : Prop where
  /-- As an item. -/
  item : e.IsItem → ∀ (fuel : Nat) (c : Cursor) (rest : List Char),
    c.skipBlanks.rest = (s ++ rest).dropWhile Text.isBlank → c.Fits bytes → Follows e rest →
    2 * c.skipBlanks.rest.length + 1 ≤ fuel →
    ∃ c', readItem text fuel c = .ok (e.regions, c') ∧ Passed bytes e rest c c'
  /-- Behind a plus sign. -/
  more : ∀ (fuel : Nat) (c : Cursor) (rs : List Region) (rest : List Char),
    c.skipBlanks.rest = '+' :: (s ++ rest) → c.Fits bytes → FollowsList e rest →
    2 * c.skipBlanks.rest.length + 1 ≤ fuel →
    ∃ c', readMore text fuel rs c = .ok (rs ++ e.regions, c') ∧ Passed bytes e rest c c'
  /-- As a list. -/
  list : ∀ (fuel : Nat) (c : Cursor) (rest : List Char),
    c.skipBlanks.rest = (s ++ rest).dropWhile Text.isBlank → c.Fits bytes → FollowsList e rest →
    2 * c.skipBlanks.rest.length + 2 ≤ fuel →
    ∃ c', readList text fuel c = .ok (e.regions, c') ∧ Passed bytes e rest c c'

/-- A list ends where no plus sign follows. -/
theorem readMore_stop {rs : List Region} (hfuel : 0 < fuel)
    (hstop : ∀ tail, c.skipBlanks.rest ≠ '+' :: tail) :
    readMore text fuel rs c = .ok (rs, c.skipBlanks) := by
  obtain ⟨fuel, rfl⟩ := Nat.exists_eq_succ_of_ne_zero hfuel.ne'
  rw [readMore]
  split
  · rename_i tail h
    exact absurd h (hstop tail)
  · rfl

/-- Blanks behind an expression may be skipped or not. -/
theorem Passed.skipBlanks {rest : List Char} {c' : Cursor} (h : Passed bytes e rest c c') :
    Passed bytes e rest c c'.skipBlanks :=
  ⟨(rest_skipBlanks_skipBlanks c').trans h.rest_eq, h.bytes_eq⟩

/-- **An item is also a list.** -/
theorem complete_of_item (hpos : 0 < s.length)
    (h : ∀ (fuel : Nat) (c : Cursor) (rest : List Char),
      c.skipBlanks.rest = (s ++ rest).dropWhile Text.isBlank → c.Fits bytes → Follows e rest →
      2 * c.skipBlanks.rest.length + 1 ≤ fuel →
      ∃ c', readItem text fuel c = .ok (e.regions, c') ∧ Passed bytes e rest c c') :
    Complete text bytes e s where
  item _ := h
  more fuel c rs rest hc hfits hfollows hfuel := by
    obtain ⟨fuel, rfl⟩ := Nat.exists_eq_succ_of_ne_zero (show fuel ≠ 0 by omega)
    have hrest := Cursor.rest_advance_one hc
    have hskip : (c.skipBlanks.advance 1).skipBlanks.rest = (s ++ rest).dropWhile Text.isBlank := by
      rw [← hrest]
      rfl
    have hle := length_skipBlanks_le (c.skipBlanks.advance 1)
    rw [hrest] at hle
    rw [hc, List.length_cons] at hfuel
    obtain ⟨c', hread, hpassed⟩ :=
      h fuel (c.skipBlanks.advance 1) rest hskip hfits hfollows.1 (by omega)
    refine ⟨c'.skipBlanks, ?_, hpassed.skipBlanks.rest_eq, hpassed.bytes_eq⟩
    rw [readMore]
    split
    · rename_i tail _
      rw [hread]
      exact readMore_stop (by rw [List.length_append] at hfuel; omega) fun tail ↦
        hpassed.rest_eq ▸ hfollows.2 tail
    · rename_i hne
      exact absurd hc (hne _)
  list fuel c rest hc hfits hfollows hfuel := by
    obtain ⟨fuel, rfl⟩ := Nat.exists_eq_succ_of_ne_zero (show fuel ≠ 0 by omega)
    obtain ⟨c', hread, hpassed⟩ := h fuel c rest hc hfits hfollows.1 (by omega)
    refine ⟨c'.skipBlanks, ?_, hpassed.skipBlanks⟩
    rw [readList, hread]
    exact readMore_stop (by omega) fun tail ↦ hpassed.rest_eq ▸ hfollows.2 tail

/-- A text begins with a parenthesis or a pattern. -/
theorem Spells.head (hs : Spells e s) (he : e.Proper bytes) (rest : List Char) :
    ∃ d tail, (s ++ rest).dropWhile Text.isBlank = d :: tail ∧
      (d = '(' ∨ isPatternChar d = true) := by
  have hparen : ∀ {b l rest : List Char}, Blanks b → ∃ d tail,
      (b ++ '(' :: l ++ rest).dropWhile Text.isBlank = d :: tail ∧
      (d = '(' ∨ isPatternChar d = true) :=
    fun hb ↦ ⟨'(', _, by rw [List.append_assoc, dropWhile_blanks hb]; rfl, .inl rfl⟩
  have hpattern : ∀ {b run l rest : List Char}, Blanks b → Run bytes run → ∃ d tail,
      (b ++ (run ++ l) ++ rest).dropWhile Text.isBlank = d :: tail ∧
      (d = '(' ∨ isPatternChar d = true) := by
    intro b run l rest hb hrun
    obtain ⟨d, run, rfl⟩ := List.exists_cons_of_ne_nil hrun.ne_nil
    have hd := hrun.chars d List.mem_cons_self
    refine ⟨d, run ++ l ++ rest, ?_, .inr hd⟩
    rw [List.append_assoc, dropWhile_blanks hb]
    exact dropWhile_cons (not_isBlank_of_isPatternChar hd)
  induction hs generalizing rest with
  | nil hb _ _ => exact hparen hb
  | pattern run hb =>
    rw [← List.append_nil run]
    exact hpattern hb he
  | except run hb _ _ _ => exact hpattern hb he.1
  | group hb _ _ _ => exact hparen hb
  | minus hb _ _ _ _ _ _ => exact hparen hb
  | plus _ _ _ ih _ =>
    rw [List.append_assoc]
    exact ih he.2.1 _

/-- A closing parenthesis that is there is read. -/
theorem expect_complete {tail : List Char} (hc : c.skipBlanks.rest = ')' :: tail) :
    expect text ')' c = .ok (c.skipBlanks.advance 1) := by
  rw [expect]
  split
  · rename_i h
    rw [h] at hc
    exact absurd hc (List.cons_ne_nil _ _).symm
  · rename_i d rest h
    rw [h, List.cons.injEq] at hc
    rw [if_pos hc.1]

theorem rest_skipBlanks_of {b l : List Char} {d : Char} (hb : Blanks b)
    (hd : Text.isBlank d = false) (hc : c.skipBlanks.rest = (b ++ d :: l).dropWhile Text.isBlank) :
    c.skipBlanks.rest = d :: l := by
  rw [hc, dropWhile_blanks hb, dropWhile_cons hd]

/-- What is left behind a character and the blanks that follow it. -/
theorem rest_skipBlanks_advance {l : List Char} {d : Char} (hc : c.rest = d :: l) :
    (c.advance 1).skipBlanks.rest = l.dropWhile Text.isBlank := by
  rw [Cursor.skipBlanks, Cursor.skipWhile, Cursor.rest_advance_one hc]

theorem length_skipBlanks_advance_lt {l : List Char} {d : Char} (hc : c.rest = d :: l) :
    (c.advance 1).skipBlanks.rest.length < c.rest.length := by
  rw [rest_skipBlanks_advance hc, hc, List.length_cons]
  exact Nat.lt_succ_of_le (List.dropWhile_sublist _).length_le

/-- The empty set is read. -/
theorem complete_nil {b b' b'' : List Char} (hb : Blanks b) (hb' : Blanks b') (hb'' : Blanks b'') :
    Complete text bytes .nil (b ++ '(' :: (b' ++ 'n' :: 'i' :: 'l' :: (b'' ++ [')']))) := by
  refine complete_of_item (by simp only [List.length_append, List.length_cons]; omega)
    fun fuel c rest hc hfits _ hfuel ↦ ?_
  obtain ⟨fuel, rfl⟩ := Nat.exists_eq_succ_of_ne_zero (show fuel ≠ 0 by omega)
  simp only [List.append_assoc, List.cons_append, List.nil_append] at hc
  have hopen := rest_skipBlanks_of hb rfl hc
  have hnil := rest_skipBlanks_of hb' rfl (rest_skipBlanks_advance hopen)
  have hclose : ((c.skipBlanks.advance 1).skipBlanks.advance 3).skipBlanks.rest = ')' :: rest := by
    rw [Cursor.skipBlanks, Cursor.skipWhile, Cursor.advance, hnil]
    exact (dropWhile_blanks hb'').trans (dropWhile_cons rfl)
  refine ⟨((c.skipBlanks.advance 1).skipBlanks.advance 3).skipBlanks.advance 1, ?_,
    rest_skipBlanks_advance hclose, .inr ⟨by rintro ⟨⟩, rfl⟩⟩
  rw [readItem]
  split
  · rename_i h
    exact absurd (hopen.symm.trans h) (List.cons_ne_nil _ _)
  · simp only [hnil, expect_complete hclose]
    rfl
  · rename_i h
    exact absurd hopen (h _)

/-- An opening parenthesis with a list behind it. -/
theorem readItem_open {l : List Char} {d : Char} {tail : List Char}
    (hopen : c.skipBlanks.rest = '(' :: l) (hl : l.dropWhile Text.isBlank = d :: tail)
    (hd : d = '(' ∨ isPatternChar d = true) :
    readItem text (fuel + 1) c = (do
      let (left, c) ← readList text fuel (c.skipBlanks.advance 1).skipBlanks
      let c := c.skipBlanks
      match c.rest with
      | '-' :: _ => do
        let (right, c) ← readList text fuel (c.advance 1)
        let c ← expect text ')' c
        return ([← difference text left right], c)
      | _ => do
        return (left, ← expect text ')' c)) := by
  have hrest : (c.skipBlanks.advance 1).skipBlanks.rest = d :: tail :=
    (rest_skipBlanks_advance hopen).trans hl
  rw [readItem]
  split
  · rename_i h
    exact absurd (hopen.symm.trans h) (List.cons_ne_nil _ _)
  · simp only
    split
    · rename_i h
      rw [hrest, List.cons.injEq] at h
      rcases hd with rfl | hd
      · exact absurd h.1 (by decide)
      · rw [h.1] at hd
        exact absurd hd (by decide)
    · rfl
  · rename_i h
    exact absurd hopen (h _)

/-- A list in parentheses is read. -/
theorem Complete.group {b b' : List Char} (hb : Blanks b) (hb' : Blanks b') (hs : Spells e s)
    (he : e.Proper bytes) (h : Complete text bytes e s) :
    Complete text bytes (.group e) (b ++ '(' :: (s ++ (b' ++ [')']))) := by
  refine complete_of_item (by simp only [List.length_append, List.length_cons]; omega)
    fun fuel c rest hc hfits _ hfuel ↦ ?_
  obtain ⟨fuel, rfl⟩ := Nat.exists_eq_succ_of_ne_zero (show fuel ≠ 0 by omega)
  simp only [List.append_assoc, List.cons_append, List.nil_append] at hc
  have hopen := rest_skipBlanks_of hb rfl hc
  obtain ⟨d, tail, hl, hd⟩ := hs.head he (b' ++ ')' :: rest)
  have hinner := (rest_skipBlanks_skipBlanks _).trans (rest_skipBlanks_advance hopen)
  have hle := length_skipBlanks_advance_lt hopen
  rw [← rest_skipBlanks_skipBlanks] at hle
  obtain ⟨c', hread, hpassed⟩ := h.list fuel (c.skipBlanks.advance 1).skipBlanks _ hinner hfits
    (followsList_of_blanks hb' (.inr rfl) fun _ ↦ by decide) (by omega)
  have hclose : c'.skipBlanks.rest = ')' :: rest := rest_skipBlanks_of hb' rfl hpassed.rest_eq
  have hclose' : c'.skipBlanks.skipBlanks.rest = ')' :: rest :=
    (rest_skipBlanks_skipBlanks _).trans hclose
  refine ⟨c'.skipBlanks.skipBlanks.advance 1, ?_, rest_skipBlanks_advance hclose', hpassed.bytes_eq⟩
  rw [readItem_open hopen hl hd, hread]
  simp only [bind, Except.bind, hclose, expect_complete hclose']
  rfl

/-- A difference in parentheses is read. -/
theorem Complete.minus {b b' b'' s' : List Char} (hb : Blanks b) (hb' : Blanks b')
    (hb'' : Blanks b'') (hs : Spells l s) (he : (Expr.minus l r).Proper bytes)
    (hl : Complete text bytes l s) (hr : Complete text bytes r s') :
    Complete text bytes (.minus l r)
      (b ++ '(' :: (s ++ (b' ++ '-' :: (s' ++ (b'' ++ [')']))))) := by
  obtain ⟨hleft, hone, hopen, hright⟩ := he
  refine complete_of_item (by simp only [List.length_append, List.length_cons]; omega)
    fun fuel c rest hc hfits _ hfuel ↦ ?_
  obtain ⟨fuel, rfl⟩ := Nat.exists_eq_succ_of_ne_zero (show fuel ≠ 0 by omega)
  simp only [List.append_assoc, List.cons_append, List.nil_append] at hc
  have hparen := rest_skipBlanks_of hb rfl hc
  obtain ⟨d, tail, hhead, hd⟩ := hs.head hleft (b' ++ '-' :: (s' ++ (b'' ++ ')' :: rest)))
  have hinner := (rest_skipBlanks_skipBlanks _).trans (rest_skipBlanks_advance hparen)
  have hlen := congrArg List.length hparen
  simp only [List.length_append, List.length_cons] at hlen
  have hle := length_skipBlanks_advance_lt hparen
  rw [← rest_skipBlanks_skipBlanks] at hle
  obtain ⟨c₁, hread, hpassed⟩ := hl.list fuel (c.skipBlanks.advance 1).skipBlanks _ hinner hfits
    (followsList_of_blanks hb' (.inl rfl) fun h ↦ absurd h hopen) (by omega)
  have hminus : c₁.skipBlanks.rest = '-' :: (s' ++ (b'' ++ ')' :: rest)) :=
    rest_skipBlanks_of hb' rfl hpassed.rest_eq
  have hbehind := rest_skipBlanks_advance hminus
  have hle' := length_skipBlanks_advance_lt hminus
  rw [hminus] at hle'
  simp only [List.length_append, List.length_cons] at hle'
  have hfits₁ : (c₁.skipBlanks.advance 1).Fits bytes := hpassed.fits hfits
  obtain ⟨c₂, hread', hpassed'⟩ := hr.list fuel (c₁.skipBlanks.advance 1) _ hbehind hfits₁
    (followsList_of_blanks hb'' (.inr rfl) fun _ ↦ by decide) (by omega)
  have hclose : c₂.skipBlanks.rest = ')' :: rest := rest_skipBlanks_of hb'' rfl hpassed'.rest_eq
  obtain ⟨q, hq⟩ := exists_regions_eq hleft hone
  have hframe :=
    bytes_frame ((containsAny_regions hleft).1 q (hq ▸ List.mem_singleton_self q)).uniform
  have hknown := hpassed.bytes_eq_behind hpassed' rfl
  refine ⟨c₂.skipBlanks.advance 1, ?_, rest_skipBlanks_advance hclose, hknown⟩
  rw [readItem_open hparen hhead hd, hread]
  simp only [bind, Except.bind, hminus, hread', expect_complete hclose, hq,
    difference_eq hframe (uniform_regions hright), Expr.regions]
  rfl

/-- **A pattern that was written is read**, and fixes the length if none was known. -/
theorem readPattern_complete (text : String) {run rest : List Char}
    (hc : c.skipBlanks.rest = run ++ rest) (hrun : Run bytes run) (hfits : c.Fits bytes)
    (hrest : Follows e rest) :
    ∃ c', readPattern text c = .ok (.ofTrits (tritsOf run), c') ∧ c'.rest = rest ∧
      c'.bytes = some bytes := by
  obtain ⟨htake, hdrop⟩ := takeWhile_of_follows hrun.chars hrest
  have hparse : Pattern.parse (String.ofList run) = .ok (.ofTrits (tritsOf run)) :=
    (Pattern.parse_ofList fun d hd ↦ isTritChar_of_isPatternChar (hrun.chars d hd)).trans
      (if_pos hrun.mod_eq_zero)
  have hleft : (c.skipBlanks.skipWhile isPatternChar).rest = rest := by
    rw [Cursor.skipWhile, hc, hdrop]
  obtain ⟨d, run', hcons⟩ := List.exists_cons_of_ne_nil hrun.ne_nil
  rw [← hc] at htake
  rw [readPattern]
  split
  · rename_i h
    rw [hc, hcons] at h
    exact absurd h (List.cons_ne_nil _ _)
  · rename_i h
    exact absurd (htake.symm.trans h) hrun.ne_nil
  · rw [htake, hparse]
    rcases hfits with hnone | hsome
    · have hbytes : (c.skipBlanks.skipWhile isPatternChar).bytes = none := hnone
      simp only [bind, Except.bind, hbytes]
      exact ⟨_, rfl, hleft, congrArg some hrun.bytes_eq⟩
    · have hbytes : (c.skipBlanks.skipWhile isPatternChar).bytes = some bytes := hsome
      simp only [bind, Except.bind, hbytes, hrun.bytes_eq, if_true]
      exact ⟨_, rfl, hleft, hbytes⟩

/-- A pattern outside parentheses. -/
theorem readItem_pattern {run rest : List Char} {c₁ : Cursor} (hc : c.skipBlanks.rest = run ++ rest)
    (hrun : Run bytes run)
    (hread : readPattern text c.skipBlanks = .ok (.ofTrits (tritsOf run), c₁)) :
    readItem text (fuel + 1) c = (
      match c₁.skipBlanks.rest with
      | '-' :: _ => do
        let (right, c) ← readItem text fuel (c₁.skipBlanks.advance 1)
        return ([← difference text [.plain (.ofTrits (tritsOf run))] right], c)
      | _ => return ([.plain (.ofTrits (tritsOf run))], c₁.skipBlanks)) := by
  obtain ⟨d, run', rfl⟩ := List.exists_cons_of_ne_nil hrun.ne_nil
  have hd := hrun.chars d List.mem_cons_self
  rw [readItem]
  split
  · rename_i h
    exact absurd (hc.symm.trans h) (List.cons_ne_nil _ _)
  · rename_i h
    rw [hc, List.cons_append, List.cons.injEq] at h
    rw [h.1] at hd
    exact absurd hd (by decide)
  · rw [hread]
    rfl

theorem dropWhile_run {run l : List Char} (hrun : Run bytes run) :
    (run ++ l).dropWhile Text.isBlank = run ++ l := by
  obtain ⟨d, run, rfl⟩ := List.exists_cons_of_ne_nil hrun.ne_nil
  exact dropWhile_cons (not_isBlank_of_isPatternChar (hrun.chars d List.mem_cons_self))

/-- A pattern is read as an item. -/
theorem complete_pattern {b run : List Char} (hb : Blanks b) (hrun : Run bytes run) :
    Complete text bytes (.pattern run) (b ++ run) := by
  have hpos := List.length_pos_iff.2 hrun.ne_nil
  refine complete_of_item (by rw [List.length_append]; omega)
    fun fuel c rest hc hfits hfollows hfuel ↦ ?_
  obtain ⟨fuel, rfl⟩ := Nat.exists_eq_succ_of_ne_zero (show fuel ≠ 0 by omega)
  rw [List.append_assoc, dropWhile_blanks hb, dropWhile_run hrun] at hc
  obtain ⟨c₁, hread, hrest, hbytes⟩ :=
    readPattern_complete text ((rest_skipBlanks_skipBlanks c).trans hc) hrun hfits hfollows
  have hskip : c₁.skipBlanks.rest = rest.dropWhile Text.isBlank := by
    rw [Cursor.skipBlanks, Cursor.skipWhile, hrest]
  refine ⟨c₁.skipBlanks, ?_, (rest_skipBlanks_skipBlanks c₁).trans hskip, .inl hbytes⟩
  rw [readItem_pattern hc hrun hread]
  split
  · rename_i tail h
    exact absurd rfl ((hfollows '-' tail (hskip.symm.trans h)).2 trivial)
  · rfl

/-- A pattern with a minus sign behind it is read together with the item that follows. -/
theorem Complete.except {b b' run : List Char} (hb : Blanks b) (hb' : Blanks b')
    (hrun : Run bytes run) (hitem : e.IsItem) (he : e.Proper bytes) (h : Complete text bytes e s) :
    Complete text bytes (.except run e) (b ++ (run ++ (b' ++ '-' :: s))) := by
  refine complete_of_item (by simp only [List.length_append, List.length_cons]; omega)
    fun fuel c rest hc hfits hfollows hfuel ↦ ?_
  obtain ⟨fuel, rfl⟩ := Nat.exists_eq_succ_of_ne_zero (show fuel ≠ 0 by omega)
  simp only [List.append_assoc, List.cons_append] at hc
  rw [dropWhile_blanks hb, dropWhile_run hrun] at hc
  have hnext : Follows .nil (b' ++ '-' :: (s ++ rest)) :=
    follows_of_blanks hb' (.inr (.inl rfl)) fun h ↦ h.elim
  obtain ⟨c₁, hread, hrest, hbytes⟩ :=
    readPattern_complete text ((rest_skipBlanks_skipBlanks c).trans hc) hrun hfits hnext
  have hminus : c₁.skipBlanks.rest = '-' :: (s ++ rest) := by
    rw [Cursor.skipBlanks, Cursor.skipWhile, hrest, dropWhile_blanks hb', dropWhile_cons rfl]
  have hbehind := rest_skipBlanks_advance hminus
  have hle := length_skipBlanks_advance_lt hminus
  have hlen := congrArg List.length hc
  rw [hminus] at hle
  simp only [List.length_append, List.length_cons] at hle hlen
  obtain ⟨c₂, hread', hpassed⟩ := h.item hitem fuel (c₁.skipBlanks.advance 1) rest hbehind
    (.inr hbytes) hfollows (by omega)
  refine ⟨c₂, ?_, hpassed.rest_eq, ?_⟩
  · rw [readItem_pattern hc hrun hread, hminus]
    simp only [bind, Except.bind, hread', Expr.regions,
      difference_eq (q := .plain (.ofTrits (tritsOf run))) hrun.bytes_eq (uniform_regions he)]
    rfl
  · rcases hpassed.bytes_eq with h | ⟨-, h⟩
    · exact .inl h
    · exact .inl (h.trans hbytes)

theorem length_dropWhile_le_append (s l : List Char) (p : Char → Bool) :
    (l.dropWhile p).length ≤ ((s ++ l).dropWhile p).length := by
  induction s with
  | nil => exact Nat.le_refl _
  | cons d s ih =>
    rw [List.cons_append, List.dropWhile_cons]
    split
    · exact ih
    · have := (List.dropWhile_sublist (l := l) p).length_le
      rw [List.length_cons, List.length_append]
      omega

/-- A list is read item by item. -/
theorem Complete.plus {b s' : List Char} {es : Expr} (hb : Blanks b) (hitem : e.IsItem)
    (h : Complete text bytes e s) (h' : Complete text bytes es s') :
    Complete text bytes (.plus e es) (s ++ (b ++ '+' :: s')) := by
  -- the item in front, then whatever is read behind the plus sign
  have hstep : ∀ (fuel : Nat) (c : Cursor) (rs : List Region) (rest : List Char),
      c.skipBlanks.rest = (s ++ (b ++ '+' :: (s' ++ rest))).dropWhile Text.isBlank → c.Fits bytes →
      FollowsList es rest → 2 * c.skipBlanks.rest.length + 1 ≤ fuel →
      ∃ c₁ c₂, readItem text fuel c = .ok (e.regions, c₁) ∧
        readMore text fuel (rs ++ e.regions) c₁ = .ok (rs ++ (Expr.plus e es).regions, c₂) ∧
        Passed bytes (.plus e es) rest c c₂ := by
    intro fuel c rs rest hc hfits hfollows hfuel
    obtain ⟨c₁, hread, hpassed⟩ := h.item hitem fuel c _ hc hfits
      (follows_of_blanks hb (.inl rfl) fun _ ↦ by decide) hfuel
    have hplus : c₁.skipBlanks.rest = '+' :: (s' ++ rest) :=
      rest_skipBlanks_of hb rfl hpassed.rest_eq
    have hle := length_dropWhile_le_append s (b ++ '+' :: (s' ++ rest)) Text.isBlank
    rw [← hc, ← hpassed.rest_eq] at hle
    obtain ⟨c₂, hmore, hpassed'⟩ :=
      h'.more fuel c₁ (rs ++ e.regions) rest hplus (hpassed.fits hfits) hfollows (by omega)
    exact ⟨c₁, c₂, hread, by rw [hmore, List.append_assoc, Expr.regions], hpassed'.rest_eq,
      hpassed.bytes_eq_behind hpassed' rfl⟩
  refine ⟨False.elim, fun fuel c rs rest hc hfits hfollows hfuel ↦ ?_,
    fun fuel c rest hc hfits hfollows hfuel ↦ ?_⟩
  · obtain ⟨fuel, rfl⟩ := Nat.exists_eq_succ_of_ne_zero (show fuel ≠ 0 by omega)
    have hskip := rest_skipBlanks_advance hc
    have hle := length_skipBlanks_advance_lt hc
    simp only [List.append_assoc, List.cons_append] at hskip
    obtain ⟨c₁, c₂, hread, hmore, hpassed⟩ :=
      hstep fuel (c.skipBlanks.advance 1) rs rest hskip hfits hfollows (by omega)
    refine ⟨c₂, ?_, hpassed.rest_eq, hpassed.bytes_eq⟩
    rw [readMore]
    split
    · rw [hread]
      exact hmore
    · rename_i hne
      exact absurd hc (hne _)
  · obtain ⟨fuel, rfl⟩ := Nat.exists_eq_succ_of_ne_zero (show fuel ≠ 0 by omega)
    simp only [List.append_assoc, List.cons_append] at hc
    obtain ⟨c₁, c₂, hread, hmore, hpassed⟩ := hstep fuel c [] rest hc hfits hfollows (by omega)
    refine ⟨c₂, ?_, hpassed⟩
    rw [readList, hread]
    exact hmore

/-- **Every text is read as what it was written for.** -/
theorem complete (hs : Spells e s) (he : e.Proper bytes) : Complete text bytes e s := by
  induction hs with
  | nil hb hb' hb'' => exact complete_nil hb hb' hb''
  | pattern run hb => exact complete_pattern hb he
  | except run hb hb' _ ih => exact (ih he.2.2).except hb hb' he.1 he.2.1 he.2.2
  | group hb hs hb' ih => exact (ih he).group hb hb' hs he
  | minus hb hl hb' _ hb'' ihl ihr => exact (ihl he.1).minus hb hb' hb'' hl he (ihr he.2.2.2)
  | plus _ hb _ ih ihs => exact (ih he.2.1).plus hb he.1 (ihs he.2.2)

/-- **A text is read up to its end.** -/
theorem readAll_complete {known : Option Nat} (he : Writes text bytes e)
    (hknown : known = none ∨ known = some bytes) :
    ∃ c, readAll text known = .ok (e.regions, c) ∧
      (c.bytes = some bytes ∨ ¬ e.HasPattern ∧ c.bytes = known) := by
  obtain ⟨s, b, htext, hs, hb, hproper⟩ := he
  have hend : b.dropWhile Text.isBlank = [] := List.dropWhile_eq_nil_iff.2 hb
  have hle := length_skipBlanks_le (Cursor.start text known)
  have hstart : (Cursor.start text known).skipBlanks.rest = (s ++ b).dropWhile Text.isBlank := by
    rw [← htext]
    rfl
  have hcomplete : Complete text bytes e s := complete hs hproper
  obtain ⟨c, hread, hpassed⟩ := hcomplete.list
    (2 * (Cursor.start text known).rest.length + 2) (Cursor.start text known) b hstart hknown
    ⟨fun d tail h ↦ absurd (hend.symm.trans h) (List.cons_ne_nil _ _).symm,
      fun tail h ↦ absurd (hend.symm.trans h) (List.cons_ne_nil _ _).symm⟩ (by omega)
  refine ⟨c.skipBlanks, ?_, hpassed.bytes_eq⟩
  rw [readAll]
  simp only [bind, Except.bind, hread, hpassed.rest_eq.trans hend]

end HeaderFlow.Space
