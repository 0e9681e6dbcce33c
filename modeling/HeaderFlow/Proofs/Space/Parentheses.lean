import HeaderFlow.Proofs.Space.Reading

/-!
# Parentheses around a pattern

A pattern in a written set may be put in parentheses, and the text is read as before, **unless a
minus sign follows the pattern**. A bare pattern takes that minus sign, with one item behind it; a
pattern in parentheses does not, and then the sign belongs to the parentheses around it, with a
whole list behind it, or to nothing at all. So the parentheses may turn `v - w + u` into
`v - (w + u)`, or a text that is read into one that is not. Only where the pattern and the item
behind its minus sign fill a pair of parentheses are the two readings the same
(`parse_parenthesized`).

The proof replaces one item of a text by another. `Spells.exists_itemAt` finds the item that begins
at a given place, by induction on how the text was written, and says that **any expression that
comes to the same regions may be written there** (`Expr.Replaces`). How far the item reaches is
settled by the reader, which stops in one place only (`Spells.eq_of_append`).
-/

namespace HeaderFlow.Space

variable {bytes : Nat} {d : Char} {p : Char → Bool}
  {a a' b b' l pre post rest s v x x' y : List Char} {e e' es i j r : Expr}

/-! ### Stretches of a text

Blanks and the characters of patterns come in stretches, which the readers take as far as they
go. -/

/-- The text does not begin with a character of the kind. -/
def StopsAt (p : Char → Bool) (l : List Char) : Prop := ∀ c ∈ l.head?, p c = false

theorem stopsAt_cons (hd : p d = false) : StopsAt p (d :: rest) := by
  rintro c ⟨⟩
  exact hd

/-- Where both parts stop, the text stops. -/
theorem StopsAt.append (ha : StopsAt p a) (hb : StopsAt p b) : StopsAt p (a ++ b) := by
  cases a with
  | nil => exact hb
  | cons c a => exact ha

/-- A stretch of characters is taken up to where it stops. -/
theorem takeWhile_append_of_stopsAt (ha : ∀ c ∈ a, p c = true) (hx : StopsAt p x) :
    (a ++ x).takeWhile p = a := by
  have hnone : x.takeWhile p = [] := by
    cases x with
    | nil => rfl
    | cons c x => exact List.takeWhile_cons_of_neg (by simp [hx c rfl])
  rw [List.takeWhile_append_of_pos ha, hnone, List.append_nil]

/-- A stretch of characters of one kind ends in one place only. -/
theorem eq_of_stopsAt (ha : ∀ c ∈ a, p c = true) (ha' : ∀ c ∈ a', p c = true) (hx : StopsAt p x)
    (hx' : StopsAt p x') (h : a ++ x = a' ++ x') : a = a' ∧ x = x' := by
  have heq : a = a' := by
    rw [← takeWhile_append_of_stopsAt ha hx, h, takeWhile_append_of_stopsAt ha' hx']
  exact ⟨heq, List.append_cancel_left (heq ▸ h)⟩

/-! ### Where an item begins

An item begins with a parenthesis or with the first character of a pattern. If a text is known in
two ways, the place where an item begins is inside one of the parts that it was put together from,
and the lemmas here say in which. -/

/-- In the text, an item begins with `d` behind `pre`: with a parenthesis or with the first
character of a pattern. -/
structure BeginsIn (l pre : List Char) (d : Char) (rest : List Char) : Prop where
  split : l = pre ++ d :: rest
  begins : d = '(' ∨ isPatternChar d = true ∧ ∀ c ∈ pre.getLast?, isPatternChar c = false

namespace BeginsIn

/-- An item begins with a parenthesis or with a character of a pattern. -/
theorem ne {c : Char} (h : BeginsIn l pre d rest) (hc : c ≠ '(')
    (hpattern : isPatternChar c = false) : d ≠ c := by
  rintro rfl
  rcases h.begins with rfl | ⟨hd, -⟩
  · exact hc rfl
  · exact absurd (hpattern.symm.trans hd) (by decide)

/-- No item begins with a blank. -/
theorem not_isBlank (h : BeginsIn l pre d rest) : Text.isBlank d = false := by
  rcases h.begins with rfl | ⟨hd, -⟩
  · rfl
  · exact not_isBlank_of_isPatternChar hd

/-- What was passed on the way has no say, unless it is the character right before. -/
theorem behind (h : BeginsIn l (a ++ pre) d rest) (hsplit : b = pre ++ d :: rest) :
    BeginsIn b pre d rest := by
  refine ⟨hsplit, h.begins.imp_right fun ⟨hpattern, hlast⟩ ↦ ⟨hpattern, fun c hc ↦ hlast c ?_⟩⟩
  rw [List.getLast?_append, Option.mem_def.1 hc]
  rfl

/-- An item begins in one of two parts of a text. -/
theorem append (h : BeginsIn (a ++ b) pre d rest) :
    (∃ rest', BeginsIn a pre d rest' ∧ rest = rest' ++ b) ∨
    ∃ pre', pre = a ++ pre' ∧ BeginsIn b pre' d rest := by
  obtain ⟨pre', rfl, hb⟩ | ⟨c, ha, hc⟩ := List.append_eq_append_iff.1 h.split
  · exact .inr ⟨pre', rfl, h.behind hb⟩
  · cases c with
    | nil =>
      rw [List.append_nil] at ha
      rw [← List.append_nil pre, ← ha] at h
      exact .inr ⟨[], by rw [List.append_nil, ha], h.behind hc.symm⟩
    | cons c rest' =>
      obtain ⟨rfl, rfl⟩ := List.cons.inj hc
      exact .inl ⟨rest', ⟨ha, h.begins⟩, rfl⟩

/-- No item begins among blanks. -/
theorem blanks (h : BeginsIn (a ++ b) pre d rest) (ha : Blanks a) :
    ∃ pre', pre = a ++ pre' ∧ BeginsIn b pre' d rest := by
  obtain ⟨rest', h', -⟩ | hbehind := h.append
  · have hblank := ha d (h'.split ▸ List.mem_append_right _ List.mem_cons_self)
    rw [h.not_isBlank] at hblank
    exact absurd hblank (by decide)
  · exact hbehind

/-- Behind a parenthesis an item may begin. -/
theorem paren (h : BeginsIn ('(' :: b) pre d rest) :
    (pre = [] ∧ '(' :: b = d :: rest) ∨ ∃ pre', pre = '(' :: pre' ∧ BeginsIn b pre' d rest := by
  obtain ⟨rfl, hcons⟩ | ⟨pre', rfl, hb⟩ := List.cons_eq_append_iff.1 h.split
  · exact .inl ⟨rfl, hcons.symm⟩
  · exact .inr ⟨pre', rfl, h.behind (a := ['(']) hb⟩

/-- No item begins with another character. -/
theorem char {c : Char} (h : BeginsIn (c :: b) pre d rest) (hc : c ≠ '(')
    (hpattern : isPatternChar c = false) : ∃ pre', pre = c :: pre' ∧ BeginsIn b pre' d rest := by
  obtain ⟨-, hcons⟩ | ⟨pre', rfl, hb⟩ := List.cons_eq_append_iff.1 h.split
  · exact absurd (List.cons.inj hcons).1 (h.ne hc hpattern)
  · exact ⟨pre', rfl, h.behind (a := [c]) hb⟩

/-- An item begins at a pattern only with its first character. -/
theorem run (h : BeginsIn (a ++ b) pre d rest) (ha : ∀ c ∈ a, isPatternChar c = true) :
    (pre = [] ∧ a ++ b = d :: rest) ∨ ∃ pre', pre = a ++ pre' ∧ BeginsIn b pre' d rest := by
  obtain ⟨rest', h', rfl⟩ | hbehind := h.append
  · left
    have hchar := ha d (h'.split ▸ List.mem_append_right _ List.mem_cons_self)
    have hlast : ∀ c ∈ pre.getLast?, isPatternChar c = false := by
      rcases h.begins with rfl | ⟨-, hlast⟩
      · exact absurd hchar (by decide)
      · exact hlast
    cases hpre : pre.getLast? with
    | none =>
      obtain rfl := List.getLast?_eq_none_iff.1 hpre
      exact ⟨rfl, h.split⟩
    | some c =>
      have hc := ha c (h'.split ▸ List.mem_append_left _ (List.mem_of_getLast? hpre))
      rw [hlast c hpre] at hc
      exact absurd hc (by decide)
  · exact .inr hbehind

theorem not_nil : ¬ BeginsIn [] pre d rest := fun h ↦ absurd h.split (by simp)

/-- No item begins at a closing parenthesis. -/
theorem not_closing (hb : Blanks b) : ¬ BeginsIn (b ++ [')']) pre d rest := fun h ↦ by
  obtain ⟨pre₁, -, h₁⟩ := h.blanks hb
  obtain ⟨pre₂, -, h₂⟩ := h₁.char (by decide) (by decide)
  exact not_nil h₂

end BeginsIn

/-! ### Putting one item for another

The induction on how the text was written goes down to the item at the place in question. On the way
back up each constructor is rebuilt around the new item, which needs that it comes to the same
regions and takes no minus sign that the old one left. -/

/-- The expression `j` may be written for `i`: it comes to the same regions, and takes no minus sign
that `i` would have left alone. -/
structure Expr.Replaces (bytes : Nat) (i j : Expr) : Prop where
  isItem : i.IsItem → j.IsItem
  proper : i.Proper bytes → j.Proper bytes
  regions : j.regions = i.regions
  terms : j.terms = i.terms
  endsInPattern : j.EndsInPattern → i.EndsInPattern

namespace Expr.Replaces

/-! Whatever is around it, the whole is replaced as well. -/

/-- What is behind the minus sign of a pattern may be replaced. -/
theorem except (h : e.Replaces bytes e') (run : List Char) :
    (Expr.except run e).Replaces bytes (.except run e') where
  isItem _ := trivial
  proper he := ⟨he.1, h.isItem he.2.1, h.proper he.2.2⟩
  regions := by rw [Expr.regions, Expr.regions, h.regions]
  terms := rfl
  endsInPattern := h.endsInPattern

/-- What is in parentheses may be replaced. -/
theorem group (h : e.Replaces bytes e') : (Expr.group e).Replaces bytes (.group e') where
  isItem _ := trivial
  proper := h.proper
  regions := h.regions
  terms := h.terms
  endsInPattern := id

/-- The left side of a difference may be replaced. -/
theorem minus_left (h : e.Replaces bytes e') (r : Expr) :
    (Expr.minus e r).Replaces bytes (.minus e' r) where
  isItem _ := trivial
  proper he :=
    ⟨h.proper he.1, h.terms.trans he.2.1, fun hends ↦ he.2.2.1 (h.endsInPattern hends), he.2.2.2⟩
  regions := by rw [Expr.regions, Expr.regions, h.regions]
  terms := rfl
  endsInPattern := id

/-- The right side of a difference may be replaced. -/
theorem minus_right (h : e.Replaces bytes e') (l : Expr) :
    (Expr.minus l e).Replaces bytes (.minus l e') where
  isItem _ := trivial
  proper he := ⟨he.1, he.2.1, he.2.2.1, h.proper he.2.2.2⟩
  regions := by rw [Expr.regions, Expr.regions, h.regions]
  terms := rfl
  endsInPattern := id

/-- The first item of a list may be replaced. -/
theorem plus_first (h : e.Replaces bytes e') (es : Expr) :
    (Expr.plus e es).Replaces bytes (.plus e' es) where
  isItem := False.elim
  proper he := ⟨h.isItem he.1, h.proper he.2.1, he.2.2⟩
  regions := by rw [Expr.regions, Expr.regions, h.regions]
  terms := by rw [Expr.terms, Expr.terms, h.terms]
  endsInPattern := id

/-- The other items of a list may be replaced. -/
theorem plus_rest (h : es.Replaces bytes e') (e : Expr) :
    (Expr.plus e es).Replaces bytes (.plus e e') where
  isItem := False.elim
  proper he := ⟨he.1, he.2.1, h.proper he.2.2⟩
  regions := by rw [Expr.regions, Expr.regions, h.regions]
  terms := by rw [Expr.terms, Expr.terms, h.terms]
  endsInPattern := h.endsInPattern

end Expr.Replaces

/-- The item `i` of `e` is written as `x` between `pre` and `post`, and another one may be written
there. -/
structure ItemAt (bytes : Nat) (e : Expr) (pre : List Char) (i : Expr) (x post : List Char) :
    Prop where
  isItem : i.IsItem
  spells : Spells i x
  proper : i.Proper bytes
  /-- No character of a pattern follows. -/
  stops : StopsAt isPatternChar post
  replace : ∀ j y, Spells j y → i.Replaces bytes j →
    ∃ e', Spells e' (pre ++ (y ++ post)) ∧ e.Replaces bytes e'

/-- An item of `e` is written right behind `pre`, where `rest` begins. -/
def HasItemAt (bytes : Nat) (e : Expr) (pre rest : List Char) : Prop :=
  ∃ i x post, rest = x ++ post ∧ ItemAt bytes e pre i x post

/-- An item that begins right behind its blanks is the whole. -/
theorem hasItemAt_self (hitem : e.IsItem) (hs : Spells e x) (he : e.Proper bytes) (hb : Blanks b)
    (hx : x = rest) : HasItemAt bytes e (b ++ []) rest := by
  refine ⟨e, x, [], by rw [← hx, List.append_nil], hitem, hs, he, (fun _ h ↦ nomatch h),
    fun j y hy hj ↦ ⟨j, ?_, hj⟩⟩
  simpa using hy.blanks hb

/-- **An item of a part is an item of the whole.** -/
theorem HasItemAt.inside {around : Expr → Expr} (h : HasItemAt bytes e pre rest)
    (before behind : List Char)
    (hspells : ∀ e' s', Spells e' s' → Spells (around e') (before ++ (s' ++ behind)))
    (hreplaces : ∀ e', e.Replaces bytes e' → (around e).Replaces bytes (around e'))
    (hstops : StopsAt isPatternChar behind) :
    HasItemAt bytes (around e) (before ++ pre) (rest ++ behind) := by
  obtain ⟨i, x, post, rfl, hi⟩ := h
  refine ⟨i, x, post ++ behind, List.append_assoc .., hi.isItem, hi.spells, hi.proper,
    hi.stops.append hstops, fun j y hy hj ↦ ?_⟩
  obtain ⟨e', hs, he'⟩ := hi.replace j y hy hj
  refine ⟨around e', ?_, hreplaces e' he'⟩
  simpa using hspells e' _ hs

/-- Blanks are no characters of a pattern. -/
theorem Blanks.stopsAt (hb : Blanks b) : StopsAt isPatternChar b := by
  intro c hc
  by_contra hchar
  have hblank := not_isBlank_of_isPatternChar (Bool.not_eq_false _ ▸ hchar)
  rw [hb c (List.mem_of_mem_head? hc)] at hblank
  exact absurd hblank (by decide)

theorem stopsAt_blanks (hb : Blanks b) (hd : isPatternChar d = false) :
    StopsAt isPatternChar (b ++ d :: rest) :=
  (Blanks.stopsAt hb).append (stopsAt_cons hd)

/-- **Where an item may begin, one does.** -/
theorem Spells.hasItemAt (hs : Spells e s) (he : e.Proper bytes) (h : BeginsIn s pre d rest) :
    HasItemAt bytes e pre (d :: rest) := by
  have hnone : Blanks [] := List.forall_mem_nil _
  have hend : StopsAt isPatternChar [] := fun _ h ↦ nomatch h
  induction hs generalizing pre rest with
  | nil hb hb' hb'' =>
    obtain ⟨pre₁, rfl, h₁⟩ := h.blanks hb
    obtain ⟨rfl, hx⟩ | ⟨pre₂, rfl, h₂⟩ := h₁.paren
    · exact hasItemAt_self trivial (.nil hnone hb' hb'') trivial hb hx
    -- the rest of it is neither a parenthesis nor a pattern
    obtain ⟨pre₃, rfl, h₃⟩ := h₂.blanks hb'
    obtain ⟨pre₄, rfl, h₄⟩ := h₃.char (by decide) (by decide)
    obtain ⟨pre₅, rfl, h₅⟩ := h₄.char (by decide) (by decide)
    obtain ⟨pre₆, rfl, h₆⟩ := h₅.char (by decide) (by decide)
    exact absurd h₆ (BeginsIn.not_closing hb'')
  | pattern run hb =>
    obtain ⟨pre₁, rfl, h₁⟩ := h.blanks hb
    rw [← List.append_nil run] at h₁
    obtain ⟨rfl, hx⟩ | ⟨pre₂, rfl, h₂⟩ := h₁.run he.chars
    · rw [List.append_nil] at hx
      exact hasItemAt_self trivial (.pattern run hnone) he hb hx
    · exact absurd h₂ BeginsIn.not_nil
  | @except b b' s e run hb hb' hs ih =>
    obtain ⟨pre₁, rfl, h₁⟩ := h.blanks hb
    obtain ⟨rfl, hx⟩ | ⟨pre₂, rfl, h₂⟩ := h₁.run he.1.chars
    · exact hasItemAt_self trivial (.except run hnone hb' hs) he hb hx
    obtain ⟨pre₃, rfl, h₃⟩ := h₂.blanks hb'
    obtain ⟨pre₄, rfl, h₄⟩ := h₃.char (by decide) (by decide)
    simpa using (ih he.2.2 h₄).inside (b ++ (run ++ (b' ++ ['-']))) []
      (fun e' s₁ hs₁ ↦ by simpa using .except run hb hb' hs₁) (fun e' he' ↦ he'.except run) hend
  | @group b b' s e hb hs hb' ih =>
    obtain ⟨pre₁, rfl, h₁⟩ := h.blanks hb
    obtain ⟨rfl, hx⟩ | ⟨pre₂, rfl, h₂⟩ := h₁.paren
    · exact hasItemAt_self trivial (.group hnone hs hb') he hb hx
    obtain ⟨rest', h₃, rfl⟩ | ⟨pre₃, rfl, h₃⟩ := h₂.append
    · simpa using (ih he h₃).inside (b ++ ['(']) (b' ++ [')'])
        (fun e' s₁ hs₁ ↦ by simpa using .group hb hs₁ hb') (fun e' he' ↦ he'.group)
        (stopsAt_blanks hb' (by decide))
    · exact absurd h₃ (BeginsIn.not_closing hb')
  | @minus b b' b'' s s' l r hb hl hb' hr hb'' ihl ihr =>
    obtain ⟨pre₁, rfl, h₁⟩ := h.blanks hb
    obtain ⟨rfl, hx⟩ | ⟨pre₂, rfl, h₂⟩ := h₁.paren
    · exact hasItemAt_self trivial (.minus hnone hl hb' hr hb'') he hb hx
    obtain ⟨rest', h₃, rfl⟩ | ⟨pre₃, rfl, h₃⟩ := h₂.append
    · simpa using (ihl he.1 h₃).inside (b ++ ['(']) (b' ++ '-' :: (s' ++ (b'' ++ [')'])))
        (fun e' s₁ hs₁ ↦ by simpa using .minus hb hs₁ hb' hr hb'') (fun e' he' ↦ he'.minus_left r)
        (stopsAt_blanks hb' (by decide))
    obtain ⟨pre₄, rfl, h₄⟩ := h₃.blanks hb'
    obtain ⟨pre₅, rfl, h₅⟩ := h₄.char (by decide) (by decide)
    obtain ⟨rest', h₆, rfl⟩ | ⟨pre₆, rfl, h₆⟩ := h₅.append
    · simpa using (ihr he.2.2.2 h₆).inside (b ++ '(' :: (s ++ (b' ++ ['-']))) (b'' ++ [')'])
        (fun e' s₁ hs₁ ↦ by simpa using .minus hb hl hb' hs₁ hb'') (fun e' he' ↦ he'.minus_right l)
        (stopsAt_blanks hb'' (by decide))
    · exact absurd h₆ (BeginsIn.not_closing hb'')
  | @plus b s s' e es hs hb hs' ih ihs =>
    obtain ⟨rest', h₁, rfl⟩ | ⟨pre₁, rfl, h₁⟩ := h.append
    · exact (ih he.2.1 h₁).inside [] (b ++ '+' :: s') (fun e' s₁ hs₁ ↦ .plus hs₁ hb hs')
        (fun e' he' ↦ he'.plus_first es) (stopsAt_blanks hb (by decide))
    obtain ⟨pre₂, rfl, h₂⟩ := h₁.blanks hb
    obtain ⟨pre₃, rfl, h₃⟩ := h₂.char (by decide) (by decide)
    simpa using (ihs he.2.2 h₃).inside (s ++ (b ++ ['+'])) []
      (fun e' s₁ hs₁ ↦ by simpa using .plus hs hb hs₁) (fun e' he' ↦ he'.plus_rest e) hend

/-! ### How far an item reaches

Two items that begin at one place need not be equal, as expressions are not unique. But the reader
stops in one place, and both are read, so they end together. -/

/-- The last character of an expression is no blank. -/
theorem Spells.getLast? (hs : Spells e s) (he : e.Proper bytes) :
    ∃ c ∈ s.getLast?, Text.isBlank c = false := by
  induction hs with
  | nil _ _ _ => exact ⟨')', by simp [List.getLast?_append, List.getLast?_cons], rfl⟩
  | @pattern b run hb =>
    refine ⟨run.getLast he.ne_nil, ?_,
      not_isBlank_of_isPatternChar (he.chars _ (List.getLast_mem _))⟩
    rw [List.getLast?_append, List.getLast?_eq_getLast_of_ne_nil he.ne_nil]
    rfl
  | except run _ _ _ ih =>
    obtain ⟨c, hc, hblank⟩ := ih he.2.2
    exact ⟨c, by simp [List.getLast?_append, List.getLast?_cons, Option.mem_def.1 hc], hblank⟩
  | group _ _ _ _ => exact ⟨')', by simp [List.getLast?_append, List.getLast?_cons], rfl⟩
  | minus _ _ _ _ _ _ _ => exact ⟨')', by simp [List.getLast?_append, List.getLast?_cons], rfl⟩
  | plus _ _ _ _ ih =>
    obtain ⟨c, hc, hblank⟩ := ih he.2.2
    exact ⟨c, by simp [List.getLast?_append, List.getLast?_cons, Option.mem_def.1 hc], hblank⟩

/-- What is skipped together with blanks is blank. -/
theorem blanks_of_dropWhile (h : (a ++ b).dropWhile Text.isBlank = b.dropWhile Text.isBlank) :
    Blanks a := by
  rw [List.dropWhile_append] at h
  split at h
  · rename_i hempty
    exact List.dropWhile_eq_nil_iff.1 (List.isEmpty_iff.1 hempty)
  · rename_i hsome
    have hlen := congrArg List.length h
    have hle := (List.dropWhile_sublist (l := b) Text.isBlank).length_le
    have hpos := List.length_pos_iff.2 (mt List.isEmpty_iff.2 hsome)
    rw [List.length_append] at hlen
    omega

/-- Of two texts that do not end in a blank, neither goes on with blanks only. -/
theorem eq_nil_of_blanks (ha : Blanks a) (hlast : ∃ c ∈ (x ++ a).getLast?, Text.isBlank c = false) :
    a = [] := by
  obtain ⟨c, hc, hblank⟩ := hlast
  cases hlast' : a.getLast? with
  | none => exact List.getLast?_eq_none_iff.1 hlast'
  | some d =>
    rw [List.getLast?_append, hlast', Option.some_or, Option.mem_some_iff] at hc
    rw [← hc, ha d (List.mem_of_getLast? hlast')] at hblank
    exact absurd hblank (by decide)

/-- **An item ends in one place only**, since there is one place where the reader stops. -/
theorem Spells.eq_of_append (hs : Spells i x) (hi : i.Proper bytes) (hitem : i.IsItem)
    (hs' : Spells j x') (hj : j.Proper bytes) (hitem' : j.IsItem) (h : x ++ a = x' ++ a')
    (hfollows : Follows i a) (hfollows' : Follows j a') : x = x' ∧ a = a' := by
  have hdrop : a.dropWhile Text.isBlank = a'.dropWhile Text.isBlank := by
    let c : Cursor := ⟨x ++ a, 0, some bytes⟩
    have hcomplete : Complete "" bytes i x := complete hs hi
    have hcomplete' : Complete "" bytes j x' := complete hs' hj
    obtain ⟨c₁, hread, hpassed⟩ :=
      hcomplete.item hitem _ c a rfl (.inr rfl) hfollows (Nat.le_refl _)
    obtain ⟨c₂, hread', hpassed'⟩ := hcomplete'.item hitem' _ c a'
      (congrArg (List.dropWhile Text.isBlank) h) (.inr rfl) hfollows' (Nat.le_refl _)
    obtain rfl : c₁ = c₂ := (Prod.mk.inj (Except.ok.inj (hread.symm.trans hread'))).2
    rw [← hpassed.rest_eq, hpassed'.rest_eq]
  obtain ⟨w, rfl, rfl⟩ | ⟨w, rfl, rfl⟩ := List.append_eq_append_iff.1 h
  · obtain rfl := eq_nil_of_blanks (blanks_of_dropWhile hdrop) (hs'.getLast? hj)
    exact ⟨(List.append_nil x).symm, rfl⟩
  · obtain rfl := eq_nil_of_blanks (blanks_of_dropWhile hdrop.symm) (hs.getLast? hi)
    exact ⟨List.append_nil x', rfl⟩

/-! ### Items that begin with a pattern -/

/-- The characters are those of a pattern. -/
structure IsRun (v : List Char) : Prop where
  ne_nil : v ≠ []
  chars : ∀ c ∈ v, isPatternChar c = true

theorem Run.isRun (hrun : Run bytes v) : IsRun v := ⟨hrun.ne_nil, hrun.chars⟩

theorem IsRun.stopsAt (hv : IsRun v) : StopsAt Text.isBlank (v ++ rest) := by
  obtain ⟨c, v, rfl⟩ := List.exists_cons_of_ne_nil hv.ne_nil
  exact stopsAt_cons (not_isBlank_of_isPatternChar (hv.chars c List.mem_cons_self))

/-- A pattern is no parenthesis. -/
theorem IsRun.ne_paren (hv : IsRun v) (hb : Blanks b) (hb' : Blanks b') :
    b' ++ '(' :: a ≠ b ++ (v ++ rest) := by
  intro h
  have hparen := (eq_of_stopsAt hb' hb (stopsAt_cons rfl) hv.stopsAt h).2
  obtain ⟨c, v, rfl⟩ := List.exists_cons_of_ne_nil hv.ne_nil
  have hc := hv.chars c List.mem_cons_self
  rw [← (List.cons.inj hparen).1] at hc
  exact absurd hc (by decide)

/-- Blanks, the characters of a pattern and what is behind them are found in one way only. -/
theorem IsRun.eq_of_append (hv : IsRun v) (ha : IsRun a) (hb : Blanks b) (hb' : Blanks b')
    (hx : StopsAt isPatternChar x) (hx' : StopsAt isPatternChar x')
    (h : b ++ (v ++ x) = b' ++ (a ++ x')) : b = b' ∧ v = a ∧ x = x' := by
  obtain ⟨hblanks, hrest⟩ := eq_of_stopsAt hb hb' hv.stopsAt ha.stopsAt h
  exact ⟨hblanks, eq_of_stopsAt hv.chars ha.chars hx hx' hrest⟩

/-- **An item that begins with a pattern is the pattern, or takes the minus sign behind it.** -/
theorem Spells.item_of_isRun (hs : Spells i x) (hi : i.Proper bytes) (hitem : i.IsItem)
    (hb : Blanks b) (hv : IsRun v) (hpost : StopsAt isPatternChar post)
    (hrest : StopsAt isPatternChar rest) (h : x ++ post = b ++ (v ++ rest)) :
    (i = .pattern v ∧ x = b ++ v ∧ post = rest) ∨
    ∃ b' s j, i = .except v j ∧ Blanks b' ∧ Spells j s ∧
      x = b ++ (v ++ (b' ++ '-' :: s)) ∧ rest = b' ++ '-' :: (s ++ post) := by
  cases hs with
  | nil hb₁ _ _ => exact absurd (by simpa using h) (hv.ne_paren hb hb₁)
  | group hb₁ _ _ => exact absurd (by simpa using h) (hv.ne_paren hb hb₁)
  | minus hb₁ _ _ _ _ => exact absurd (by simpa using h) (hv.ne_paren hb hb₁)
  | plus _ _ _ => exact hitem.elim
  | pattern run hb₁ =>
    rw [List.append_assoc] at h
    obtain ⟨rfl, rfl, rfl⟩ := (Run.isRun hi).eq_of_append hv hb₁ hb hpost hrest h
    exact .inl ⟨rfl, rfl, rfl⟩
  | @except b₁ b' s j run hb₁ hb' hs =>
    have hminus : StopsAt isPatternChar (b' ++ '-' :: (s ++ post)) := stopsAt_blanks hb' (by decide)
    simp only [List.append_assoc, List.cons_append] at h
    obtain ⟨rfl, rfl, rfl⟩ := hi.1.isRun.eq_of_append hv hb₁ hb hminus hrest h
    exact .inr ⟨b', s, j, rfl, hb', hs, rfl, rfl⟩

/-- A list begins with an item, and either that is all of it or a plus sign follows. -/
theorem Spells.exists_first (hs : Spells e s) (he : e.Proper bytes) :
    ∃ i x post, i.IsItem ∧ i.Proper bytes ∧
    Spells i x ∧ s = x ++ post ∧
    ((i = e ∧ post = []) ∨ ∃ b s', Blanks b ∧ post = b ++ '+' :: s') := by
  by_cases hitem : e.IsItem
  · exact ⟨e, s, [], hitem, he, hs, (List.append_nil s).symm, .inl ⟨rfl, rfl⟩⟩
  · cases hs with
    | plus hs hb _ => exact ⟨_, _, _, he.1, he.2.1, hs, rfl, .inr ⟨_, _, hb, rfl⟩⟩
    | _ => exact absurd trivial hitem

/-- What follows an expression does not go on with its last pattern. -/
theorem Follows.stopsAt (h : Follows e rest) : StopsAt isPatternChar rest := by
  intro c hc
  by_contra hchar
  rw [Bool.not_eq_false] at hchar
  obtain ⟨tail, rfl⟩ := List.head?_eq_some_iff.1 hc
  have hnext := (h c tail (dropWhile_cons (not_isBlank_of_isPatternChar hchar))).1
  rcases hnext with rfl | rfl | rfl <;> exact absurd hchar (by decide)

section Clause

/-! A pattern with a minus sign and an item behind it, up to a closing parenthesis. -/

variable (hb : Blanks b) (hv : IsRun v) (hb' : Blanks b') (hy : Spells j y) (hj : j.Proper bytes)
  (hitem : j.IsItem) (ha : Blanks a)

include hb hv hb' hy hj hitem ha

/-- A list that begins with it is no more than that. -/
theorem eq_except (hs : Spells e s) (he : e.Proper bytes) (hpost : FollowsList e post)
    (h : s ++ post = b ++ (v ++ (b' ++ '-' :: (y ++ (a ++ ')' :: rest))))) :
    ∃ j', e = .except v j' ∧ Spells j' y ∧ post = a ++ ')' :: rest := by
  obtain ⟨i, x, more, hitem', hi, hx, rfl, hmore⟩ := hs.exists_first he
  have hfollows : Follows i (more ++ post) := by
    rcases hmore with ⟨rfl, rfl⟩ | ⟨b₁, s', hb₁, rfl⟩
    · exact hpost.1
    · rw [List.append_assoc]
      exact follows_of_blanks hb₁ (.inl rfl) fun _ ↦ by decide
  rw [List.append_assoc] at h
  obtain ⟨rfl, -, hrest⟩ | ⟨b₁, s', j', rfl, hb₁, hs', -, hrest⟩ :=
    hx.item_of_isRun hi hitem' hb hv hfollows.stopsAt (stopsAt_blanks hb' (by decide)) h
  · -- the pattern would have taken the minus sign
    rw [hrest] at hfollows
    exact absurd rfl
      ((hfollows '-' _ ((dropWhile_blanks hb').trans (dropWhile_cons rfl))).2 trivial)
  obtain ⟨-, hminus⟩ := eq_of_stopsAt hb' hb₁ (stopsAt_cons rfl) (stopsAt_cons rfl) hrest
  have hclose : Follows j (a ++ ')' :: rest) :=
    follows_of_blanks ha (.inr (.inr rfl)) fun _ ↦ by decide
  obtain ⟨rfl, hends⟩ :=
    hy.eq_of_append hj hitem hs' hi.2.2 hi.2.1 (List.cons.inj hminus).2 hclose hfollows
  rcases hmore with ⟨rfl, rfl⟩ | ⟨b₂, s'', hb₂, rfl⟩
  · exact ⟨j', rfl, hs', hends.symm⟩
  · rw [List.append_assoc] at hends
    have := (eq_of_stopsAt ha hb₂ (stopsAt_cons rfl) (stopsAt_cons rfl) hends).2
    exact absurd (List.cons.inj this).1 (by decide)

/-- An item in parentheses that begins with it is no more than that. -/
theorem eq_group_except (hs : Spells i x) (hi : i.Proper bytes) (hitem' : i.IsItem)
    (h : x ++ post = '(' :: (b ++ (v ++ (b' ++ '-' :: (y ++ (a ++ ')' :: rest)))))) :
    ∃ j', i = .group (.except v j') ∧ Spells j' y ∧ post = rest := by
  have hnone : Blanks [] := List.forall_mem_nil _
  -- the item begins with the parenthesis
  have hopen : ∀ {b₁ l : List Char}, Blanks b₁ → b₁ ++ '(' :: l = '(' ::
      (b ++ (v ++ (b' ++ '-' :: (y ++ (a ++ ')' :: rest))))) →
      l = b ++ (v ++ (b' ++ '-' :: (y ++ (a ++ ')' :: rest)))) := fun hb₁ h ↦
    (List.cons.inj (eq_of_stopsAt hb₁ hnone (stopsAt_cons rfl) (stopsAt_cons rfl) h).2).2
  cases hs with
  | plus _ _ _ => exact hitem'.elim
  | pattern run hb₁ =>
    rw [List.append_assoc] at h
    exact absurd h.symm (hi.isRun.ne_paren hb₁ hnone)
  | except run hb₁ _ _ =>
    rw [List.append_assoc, List.append_assoc] at h
    exact absurd h.symm (hi.1.isRun.ne_paren hb₁ hnone)
  | nil hb₁ hb₂ _ =>
    simp only [List.append_assoc, List.cons_append] at h
    have hnil := (eq_of_stopsAt hb₂ hb (stopsAt_cons rfl) hv.stopsAt (hopen hb₁ h)).2
    obtain ⟨c, v, rfl⟩ := List.exists_cons_of_ne_nil hv.ne_nil
    have hc := hv.chars c List.mem_cons_self
    rw [← (List.cons.inj hnil).1] at hc
    exact absurd hc (by decide)
  | group hb₁ hs hb₂ =>
    simp only [List.append_assoc, List.cons_append, List.nil_append] at h
    obtain ⟨j', rfl, hs', hclose⟩ := eq_except hb hv hb' hy hj hitem ha hs hi
      (followsList_of_blanks hb₂ (.inr rfl) fun _ ↦ by decide) (hopen hb₁ h)
    have := (eq_of_stopsAt hb₂ ha (stopsAt_cons rfl) (stopsAt_cons rfl) hclose).2
    exact ⟨j', rfl, hs', (List.cons.inj this).2⟩
  | minus hb₁ hs hb₂ _ _ =>
    simp only [List.append_assoc, List.cons_append] at h
    obtain ⟨-, -, -, hclose⟩ := eq_except hb hv hb' hy hj hitem ha hs hi.1
      (followsList_of_blanks hb₂ (.inl rfl) fun hends ↦ absurd hends hi.2.2.1) (hopen hb₁ h)
    have := (eq_of_stopsAt hb₂ ha (stopsAt_cons rfl) (stopsAt_cons rfl) hclose).2
    exact absurd (List.cons.inj this).1 (by decide)

end Clause

/-! ### Parentheses around a pattern -/

/-- **Where an item begins in a text that is read, any expression that comes to the same regions may
be written.** -/
theorem exists_parse_replaced {text : String} {u : Space} (hread : parse text bytes = .ok u)
    (h : BeginsIn text.toList pre d rest) :
    ∃ i x post, d :: rest = x ++ post ∧ i.IsItem ∧ i.Proper bytes ∧
      Spells i x ∧ StopsAt isPatternChar post ∧ ∀ j y, Spells j y → i.Replaces bytes j →
        parse (String.ofList (pre ++ (y ++ post))) bytes = .ok u := by
  have hsound : Answers (Cause text bytes) (fun _ ↦ ∃ e, Writes text bytes e) (parse text bytes) :=
    parse_sound
  rw [hread] at hsound
  obtain ⟨e, s, b, htext, hs, hb, he⟩ := hsound
  have hu : ofRegions bytes e.regions = u :=
    Except.ok.inj ((parse_of_writes ⟨s, b, htext, hs, hb, he⟩).symm.trans hread)
  rw [htext] at h
  obtain ⟨rest', h₁, rfl⟩ | ⟨pre', -, h₁⟩ := h.append
  · obtain ⟨i, x, post, hx, hi⟩ := hs.hasItemAt he h₁
    refine ⟨i, x, post ++ b, ?_, hi.isItem, hi.proper, hi.spells,
      hi.stops.append (Blanks.stopsAt hb), fun j y hy hj ↦ ?_⟩
    · rw [← List.append_assoc, ← hx]
      rfl
    · obtain ⟨e', hs', he'⟩ := hi.replace j y hy hj
      rw [← hu, ← he'.regions]
      exact parse_of_writes ⟨_, b, by simp, hs', hb, he'.proper he⟩
  · rw [← List.append_nil b] at h₁
    obtain ⟨_, -, h₂⟩ := h₁.blanks hb
    exact absurd h₂ BeginsIn.not_nil

/-- A pattern in parentheses may be written for the pattern. -/
theorem replaces_parenthesized : (Expr.pattern v).Replaces bytes (.group (.pattern v)) where
  isItem _ := trivial
  proper := id
  regions := rfl
  terms := rfl
  endsInPattern := False.elim

/-- A bare pattern takes an item away from itself, and so do the parentheses around it. -/
theorem replaces_minus :
    (Expr.group (.except v e)).Replaces bytes (.minus (.group (.pattern v)) e) where
  isItem _ := trivial
  proper he := ⟨he.1, rfl, id, he.2.2⟩
  regions := rfl
  terms := rfl
  endsInPattern := id

/-- A pattern stands between the two parts of a text. -/
structure Occurs (v pre post : List Char) : Prop extends IsRun v where
  /-- It begins there. -/
  before : ∀ c ∈ pre.getLast?, isPatternChar c = false
  /-- It ends there. -/
  behind : StopsAt isPatternChar post

/-- What stands between the two parts of a text, a minus sign and an item fill a pair of
parentheses. -/
def FillsParentheses (bytes : Nat) (pre post : List Char) : Prop :=
  ∃ before b b' y a behind j, pre = before ++ '(' :: b ∧
    post = b' ++ '-' :: (y ++ (a ++ ')' :: behind)) ∧
    Blanks b ∧ Blanks b' ∧ Blanks a ∧ Spells j y ∧ j.IsItem ∧ j.Proper bytes

section Parse

variable {text : String} {u : Space}

/-- **Where no minus sign follows, parentheses make no difference.** -/
theorem parse_of_no_minus (hread : parse text bytes = .ok u)
    (htext : text.toList = pre ++ (v ++ post)) (hv : Occurs v pre post)
    (hminus : ∀ rest, post.dropWhile Text.isBlank ≠ '-' :: rest) :
    parse (String.ofList (pre ++ '(' :: (v ++ ')' :: post))) bytes = .ok u := by
  have hnone : Blanks [] := List.forall_mem_nil _
  obtain ⟨c, run, hcons⟩ := List.exists_cons_of_ne_nil hv.ne_nil
  have hbegins : BeginsIn text.toList pre c (run ++ post) :=
    ⟨by rw [htext, hcons]; rfl, .inr ⟨hv.chars c (hcons ▸ List.mem_cons_self), hv.before⟩⟩
  obtain ⟨i, x, more, hx, hitem, hi, hs, hstops, hreplace⟩ := exists_parse_replaced hread hbegins
  have hsplit : x ++ more = [] ++ (v ++ post) := by
    rw [← hx, hcons]
    rfl
  obtain ⟨rfl, -, rfl⟩ | ⟨b', s, j, -, hb', -, -, rfl⟩ :=
    hs.item_of_isRun hi hitem hnone hv.toIsRun hstops hv.behind hsplit
  · simpa using hreplace _ _ (.group hnone (.pattern v hnone) hnone) replaces_parenthesized
  · exact absurd ((dropWhile_blanks hb').trans (dropWhile_cons rfl)) (hminus _)

/-- **Where the pattern takes all that is in its parentheses, they make no difference.** -/
theorem parse_of_fillsParentheses (hread : parse text bytes = .ok u)
    (htext : text.toList = pre ++ (v ++ post)) (hv : IsRun v)
    (hfills : FillsParentheses bytes pre post) :
    parse (String.ofList (pre ++ '(' :: (v ++ ')' :: post))) bytes = .ok u := by
  have hnone : Blanks [] := List.forall_mem_nil _
  obtain ⟨before, b, b', y, a, behind, j, rfl, rfl, hb, hb', ha, hy, hitem, hj⟩ := hfills
  have hbegins : BeginsIn text.toList before '('
      (b ++ (v ++ (b' ++ '-' :: (y ++ (a ++ ')' :: behind))))) :=
    ⟨by rw [htext, List.append_assoc]; rfl, .inl rfl⟩
  obtain ⟨i, x, more, hx, hitem', hi, hs, -, hreplace⟩ := exists_parse_replaced hread hbegins
  obtain ⟨j', rfl, hy', rfl⟩ := eq_group_except hb hv hb' hy hj hitem ha hs hi hitem' hx.symm
  have hspells : Spells (.minus (.group (.pattern v)) j')
      ('(' :: ((b ++ '(' :: (v ++ [')'])) ++ (b' ++ '-' :: (y ++ (a ++ [')']))))) :=
    .minus hnone (.group hb (.pattern v hnone) hnone) hb' hy' ha
  simpa using hreplace _ _ hspells replaces_minus

/-- **A pattern may be put in parentheses wherever no minus sign follows it, and where it fills a
pair of parentheses together with the item that it takes away.** The text is then read as before,
region by region. -/
theorem parse_parenthesized (hread : parse text bytes = .ok u)
    (htext : text.toList = pre ++ (v ++ post)) (hv : Occurs v pre post)
    (hminus : (∀ rest, post.dropWhile Text.isBlank ≠ '-' :: rest) ∨
      FillsParentheses bytes pre post) :
    parse (String.ofList (pre ++ '(' :: (v ++ ')' :: post))) bytes = .ok u := by
  rcases hminus with hminus | hfills
  · exact parse_of_no_minus hread htext hv hminus
  · exact parse_of_fillsParentheses hread htext hv.toIsRun hfills

/-- A pattern in a sum, and one that fills a pair of parentheses with the item behind its minus
sign. -/
theorem parse_parenthesized_both : ∃ u, parse "1xxxxxxx + (0xxxxxxx - (nil))" 1 = .ok u ∧
    parse
      (String.ofList ([] ++ '(' :: ("1xxxxxxx".toList ++ ')' :: " + (0xxxxxxx - (nil))".toList)))
        1 = .ok u ∧
    parse
      (String.ofList
        ("1xxxxxxx + (".toList ++ '(' :: ("0xxxxxxx".toList ++ ')' :: " - (nil))".toList))) 1 =
      .ok u := by
  have hnone : Blanks [] := List.forall_mem_nil _
  have hblank : Blanks [' '] := List.forall_mem_singleton.2 rfl
  have hfirst : Occurs "1xxxxxxx".toList [] " + (0xxxxxxx - (nil))".toList :=
    ⟨⟨by decide, List.all_eq_true.1 (by decide)⟩, by rintro _ ⟨⟩, by rintro _ ⟨⟩; rfl⟩
  have hsecond : Occurs "0xxxxxxx".toList "1xxxxxxx + (".toList " - (nil))".toList :=
    ⟨⟨by decide, List.all_eq_true.1 (by decide)⟩, by rintro _ ⟨⟩; rfl, by rintro _ ⟨⟩; rfl⟩
  have hplus : (" + (0xxxxxxx - (nil))".toList.dropWhile Text.isBlank).head? ≠ some '-' := by decide
  have hfills : FillsParentheses 1 "1xxxxxxx + (".toList " - (nil))".toList :=
    ⟨"1xxxxxxx + ".toList, [], [' '], " (nil)".toList, [], [], .nil, rfl, rfl, hnone, hblank, hnone,
      .nil hblank hnone hnone, trivial, trivial⟩
  obtain ⟨u, hu⟩ : ∃ u, parse "1xxxxxxx + (0xxxxxxx - (nil))" 1 = .ok u := ⟨_, rfl⟩
  exact ⟨u, hu, parse_parenthesized hu rfl hfirst (.inl fun rest h ↦ hplus (by rw [h]; rfl)),
    parse_parenthesized hu rfl hsecond (.inr hfills)⟩

/-- **A minus sign that follows makes a difference.** Behind a pattern in parentheses it is not read
at the end of a text, and within parentheses it takes away more than one item. -/
theorem parse_parenthesized_before_minus :
    (∃ u, parse "1xxxxxxx - 11xxxxxx" 1 = .ok u) ∧
    parse "(1xxxxxxx) - 11xxxxxx" 1 = .error (.badChar '-' 11) ∧
    ∃ u w, parse "(xxxxxxxx - 1xxxxxxx + 11xxxxxx)" 1 = .ok u ∧
      parse "((xxxxxxxx) - 1xxxxxxx + 11xxxxxx)" 1 = .ok w ∧ u.Contains (fun _ ↦ true) ∧
      ¬ w.Contains fun _ ↦ true := by
  let all := Pattern.ofTrits (List.replicate 8 .wild)
  let half := Pattern.ofTrits (.one :: List.replicate 7 .wild)
  let quarter := Pattern.ofTrits (.one :: .one :: List.replicate 6 .wild)
  have hquarter : quarter.Matches fun _ ↦ true := by unfold Pattern.Matches; decide +kernel
  refine ⟨⟨_, rfl⟩, by decide +kernel, ⟨1, [.mk all [.plain half], .plain quarter]⟩,
    ⟨1, [.mk all [.plain half, .plain quarter]]⟩, by decide +kernel, by decide +kernel, ?_, ?_⟩
  · simp [Contains, hquarter]
  · simp [Contains, hquarter]

end Parse

end HeaderFlow.Space
