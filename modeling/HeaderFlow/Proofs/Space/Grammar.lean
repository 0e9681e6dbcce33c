import HeaderFlow.Proofs.Pattern.Text
import HeaderFlow.Proofs.Region.Cover
import HeaderFlow.Space.Text

/-!
# The grammar of written sets

What a written set may look like, and which headers it stands for, without a word about how it is
read. An `Expr` is the structure of a text, `Spells` says which texts have it, and `Expr.Holds`
gives its value by unions and differences.

The grammar by itself does not say what a minus sign belongs to. `Expr.Proper` does: **a pattern
takes the minus sign that follows it**, so the left side of a difference in parentheses may not end
in a pattern. That a written pattern is as long as it can be need not be said, since nothing that
may follow it is one of its characters.

`Expr.regions` are the regions that a proper expression comes to, with holes clipped to their frames
on the way (`containsAny_regions`).
-/

namespace HeaderFlow

namespace Region

mutual

/-- No hole, at any depth, matches a header that the frame around it does not match. -/
def Contained : Region → Prop
  | mk f hs => ContainedIn f hs

/-- No frame of the list matches a header that `f` does not match, and so on for the holes. -/
def ContainedIn (f : Pattern) : List Region → Prop
  | [] => True
  | r :: rs => ((∀ h, r.frame.Matches h → f.Matches h) ∧ r.Contained) ∧ ContainedIn f rs

end

variable {f v : Pattern} {r : Region} {rs qs : List Region}

@[simp] theorem contained_mk : (mk f rs).Contained ↔ ContainedIn f rs := by
  rw [Contained]

@[simp] theorem containedIn_cons : ContainedIn f (r :: rs) ↔
    ((∀ h, r.frame.Matches h → f.Matches h) ∧ r.Contained) ∧ ContainedIn f rs := by
  rw [ContainedIn]

@[simp] theorem containedIn_nil : ContainedIn f [] := by
  rw [ContainedIn]
  trivial

/-- A list is contained in a frame if each member is. -/
theorem containedIn_iff : ContainedIn f rs ↔
    ∀ r ∈ rs, (∀ h, r.frame.Matches h → f.Matches h) ∧ r.Contained := by
  induction rs with
  | nil => simp
  | cons r rs ih => simp only [containedIn_cons, ih, List.forall_mem_cons]

@[simp] theorem containedIn_append :
    ContainedIn f (rs ++ qs) ↔ ContainedIn f rs ∧ ContainedIn f qs := by
  simp only [containedIn_iff, List.forall_mem_append]

/-- Clipping puts every hole inside its frame. -/
theorem contained_of_clip {o : Option Region} (ho : r.clip v = .ok o) : ContainedIn v o.toList := by
  induction r using induction generalizing v o with
  | mk f hs ih =>
    obtain ⟨m, hm, ho⟩ := Checked.bind_eq_ok.1 ho
    obtain ⟨hbytes, hmeet⟩ := Pattern.of_intersect_eq_ok hm
    cases m with
    | none =>
      obtain rfl := Except.ok.inj ho
      exact containedIn_nil
    | some g =>
      obtain ⟨ds, hds, ho⟩ := Checked.bind_eq_ok.1 ho
      obtain rfl := Except.ok.inj ho
      have hholes : ∀ rs ds, (∀ d ∈ rs, d ∈ hs) → clipList rs g = .ok ds → ContainedIn g ds := by
        intro rs
        induction rs with
        | nil =>
          intro ds _ hds
          rw [clipList] at hds
          obtain rfl := Except.ok.inj hds
          exact containedIn_nil
        | cons d rs ihrs =>
          intro ds hsub hds
          obtain ⟨o, rest, ho, hrest, rfl⟩ := clipList_cons_eq_ok.1 hds
          exact containedIn_append.2 ⟨ih d (hsub d List.mem_cons_self) ho,
            ihrs rest (fun q hq ↦ hsub q (List.mem_cons_of_mem _ hq)) hrest⟩
      refine containedIn_cons.2 ⟨⟨fun h hh ↦ ?_, contained_mk.2 (hholes hs ds (fun _ ↦ id) hds)⟩,
        containedIn_nil⟩
      exact ((Pattern.matches_of_meet?_eq_some hbytes hmeet).1 hh).2

/-- A clipped list is contained in the pattern. -/
theorem containedIn_of_clipList (hqs : clipList rs v = .ok qs) : ContainedIn v qs := by
  induction rs generalizing qs with
  | nil =>
    rw [clipList] at hqs
    obtain rfl := Except.ok.inj hqs
    exact containedIn_nil
  | cons r rs ih =>
    obtain ⟨o, rest, ho, hrest, rfl⟩ := clipList_cons_eq_ok.1 hqs
    exact containedIn_append.2 ⟨contained_of_clip ho, ih hrest⟩

end Region

namespace Space

/-- How a written set is put together. -/
inductive Expr where
  /-- The empty set in parentheses. -/
  | nil
  /-- A pattern, by its characters. -/
  | pattern (run : List Char)
  /-- A pattern less an item. -/
  | except (run : List Char) (e : Expr)
  /-- A list in parentheses. -/
  | group (e : Expr)
  /-- The difference of two lists in parentheses. -/
  | minus (left right : Expr)
  /-- A list: an item, a plus sign and a list. -/
  | plus (first rest : Expr)

/-- White space, or nothing. -/
def Blanks (s : List Char) : Prop := ∀ c ∈ s, Text.isBlank c = true

/-- The trits of a written pattern. -/
def tritsOf (run : List Char) : List Trit := run.filterMap Trit.ofChar?

/-- The characters are those of a written pattern of `bytes` bytes. -/
structure Run (bytes : Nat) (run : List Char) : Prop where
  /-- There is some character. -/
  ne_nil : run ≠ []
  /-- There are trits and commas only. -/
  chars : ∀ c ∈ run, isPatternChar c = true
  /-- The trits are as many as the bytes have bits. -/
  length : (tritsOf run).length = 8 * bytes

namespace Expr

/-- A list with a plus sign is not an item. -/
def IsItem : Expr → Prop
  | plus .. => False
  | _ => True

/-- The number of regions that the expression comes to. -/
def terms : Expr → Nat
  | nil => 0
  | pattern _ | except .. | minus .. => 1
  | group e => e.terms
  | plus e es => e.terms + es.terms

/-- The last thing that is written is a pattern, which would take a minus sign that follows. -/
def EndsInPattern : Expr → Prop
  | pattern _ => True
  | except _ e => e.EndsInPattern
  | plus _ es => es.EndsInPattern
  | _ => False

/-- All patterns have `bytes` bytes, and in a difference in parentheses the left side comes to one
region and leaves the minus sign alone. -/
def Proper (bytes : Nat) : Expr → Prop
  | nil => True
  | pattern run => Run bytes run
  | except run e => Run bytes run ∧ e.IsItem ∧ e.Proper bytes
  | group e => e.Proper bytes
  | minus l r => l.Proper bytes ∧ l.terms = 1 ∧ ¬ l.EndsInPattern ∧ r.Proper bytes
  | plus e es => e.IsItem ∧ e.Proper bytes ∧ es.Proper bytes

/-- The expression has a pattern in it. -/
def HasPattern : Expr → Prop
  | nil => False
  | pattern _ | except .. => True
  | group e => e.HasPattern
  | minus l r | plus l r => l.HasPattern ∨ r.HasPattern

/-- The header is in the set: plus is union, minus is difference. -/
def Holds : Expr → (Nat → Bool) → Prop
  | nil, _ => False
  | pattern run, h => ∀ (i : Nat) (t : Trit), (tritsOf run)[i]? = some t → t.allows (h i) = true
  | except run e, h =>
    (∀ (i : Nat) (t : Trit), (tritsOf run)[i]? = some t → t.allows (h i) = true) ∧ ¬ e.Holds h
  | group e, h => e.Holds h
  | minus l r, h => l.Holds h ∧ ¬ r.Holds h
  | plus e es, h => e.Holds h ∨ es.Holds h

end Expr

/-- The text is a way to write the expression. White space may stand before every part of it. -/
inductive Spells : Expr → List Char → Prop
  | nil {b b' b'' : List Char} : Blanks b → Blanks b' → Blanks b'' →
    Spells .nil (b ++ '(' :: (b' ++ 'n' :: 'i' :: 'l' :: (b'' ++ [')'])))
  | pattern {b : List Char} (run : List Char) : Blanks b → Spells (.pattern run) (b ++ run)
  | except {b b' s : List Char} {e : Expr} (run : List Char) : Blanks b → Blanks b' → Spells e s →
    Spells (.except run e) (b ++ (run ++ (b' ++ '-' :: s)))
  | group {b b' s : List Char} {e : Expr} : Blanks b → Spells e s → Blanks b' →
    Spells (.group e) (b ++ '(' :: (s ++ (b' ++ [')'])))
  | minus {b b' b'' s s' : List Char} {l r : Expr} : Blanks b → Spells l s → Blanks b' →
    Spells r s' →
    Blanks b'' → Spells (.minus l r) (b ++ '(' :: (s ++ (b' ++ '-' :: (s' ++ (b'' ++ [')'])))))
  | plus {b s s' : List Char} {e es : Expr} : Spells e s → Blanks b → Spells es s' →
    Spells (.plus e es) (s ++ (b ++ '+' :: s'))

/-- The text is a list, from the first character to the last, whose patterns have `bytes` bytes. -/
def Writes (text : String) (bytes : Nat) (e : Expr) : Prop :=
  ∃ s b, text.toList = s ++ b ∧ Spells e s ∧ Blanks b ∧ e.Proper bytes

/-! ### The regions of an expression -/

/-- The regions clipped to a pattern. -/
def clipped (rs : List Region) (v : Pattern) : List Region :=
  match Region.clipList rs v with
  | .ok qs => qs
  | .error _ => []

/-- The regions that a proper expression comes to. -/
def Expr.regions : Expr → List Region
  | .nil => []
  | .pattern run => [.plain (.ofTrits (tritsOf run))]
  | .except run e => [.mk (.ofTrits (tritsOf run)) (clipped e.regions (.ofTrits (tritsOf run)))]
  | .group e => e.regions
  | .minus l r =>
    match l.regions with
    | [q] => [.mk q.frame (q.holes ++ clipped r.regions q.frame)]
    | _ => []
  | .plus e es => e.regions ++ es.regions

variable {bytes : Nat} {run : List Char} {e l r : Expr} {h : Nat → Bool}

/-- A written pattern has whole bytes of trits. -/
theorem Run.mod_eq_zero (hrun : Run bytes run) :
    (tritsOf run).length % Pattern.tritsPerByte = 0 := by
  rw [hrun.length, Pattern.tritsPerByte]
  omega

/-- The pattern that is written has as many bytes as it should. -/
theorem Run.bytes_eq (hrun : Run bytes run) : (Pattern.ofTrits (tritsOf run)).bytes = bytes := by
  rw [Pattern.bytes_ofTrits, hrun.length, Pattern.tritsPerByte]
  omega

/-- Clipping a list over one length leaves the clipped regions. -/
theorem clipList_eq {rs : List Region} {v : Pattern} (hrs : Region.EveryOf (·.bytes = v.bytes) rs) :
    Region.clipList rs v = .ok (clipped rs v) := by
  obtain ⟨qs, hqs⟩ := Region.exists_clipList_of_every hrs
  rw [clipped, hqs]

/-- What is known of the regions of a proper expression: each has one length, and its holes are
clipped. -/
structure Trimmed (bytes : Nat) (r : Region) : Prop where
  /-- All patterns have the same length. -/
  uniform : r.Every (·.bytes = bytes)
  /-- No hole has a conflict. -/
  solid : Region.EveryOf (Pattern.Solid bytes) r.holes
  /-- Every hole lies in its frame. -/
  contained : r.Contained

theorem trimmed_plain {p : Pattern} (hp : p.bytes = bytes) : Trimmed bytes (.plain p) where
  uniform := Region.every_mk.2 ⟨hp, Region.everyOf_nil⟩
  solid := Region.everyOf_nil
  contained := Region.contained_mk.2 Region.containedIn_nil

/-- Taking more out of a region leaves it trimmed. -/
theorem Trimmed.less {q : Region} {rs : List Region} (hq : Trimmed bytes q)
    (hrs : Region.EveryOf (·.bytes = bytes) rs) :
    Trimmed bytes (.mk q.frame (q.holes ++ clipped rs q.frame)) ∧
      ∀ h, (Region.mk q.frame (q.holes ++ clipped rs q.frame)).Contains h ↔
        q.Contains h ∧ ¬ Region.ContainsAny rs h := by
  obtain ⟨f, hs⟩ := q
  obtain ⟨hf, hhs⟩ := Region.every_mk.1 hq.uniform
  have hclip := clipList_eq (v := f) (hf ▸ hrs)
  have hclipped := Region.clipped_of_clipList hclip
  have hsolid := hclipped.solid
  rw [hf] at hsolid
  refine ⟨⟨?_, ?_, ?_⟩, fun h ↦ ?_⟩
  · exact Region.every_mk.2 ⟨hf, Region.everyOf_append.2 ⟨hhs, hsolid.imp fun _ hp ↦ hp.1⟩⟩
  · exact Region.everyOf_append.2 ⟨hq.solid, hsolid⟩
  · exact Region.contained_mk.2 (Region.containedIn_append.2
      ⟨Region.contained_mk.1 hq.contained, Region.containedIn_of_clipList hclip⟩)
  · simp only [Region.frame, Region.holes, Region.contains_mk, Region.containsAny_append,
      hclipped.cover]
    tauto

/-- An expression comes to as many regions as it has terms. -/
theorem length_regions (he : e.Proper bytes) : e.regions.length = e.terms := by
  induction e with
  | nil => rfl
  | pattern run => rfl
  | except run e _ => rfl
  | group e ih => exact ih he
  | minus l r ihl _ =>
    obtain ⟨q, hq⟩ := List.length_eq_one_iff.1 ((ihl he.1).trans he.2.1)
    rw [Expr.regions, hq]
    rfl
  | plus e es ih ihs => rw [Expr.regions, List.length_append, ih he.2.1, ihs he.2.2, Expr.terms]

/-- The left side of a difference in parentheses is one region. -/
theorem exists_regions_eq (hl : l.Proper bytes) (hone : l.terms = 1) : ∃ q, l.regions = [q] :=
  List.length_eq_one_iff.1 ((length_regions hl).trans hone)

/-- **The regions of a proper expression are trimmed, and have exactly the headers of its
value.** -/
theorem containsAny_regions (he : e.Proper bytes) :
    (∀ r ∈ e.regions, Trimmed bytes r) ∧ ∀ h, Region.ContainsAny e.regions h ↔ e.Holds h := by
  induction e with
  | nil => simp [Expr.regions, Expr.Holds]
  | pattern run =>
    refine ⟨fun r hr ↦ ?_, fun h ↦ ?_⟩
    · rw [List.mem_singleton.1 hr]
      exact trimmed_plain (Run.bytes_eq he)
    · simp [Expr.regions, Expr.Holds, Pattern.matches_ofTrits (Run.mod_eq_zero he)]
  -- A pattern less an item: the regions of the item become holes of the pattern.
  | except run e ih =>
    obtain ⟨htrim, hcover⟩ := ih he.2.2
    have hbytes := Region.everyOf_iff.2 fun q hq ↦ (htrim q hq).uniform
    obtain ⟨hless, hcover'⟩ := (trimmed_plain he.1.bytes_eq).less hbytes
    refine ⟨fun r hr ↦ ?_, fun h ↦ ?_⟩
    · rw [List.mem_singleton.1 hr]
      exact hless
    · have hwhole := hcover' h
      rw [Region.contains_plain, hcover, Pattern.matches_ofTrits he.1.mod_eq_zero] at hwhole
      rw [Expr.regions, Region.containsAny_cons, or_iff_left Region.not_containsAny_nil]
      exact hwhole
  | group e ih => exact ih he
  -- A difference in parentheses: its left side is one region, which gets more holes.
  | minus l r ihl ihr =>
    obtain ⟨hl, hone, -, hr⟩ := he
    obtain ⟨q, hq⟩ := exists_regions_eq hl hone
    obtain ⟨htrim, hcover⟩ := ihl hl
    obtain ⟨htrim', hcover'⟩ := ihr hr
    have hbytes := Region.everyOf_iff.2 fun q hq ↦ (htrim' q hq).uniform
    obtain ⟨hless, hcover''⟩ := (htrim q (hq ▸ List.mem_singleton_self q)).less hbytes
    have hregions : (Expr.minus l r).regions =
        [.mk q.frame (q.holes ++ clipped r.regions q.frame)] := by
      rw [Expr.regions, hq]
    rw [hregions]
    refine ⟨fun r hr ↦ ?_, fun h ↦ ?_⟩
    · rw [List.mem_singleton.1 hr]
      exact hless
    · have hleft := hcover h
      rw [hq, Region.containsAny_cons, or_iff_left Region.not_containsAny_nil] at hleft
      rw [Region.containsAny_cons, or_iff_left Region.not_containsAny_nil, hcover'', hleft, hcover']
      exact Iff.rfl
  | plus e es ih ihs =>
    obtain ⟨htrim, hcover⟩ := ih he.2.1
    obtain ⟨htrim', hcover'⟩ := ihs he.2.2
    refine ⟨List.forall_mem_append.2 ⟨htrim, htrim'⟩, fun h ↦ ?_⟩
    rw [Expr.regions, Region.containsAny_append, hcover, hcover']
    exact Iff.rfl

end Space

end HeaderFlow
