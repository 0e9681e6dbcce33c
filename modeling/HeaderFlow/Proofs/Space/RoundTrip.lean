import HeaderFlow.Proofs.Space.Reading
import HeaderFlow.Proofs.Space.SetAlgebra
import Mathlib.Data.List.Forall2

/-!
# Writing and reading sets

The written form of a set is in the grammar, with the structure that the regions have
(`spells_exprOf`), so it is read as the value of that structure, which is the set. **It need not be
read as the same regions**: reading clips holes to their frames and leaves out what has a conflict.
Where there is nothing to clip and nothing to leave out, it is (`text_roundTrip`).

That the readers read what is in the grammar is known already (`parse_iff`), so this is about
writing only. A region with holes is written in parentheses: its frame, a minus sign, and in
parentheses again its holes with plus signs between them. The expression `exprOf` has the
same structure. Two things are shown of it by induction on the region:

* the text spells it (`spells_exprOf`), and it is proper, since each frame takes the minus sign
  behind it;
* its value is the cover of the region (`holds_exprOf`), and its regions are the region itself if
  clipping changes nothing (`regions_exprOf`).

The empty set is written without a pattern, and its length cannot be read off the text. This is why
the length has to be given, unless there is a pattern (`parseAny_of_writes`).
-/

namespace HeaderFlow

namespace Region

variable {f : Pattern} {r : Region} {rs : List Region} {n : Nat}

/-- A pattern clipped to one around it is still the same. -/
theorem meet?_eq_self {d : Pattern} (hd : d.Solid n) (hf : f.bytes = n)
    (hsub : ∀ h, d.Matches h → f.Matches h) : d.intersect f = .ok (some d) := by
  have hbytes : d.bytes = f.bytes := hd.1.trans hf.symm
  have hmeet : Pattern.meet d f = d := by
    refine Pattern.eq_of_allows rfl fun i b ↦ ?_
    rw [Pattern.allows_meet hbytes]
    by_cases hb : d.allows i b = true
    · rw [hb, Pattern.allows_of_forall_matches hd.2 hsub hb]
      rfl
    · rw [Bool.not_eq_true] at hb
      rw [hb, Bool.false_and]
  rw [Pattern.intersect_eq hbytes, Pattern.meet?_eq_some_iff.2 ⟨hmeet.symm, by rw [hmeet, hd.2]⟩]

/-- **A region inside a pattern is not changed by clipping.** -/
theorem clip_eq_self (hr : r.Every (Pattern.Solid n)) (hf : f.bytes = n)
    (hsub : ∀ h, r.frame.Matches h → f.Matches h) (hcontained : r.Contained) :
    r.clip f = .ok (some r) := by
  induction r using induction generalizing f with
  | mk d ds ih =>
    obtain ⟨hd, hds⟩ := every_mk.1 hr
    have hlist : ∀ rs, (∀ q ∈ rs, q ∈ ds) → clipList rs d = .ok rs := by
      intro rs
      induction rs with
      | nil => exact fun _ ↦ by rw [clipList]
      | cons q qs ihqs =>
        intro hmem
        have hq := hmem q List.mem_cons_self
        obtain ⟨hinside, hcontained'⟩ := containedIn_iff.1 (contained_mk.1 hcontained) q hq
        exact clipList_cons_eq_ok.2
          ⟨some q, qs, ih q hq (everyOf_iff.1 hds q hq) hd.1 hinside hcontained',
            ihqs fun q' hq' ↦ hmem q' (List.mem_cons_of_mem _ hq'), rfl⟩
    rw [clip, meet?_eq_self hd hf hsub]
    simp [hlist ds fun _ ↦ id]

/-- Two properties of all patterns are one. -/
theorem every_and {P Q : Pattern → Prop} (hP : r.Every P) (hQ : r.Every Q) :
    r.Every fun p ↦ P p ∧ Q p := by
  induction r using induction with
  | mk f hs ih =>
    obtain ⟨hPf, hPhs⟩ := every_mk.1 hP
    obtain ⟨hQf, hQhs⟩ := every_mk.1 hQ
    exact every_mk.2 ⟨⟨hPf, hQf⟩, everyOf_iff.2 fun d hd ↦
      ih d hd (everyOf_iff.1 hPhs d hd) (everyOf_iff.1 hQhs d hd)⟩

/-- A list inside a pattern is not changed by clipping. -/
theorem clipList_eq_self (hrs : EveryOf (Pattern.Solid n) rs) (hf : f.bytes = n)
    (hin : ContainedIn f rs) : clipList rs f = .ok rs := by
  induction rs with
  | nil => rw [clipList]
  | cons r rs ih =>
    obtain ⟨hr, hrs⟩ := everyOf_cons.1 hrs
    obtain ⟨⟨hsub, hcontained⟩, hin⟩ := containedIn_cons.1 hin
    exact clipList_cons_eq_ok.2 ⟨some r, rs, clip_eq_self hr hf hsub hcontained, ih hrs hin, rfl⟩

end Region

namespace Space

/-- A list of expressions with plus signs between them. -/
def sum : List Expr → Expr
  | [] => .nil
  | [e] => e
  | e :: es => .plus e (sum es)

mutual

/-- The structure of the written form of a region. -/
def exprOf : Region → Expr
  | .mk f [] => .pattern f.text.toList
  | .mk f (h :: hs) => .group (.except f.text.toList (.group (sum (exprsOf (h :: hs)))))

/-- The structures of the written forms of regions. -/
def exprsOf : List Region → List Expr
  | [] => []
  | r :: rs => exprOf r :: exprsOf rs

end

/-- The structure of the written form of a space. -/
def exprOfSpace (s : Space) : Expr :=
  match s.regions with
  | [] => .nil
  | rs => .group (sum (exprsOf rs))

variable {p : Pattern} {r : Region} {rs : List Region} {s : Space} {n : Nat} {h : Nat → Bool}

/-! ### The written form is in the grammar -/

/-- The trits of a written pattern are its own. -/
theorem tritsOf_text (p : Pattern) : tritsOf p.text.toList = p.toTrits := by
  rw [tritsOf, Pattern.text, String.toList_ofList, Pattern.filterMap_writeTrits]

/-- A written pattern is one in the sense of the grammar. -/
theorem run_text (hp : p.bytes = n) (hn : 1 ≤ n) : Run n p.text.toList := by
  have hlen : (tritsOf p.text.toList).length = 8 * n := by
    rw [tritsOf_text, Pattern.length_toTrits, Pattern.width, hp, Pattern.tritsPerByte]
    omega
  refine ⟨fun hnil ↦ ?_, fun c hc ↦ ?_, hlen⟩
  · rw [hnil] at hlen
    simp only [tritsOf, List.filterMap_nil, List.length_nil] at hlen
    omega
  · rw [Pattern.text, String.toList_ofList] at hc
    rw [isPatternChar, Bool.or_eq_true, beq_iff_eq]
    exact Pattern.of_mem_writeTrits hc

theorem exprsOf_eq_map (rs : List Region) : exprsOf rs = rs.map exprOf := by
  induction rs with
  | nil => rfl
  | cons r rs ih => rw [exprsOf, ih, List.map_cons]

theorem writeRegions_eq_map (rs : List Region) : writeRegions rs = rs.map writeRegion := by
  induction rs with
  | nil => rfl
  | cons r rs ih => rw [writeRegions, ih, List.map_cons]

theorem blanks_space : Blanks [' '] := List.forall_mem_singleton.2 rfl

/-- What is written with plus signs is a sum. -/
theorem spells_sum {es : List Expr} {ts : List (List Char)} (h : List.Forall₂ Spells es ts)
    (hne : es ≠ []) : Spells (sum es) (joinPlus ts) := by
  induction h with
  | nil => exact absurd rfl hne
  | @cons e t es ts he hes ih =>
    cases hes with
    | nil => exact he
    | cons he' hes' =>
      have hwhole := Spells.plus he blanks_space ((ih (List.cons_ne_nil _ _)).blanks blanks_space)
      rw [sum, joinPlus]
      · convert hwhole using 1
        simp
      all_goals exact List.cons_ne_nil _ _

/-- **The written form of a region has the structure of the region.** -/
theorem spells_exprOf (r : Region) : Spells (exprOf r) (writeRegion r) := by
  induction r using Region.induction with
  | mk f hs ih =>
    have hnone : Blanks [] := List.forall_mem_nil _
    cases hs with
    | nil =>
      rw [exprOf, writeRegion]
      exact .pattern _ hnone
    | cons d ds =>
      have hsum : Spells (sum (exprsOf (d :: ds))) (joinPlus (writeRegions (d :: ds))) := by
        rw [exprsOf_eq_map, writeRegions_eq_map]
        refine spells_sum ?_ (List.cons_ne_nil _ _)
        exact List.forall₂_map_left_iff.2 (List.forall₂_map_right_iff.2 (List.forall₂_same.2 ih))
      have hwhole := Spells.group hnone (.except f.text.toList hnone blanks_space
        (.group blanks_space hsum hnone)) hnone
      rw [exprOf, writeRegion]
      convert hwhole using 1
      simp

/-- The written form of a space has the structure of the space. -/
theorem spells_exprOfSpace (s : Space) : Spells (exprOfSpace s) s.text.toList := by
  have hnone : Blanks [] := List.forall_mem_nil _
  obtain ⟨bytes, rs⟩ := s
  cases rs with
  | nil =>
    have htext : (Space.text ⟨bytes, []⟩).toList =
        [] ++ '(' :: ([] ++ 'n' :: 'i' :: 'l' :: ([] ++ [')'])) := by
      simp [text]
    rw [htext]
    exact .nil hnone hnone hnone
  | cons r rs =>
    have hsum : Spells (sum (exprsOf (r :: rs))) (joinPlus (writeRegions (r :: rs))) := by
      rw [exprsOf_eq_map, writeRegions_eq_map]
      refine spells_sum ?_ (List.cons_ne_nil _ _)
      exact List.forall₂_map_left_iff.2
        (List.forall₂_map_right_iff.2 (List.forall₂_same.2 fun r _ ↦ spells_exprOf r))
    have htext : (Space.text ⟨bytes, r :: rs⟩).toList =
        [] ++ '(' :: (joinPlus (writeRegions (r :: rs)) ++ ([] ++ [')'])) := by
      rw [text, String.toList_ofList]
      simp
    rw [htext]
    exact .group hnone hsum hnone

/-! ### Structure and value -/

/-- The written form of a region is an item. -/
theorem isItem_exprOf (r : Region) : (exprOf r).IsItem := by
  obtain ⟨f, hs⟩ := r
  cases hs <;> exact trivial

/-- The written form of a region has a pattern in it. -/
theorem hasPattern_exprOf (r : Region) : (exprOf r).HasPattern := by
  obtain ⟨f, hs⟩ := r
  cases hs <;> exact trivial

/-- A sum of proper items is proper. -/
theorem proper_sum {es : List Expr} (hes : ∀ e ∈ es, e.IsItem ∧ e.Proper n) :
    (sum es).Proper n := by
  induction es with
  | nil => exact trivial
  | cons e es ih =>
    obtain ⟨he, hrest⟩ := List.forall_mem_cons.1 hes
    cases es with
    | nil => exact he.2
    | cons e' es => exact ⟨he.1, he.2, ih hrest⟩

/-- A sum is a union. -/
theorem holds_sum {es : List Expr} : (sum es).Holds h ↔ ∃ e ∈ es, e.Holds h := by
  induction es with
  | nil => simp [sum, Expr.Holds]
  | cons e es ih =>
    cases es with
    | nil => simp [sum]
    | cons e' es =>
      exact (or_congr_right ih).trans (List.exists_mem_cons_iff (Expr.Holds · h) _ _).symm

/-- A sum comes to the regions of all its items. -/
theorem regions_sum {es : List Expr} : (sum es).regions = es.flatMap Expr.regions := by
  induction es with
  | nil => rfl
  | cons e es ih =>
    cases es with
    | nil => simp [sum]
    | cons e' es => exact congrArg (e.regions ++ ·) ih

/-- **The written form of a region leaves no minus sign to be taken by the wrong part.** -/
theorem proper_exprOf (hn : 1 ≤ n) (hr : r.Every (·.bytes = n)) : (exprOf r).Proper n := by
  induction r using Region.induction with
  | mk f hs ih =>
    obtain ⟨hf, hhs⟩ := Region.every_mk.1 hr
    cases hs with
    | nil => exact run_text hf hn
    | cons d ds =>
      refine ⟨run_text hf hn, trivial, proper_sum ?_⟩
      rw [exprsOf_eq_map]
      exact List.forall_mem_map.2 fun q hq ↦
        ⟨isItem_exprOf q, ih q hq (Region.everyOf_iff.1 hhs q hq)⟩

/-- A written pattern means what the pattern does. -/
theorem matches_text :
    (∀ (i : Nat) (t : Trit), (tritsOf p.text.toList)[i]? = some t → t.allows (h i) = true) ↔
    p.Matches h := by
  rw [tritsOf_text, ← Pattern.matches_ofTrits, Pattern.ofTrits_toTrits]
  rw [Pattern.length_toTrits, Pattern.width, Nat.mul_mod_left]

/-- **The written form of a region has the headers of the region**, whatever patterns it is made
of. -/
theorem holds_exprOf : (exprOf r).Holds h ↔ r.Contains h := by
  induction r using Region.induction with
  | mk f hs ih =>
    cases hs with
    | nil => rw [exprOf, Expr.Holds, matches_text, Region.contains_mk]; simp
    | cons d ds =>
      rw [exprOf, Expr.Holds, Expr.Holds, matches_text, Expr.Holds, holds_sum, exprsOf_eq_map,
        Region.contains_mk, Region.containsAny_iff]
      refine and_congr_right fun _ ↦ not_congr ⟨?_, ?_⟩
      · rintro ⟨e, he, hh⟩
        obtain ⟨q, hq, rfl⟩ := List.mem_map.1 he
        exact ⟨q, hq, (ih q hq).1 hh⟩
      · rintro ⟨q, hq, hh⟩
        exact ⟨exprOf q, List.mem_map_of_mem hq, (ih q hq).2 hh⟩

/-- **A region inside itself everywhere, without conflicts, is what its written form comes to.** -/
theorem regions_exprOf (hr : r.Every (Pattern.Solid n)) (hcontained : r.Contained) :
    (exprOf r).regions = [r] := by
  induction r using Region.induction with
  | mk f hs ih =>
    obtain ⟨hf, hhs⟩ := Region.every_mk.1 hr
    have hin := Region.contained_mk.1 hcontained
    have htext : Pattern.ofTrits (tritsOf f.text.toList) = f := by
      rw [tritsOf_text, Pattern.ofTrits_toTrits]
    cases hs with
    | nil => rw [exprOf, Expr.regions, htext]; rfl
    | cons d ds =>
      have hholes : (sum (exprsOf (d :: ds))).regions = d :: ds := by
        rw [regions_sum, exprsOf_eq_map, List.flatMap_map]
        have hsame : ∀ q ∈ d :: ds, (exprOf q).regions = [q] := fun q hq ↦
          ih q hq (Region.everyOf_iff.1 hhs q hq) (Region.containedIn_iff.1 hin q hq).2
        rw [List.flatMap_congr hsame]
        exact List.flatMap_singleton' _
      rw [exprOf, Expr.regions, Expr.regions, Expr.regions, hholes, htext, clipped,
        Region.clipList_eq_self hhs hf.1 hin]

/-! ### Round trip -/

/-- The written form of a space is proper. -/
theorem proper_exprOfSpace (hn : 1 ≤ s.bytes) (hs : s.Uniform) :
    (exprOfSpace s).Proper s.bytes := by
  obtain ⟨bytes, rs⟩ := s
  cases rs with
  | nil => exact trivial
  | cons r rs =>
    refine proper_sum ?_
    rw [exprsOf_eq_map]
    exact List.forall_mem_map.2 fun q hq ↦
      ⟨isItem_exprOf q, proper_exprOf hn (Region.everyOf_iff.1 hs q hq)⟩

/-- **The written form of a space is in the grammar.** -/
theorem writes_text (hn : 1 ≤ s.bytes) (hs : s.Uniform) : Writes s.text s.bytes (exprOfSpace s) :=
  ⟨s.text.toList, [], (List.append_nil _).symm, spells_exprOfSpace s, List.forall_mem_nil _,
    proper_exprOfSpace hn hs⟩

/-- The written form of a space has the headers of the space. -/
theorem holds_exprOfSpace : (exprOfSpace s).Holds h ↔ s.Contains h := by
  obtain ⟨bytes, rs⟩ := s
  rw [Contains, Region.containsAny_iff]
  cases rs with
  | nil => simp [exprOfSpace, Expr.Holds]
  | cons r rs =>
    rw [exprOfSpace, Expr.Holds, holds_sum, exprsOf_eq_map]
    constructor
    · rintro ⟨e, he, hh⟩
      obtain ⟨q, hq, rfl⟩ := List.mem_map.1 he
      exact ⟨q, hq, holds_exprOf.1 hh⟩
    · rintro ⟨q, hq, hh⟩
      exact ⟨exprOf q, List.mem_map_of_mem hq, holds_exprOf.2 hh⟩

theorem hasPattern_exprOfSpace (hne : s.regions ≠ []) : (exprOfSpace s).HasPattern := by
  obtain ⟨bytes, rs⟩ := s
  cases rs with
  | nil => exact absurd rfl hne
  | cons r rs =>
    cases rs with
    | nil => exact hasPattern_exprOf r
    | cons q qs => exact .inl (hasPattern_exprOf r)

/-- A space inside itself everywhere is what its written form comes to. -/
theorem regions_exprOfSpace (hs : Region.EveryOf (Pattern.Solid s.bytes) s.regions)
    (hcontained : ∀ r ∈ s.regions, r.Contained) : (exprOfSpace s).regions = s.regions := by
  obtain ⟨bytes, rs⟩ := s
  cases rs with
  | nil => rfl
  | cons r rs =>
    rw [exprOfSpace, Expr.regions, regions_sum, exprsOf_eq_map, List.flatMap_map,
      List.flatMap_congr fun q hq ↦ regions_exprOf (Region.everyOf_iff.1 hs q hq) (hcontained q hq)]
    exact List.flatMap_singleton' _

/-- The length may be left open if there is a pattern. -/
theorem parseAny_of_writes {text : String} {e : Expr} (he : Writes text n e)
    (hsome : e.HasPattern) : parseAny text = parse text n := by
  obtain ⟨c, hread, hbytes⟩ := readAll_complete he (.inl rfl)
  rw [parse_of_writes he, parseAny, hread]
  rcases hbytes with h | ⟨hnone, -⟩
  · simp only [bind, Except.bind, h]
    rfl
  · exact absurd hsome hnone

/-- **A written set is read as the same set**, and where no pattern has a conflict and every hole
lies inside its frame, as the same regions. The length of the headers can be left to the reader if
there is a region. -/
theorem text_roundTrip (s : Space) (hn : 1 ≤ s.bytes) (hs : s.Uniform) :
    (∃ t, parse s.text s.bytes = .ok t ∧ t.bytes = s.bytes ∧ ∀ h, t.Contains h ↔ s.Contains h) ∧
    (Region.EveryOf (fun p ↦ p.hasConflict = false) s.regions → (∀ r ∈ s.regions, r.Contained) →
      parse s.text s.bytes = .ok s) ∧
    (s.regions ≠ [] → parseAny s.text = parse s.text s.bytes) := by
  have hwrites := writes_text hn hs
  have hparse := parse_of_writes hwrites
  refine ⟨⟨_, hparse, rfl, fun h ↦ ?_⟩, fun hclean hcontained ↦ ?_, fun hne ↦ ?_⟩
  · rw [Contains, ofRegions, Region.containsAny_filter,
      (containsAny_regions (proper_exprOfSpace hn hs)).2, holds_exprOfSpace]
  · have hsolid : Region.EveryOf (Pattern.Solid s.bytes) s.regions :=
      Region.everyOf_iff.2 fun r hr ↦ Region.every_and (Region.everyOf_iff.1 hs r hr)
        (Region.everyOf_iff.1 hclean r hr)
    have hkeep : s.regions.filter (fun r ↦ !r.frame.hasConflict) = s.regions := by
      refine List.filter_eq_self.2 fun r hr ↦ ?_
      obtain ⟨f, hs⟩ := r
      have hf : f.hasConflict = false := (Region.every_mk.1 (Region.everyOf_iff.1 hclean _ hr)).1
      rw [Region.frame, hf]
      rfl
    rw [hparse, regions_exprOfSpace hsolid hcontained, ofRegions, hkeep]
  · exact parseAny_of_writes hwrites (hasPattern_exprOfSpace hne)

/-- Two regions, one of them with a hole. -/
def nested : Space := ⟨1, [.mk (.allWild 1) [.plain (.fill 1 .one)], .plain (.fill 1 .zero)]⟩

theorem uniform_nested : nested.Uniform := by
  simp [Uniform, nested, Region.plain, Pattern.fill]

theorem text_roundTrip_nested :
    (∃ t, parse nested.text 1 = .ok t ∧ ∀ h, t.Contains h ↔ nested.Contains h) ∧
      parse nested.text 1 = .ok nested ∧ parseAny nested.text = .ok nested := by
  have hone : (Pattern.fill 1 .one).hasConflict = false := by decide
  have hzero : (Pattern.fill 1 .zero).hasConflict = false := by decide
  have hclean : Region.EveryOf (fun p ↦ p.hasConflict = false) nested.regions := by
    simp [nested, Region.plain, hone, hzero]
  have hcontained : ∀ r ∈ nested.regions, r.Contained := by
    simp [nested, Region.plain, Region.frame, Pattern.matches_allWild]
  have h := text_roundTrip nested (Nat.le_refl 1) uniform_nested
  obtain ⟨t, ht, -, hcover⟩ := h.1
  exact ⟨⟨t, ht, hcover⟩, h.2.1 hclean hcontained,
    (h.2.2 (List.cons_ne_nil _ _)).trans (h.2.1 hclean hcontained)⟩

end Space

end HeaderFlow
