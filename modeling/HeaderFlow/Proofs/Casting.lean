import Mathlib.Data.Option.Basic
import HeaderFlow.Probe.Basic
import HeaderFlow.Proofs.Checked

/-!
# Headers of two runs

A `Casting` says which patterns and spaces of one run stand for which of another, where headers may
have another length. **All operations on headers respect it**: if an operation succeeds in the first
run, so does the same operation in the second, and the answers stand for each other; a comparison
has the same answer in both. Conditions then respect it as well.

The identity is a casting. Nothing is asked of patterns and spaces there, not even that they have
the length of the headers.

What is asked of a casting is a list of fields, one for each operation that the engine uses on
headers, so that the comparison of networks need not know which casting it goes by. A condition also
looks at paths, and these name the nodes that a flow has passed. In a twin network nodes may be
called differently, so a chain is compared without the names of its nodes (`Chain.anonymous`). **No
pathlet asks for a name** (`Pathlet.advance_anonymous`), so nothing is lost by that.
-/

namespace HeaderFlow

open Checked (Tracks tracks_ok tracks_refl)

/-! ### Castings -/

/-- What stands for what where headers have `n` bytes in the first run and `m` bytes in the
second. -/
structure Casting (n m : Nat) where
  pattern : Pattern → Pattern → Prop
  /-- The positions that a rule overwrites. -/
  mask : Pattern → Pattern → Prop
  space : Space → Space → Prop
  /-- The spaces that conditions ask for, which may have headers of another length. -/
  asked : Space → Space → Prop
  intersect : ∀ {p p' q q'}, pattern p p' → pattern q q' →
    Tracks (p.intersect q) (p'.intersect q') (Option.Rel pattern)
  replaceMasked : ∀ {p p' k k' v v'}, pattern p p' → mask k k' → pattern v v' →
    pattern (p.replaceMasked k v).pattern (p'.replaceMasked k' v').pattern
  allWild : pattern (.allWild n) (.allWild m)
  ofPattern : ∀ {p p'}, pattern p p' → space (.ofPattern p) (.ofPattern p')
  empty : space (.empty n) (.empty m)
  all : space (.all n) (.all m)
  isEmpty : ∀ {s s'}, space s s' → s'.isEmpty = s.isEmpty
  cut : ∀ {s s' p p'}, space s s' → pattern p p' → Tracks (s.cut p) (s'.cut p') space
  clip : ∀ {s s' p p'}, space s s' → pattern p p' → Tracks (s.clip p) (s'.clip p') space
  compact : ∀ {s s' o o'}, space s s' → Option.Rel mask o o' →
    Tracks (s.compact o) (s'.compact o') space
  overwrite : ∀ {s s' k k' v v'}, space s s' → mask k k' → pattern v v' →
    Tracks (s.overwrite k v) (s'.overwrite k' v') space
  addPattern : ∀ {s s' p p'}, space s s' → pattern p p' →
    Tracks (s.addPattern p) (s'.addPattern p') space
  meet : ∀ {s s' t t'}, space s s' → asked t t' → Tracks (s.intersect t) (s'.intersect t') space
  unroll : ∀ {s s'}, space s s' → Tracks s.unroll s'.unroll space
  simplify : ∀ {s s'}, space s s' → Tracks s.simplify s'.simplify space
  isSubset : ∀ {s s' t t'}, space s s' → space t t' → Tracks (s.isSubset t) (s'.isSubset t') Eq

namespace Casting

/-- Everything stands for itself. -/
def same (n : Nat) : Casting n n where
  pattern := Eq
  mask := Eq
  space := Eq
  asked := Eq
  intersect := by
    rintro p _ q _ rfl rfl
    refine (tracks_refl _).imp ?_
    rintro (_ | _) _ rfl
    · exact .none
    · exact .some rfl
  replaceMasked := by rintro _ _ _ _ _ _ rfl rfl rfl; rfl
  allWild := rfl
  ofPattern := by rintro _ _ rfl; rfl
  empty := rfl
  all := rfl
  isEmpty := by rintro _ _ rfl; rfl
  cut := by rintro _ _ _ _ rfl rfl; exact tracks_refl _
  clip := by rintro _ _ _ _ rfl rfl; exact tracks_refl _
  compact := by rintro _ _ _ _ rfl ⟨⟩ <;> (try subst_vars) <;> exact tracks_refl _
  overwrite := by rintro _ _ _ _ _ _ rfl rfl rfl; exact tracks_refl _
  addPattern := by rintro _ _ _ _ rfl rfl; exact tracks_refl _
  meet := by rintro _ _ _ _ rfl rfl; exact tracks_refl _
  unroll := by rintro _ _ rfl; exact tracks_refl _
  simplify := by rintro _ _ rfl; exact tracks_refl _
  isSubset := by rintro _ _ _ _ rfl rfl; exact tracks_refl _

variable {n m : Nat} (C : Casting n m)

/-- Strict inclusion has the same answer in both runs. -/
theorem isStrictSubset {s s' t t' : Space} (hs : C.space s s') (ht : C.space t t') :
    Tracks (s.isStrictSubset t) (s'.isStrictSubset t') Eq := by
  simp only [Space.isStrictSubset, C.isEmpty ht]
  split
  · exact tracks_ok rfl
  · refine (C.isSubset hs ht).bind ?_
    rintro b _ rfl
    split
    · exact (C.isSubset ht hs).bind fun _ _ h ↦ tracks_ok (by rw [h])
    · exact tracks_ok rfl

/-- Equality of covers has the same answer in both runs. -/
theorem isEqual {s s' t t' : Space} (hs : C.space s s') (ht : C.space t t') :
    Tracks (s.isEqual t) (s'.isEqual t') Eq := by
  simp only [Space.isEqual, C.isEmpty hs, C.isEmpty ht]
  split
  · exact tracks_ok rfl
  · refine (C.isSubset hs ht).bind ?_
    rintro b _ rfl
    split
    · exact C.isSubset ht hs
    · exact tracks_ok rfl

end Casting

/-! ### Ways -/

/-- The stop, whatever the node is called. -/
def Hop.anonymous (h : Hop) : Hop := { h with node := 0 }

namespace Chain

/-- The way of the chain, whatever its nodes are called. -/
def route (c : Chain) : List Hop := c.hops.map Hop.anonymous

/-- The chain without what arrived by it, and without the names of its nodes. -/
def anonymous (c : Chain) : Chain := ⟨none, c.route⟩

theorem inner_anonymous (c : Chain) : c.anonymous.inner = c.inner.map Hop.anonymous :=
  List.map_dropLast.symm

theorem length_anonymous (c : Chain) : c.anonymous.length = c.length := List.length_map _

end Chain

/-- A hop is sought by what it is like, not by its name. -/
theorem Pathlet.seek_anonymous (c : Chain) (i : Nat) {p : Hop → Bool}
    (hp : ∀ h, p h.anonymous = p h) : seek c.anonymous i p = seek c i p := by
  have hcomp : p ∘ Hop.anonymous = p := funext hp
  rw [seek, seek, c.inner_anonymous, ← List.map_drop, List.findIdx?_map, hcomp]

theorem Pathlet.nextInput_anonymous (c : Chain) (i : Nat) {p : Hop → Bool}
    (hp : ∀ h, p h.anonymous = p h) : nextInput c.anonymous i p = nextInput c i p := by
  have hcomp : Hop.atInput ∘ Hop.anonymous = Hop.atInput := rfl
  rw [nextInput, nextInput, c.inner_anonymous, ← List.map_drop, List.findIdx?_map, hcomp]
  cases (c.inner.drop i).findIdx? Hop.atInput with
  | none => rfl
  | some skipped =>
    simp only [Option.bind_eq_bind, Option.bind_some, List.getElem?_map]
    cases c.inner[i + skipped]? with
    | none => rfl
    | some h => simp only [Option.map_some, Option.bind_some, hp]

theorem Pathlet.lastHop_anonymous (c : Chain) (i : Nat) {p : Hop → Bool}
    (hp : ∀ h, p h.anonymous = p h) : lastHop c.anonymous i p = lastHop c i p := by
  rw [lastHop, lastHop, c.inner_anonymous, ← List.map_drop, List.getLast?_map, List.length_map]
  cases (c.inner.drop i).getLast? with
  | none => rfl
  | some h => simp only [Option.map_some, Option.bind_eq_bind, Option.bind_some, hp]; rfl

/-- **Pathlets do not look at the names of nodes.** -/
theorem Pathlet.advance_anonymous (c : Chain) (i : Nat) (p : Pathlet) :
    p.advance c.anonymous i = p.advance c i := by
  cases p with
  | port | table => exact seek_anonymous c i fun _ ↦ rfl
  | nextPorts | nextTables | hop => exact nextInput_anonymous c i fun _ ↦ rfl
  | lastPorts | lastTables => exact lastHop_anonymous c i fun _ ↦ rfl
  | anyHops => rfl
  | atEnd => rw [advance, advance, Chain.isRoot, Chain.isRoot, c.length_anonymous]

/-- Walking along a chain asks for no name. -/
theorem Path.walk_anonymous (c : Chain) (i : Nat) (ps : List Pathlet) :
    walk c.anonymous i ps = walk c i ps := by
  simp only [walk, Pathlet.advance_anonymous]

/-- Placing sections asks for no name. -/
theorem Path.placeAll_anonymous (c : Chain) (i : Nat) (ss : List (List Pathlet)) :
    placeAll c.anonymous i ss = placeAll c i ss := by
  induction ss generalizing i with
  | nil => rfl
  | cons s ss ih =>
    have hplace : place c.anonymous i s = place c i s := by
      simp only [place, walk_anonymous, c.inner_anonymous, List.length_map]
    simp only [placeAll, hplace, ih]

/-- **A path condition asks for no name.** -/
theorem Path.accepts_anonymous (c : Chain) (ps : List Pathlet) :
    accepts c.anonymous ps = accepts c ps := by
  simp only [accepts, walk_anonymous, placeAll_anonymous]

/-! ### Conditions -/

/-- The same condition about other spaces. -/
inductive Condition.Alike (S : Space → Space → Prop) : Condition → Condition → Prop
  | always : Alike S .always .always
  | never : Alike S .never .never
  | and {a a' b b' : Condition} : Alike S a a' → Alike S b b' → Alike S (.and a b) (.and a' b')
  | or {a a' b b' : Condition} : Alike S a a' → Alike S b b' → Alike S (.or a b) (.or a' b')
  | not {a a' : Condition} : Alike S a a' → Alike S (.not a) (.not a')
  | header {s s' : Space} : S s s' → Alike S (.header s) (.header s')
  | path (ps : List Pathlet) : Alike S (.path ps) (.path ps)

/-- A condition is like itself. -/
theorem Condition.alike_refl (q : Condition) : Alike Eq q q := by
  induction q with
  | always => exact .always
  | never => exact .never
  | and a b iha ihb => exact .and iha ihb
  | or a b iha ihb => exact .or iha ihb
  | not a ih => exact .not ih
  | header s => exact .header rfl
  | path ps => exact .path ps

/-- **If every space stands for itself only, so does every condition.** -/
theorem Condition.Alike.eq {S : Space → Space → Prop} {q q' : Condition} (h : Alike S q q')
    (hS : ∀ s s', S s s' → s' = s) : q' = q := by
  induction h with
  | always => rfl
  | never => rfl
  | and _ _ iha ihb => rw [iha, ihb]
  | or _ _ iha ihb => rw [iha, ihb]
  | not _ ih => rw [ih]
  | header hs => rw [hS _ _ hs]
  | path => rfl

/-- Chains of stops that are alike, by which headers arrived that stand for each other. -/
structure Chain.Alike (S : Space → Space → Prop) (c c' : Chain) : Prop where
  processed : Option.Rel S c.processed c'.processed
  route : c'.route = c.route

namespace Casting

variable {n m : Nat} (C : Casting n m)

/-- Headers have arrived in both runs or in neither. -/
theorem hasHeaders_eq {c c' : Chain} (hc : c.Alike C.space c') :
    Probe.hasHeaders c' = Probe.hasHeaders c := by
  have hrel := hc.processed
  rw [Probe.hasHeaders, Probe.hasHeaders]
  generalize c.processed = o at hrel
  generalize c'.processed = o' at hrel
  cases hrel with
  | some hs => exact congrArg (!·) (C.isEmpty hs)
  | none => rfl

/-- **A condition has the same answer in both runs.** -/
theorem check {c c' : Chain} {q q' : Condition} (hc : c.Alike C.space c')
    (hq : q.Alike C.asked q') : Tracks (q.check c) (q'.check c') Eq := by
  induction hq with
  | always => exact tracks_ok rfl
  | never => exact tracks_ok rfl
  | and _ _ iha ihb =>
    refine iha.bind ?_
    rintro b _ rfl
    split
    · exact ihb
    · exact tracks_ok rfl
  | or _ _ iha ihb =>
    refine iha.bind ?_
    rintro b _ rfl
    split
    · exact tracks_ok rfl
    · exact ihb
  | not _ ih => exact ih.bind fun _ _ h ↦ tracks_ok (by rw [h])
  | header hs =>
    have hrel := hc.processed
    simp only [Condition.check, Condition.meets]
    generalize c.processed = o at hrel
    generalize c'.processed = o' at hrel
    cases hrel with
    | none => exact tracks_ok rfl
    | some hp =>
      refine (C.meet hp hs).bind fun common common' hcommon ↦ ?_
      rw [C.isEmpty hcommon]
      split
      · exact tracks_ok rfl
      · exact (C.unroll hcommon).bind fun _ _ h ↦ tracks_ok (by rw [C.isEmpty h])
  | path ps =>
    refine tracks_ok ?_
    rw [← Path.accepts_anonymous c, ← Path.accepts_anonymous c', Chain.anonymous, Chain.anonymous,
      hc.route]

end Casting

end HeaderFlow
