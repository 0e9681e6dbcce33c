import HeaderFlow.Probe.Path
import Mathlib.Order.Nat

/-!
# What a path condition matches

A pathlet leads from a place in a chain to places further on (`Pathlet.Leads`), and a path condition
is meant to match a chain if its pathlets lead along it one after the other, that is if there is a
*course* (`Path.Course`). The search for a course is eager: a pathlet that may pass any later hop
passes the first one that will do, and a section after `.*` stays at the first place where it fits.

**Eagerness costs nothing after `.*`.** A section that is placed nearer to the probe leads to a
place that is no further away, and from there the sections that follow fit as well. So the pathlets
after `.*` are accepted from some place short of the root, and it does not matter from which one
(`acceptsFrom_anyHops`). With this, soundness is an induction over the pathlets (`exists_course`).

**It does cost courses elsewhere.** A pathlet `port` or `table` is not tried again further on if a
later pathlet of its section fails, since only `.*` opens a decision. A course is *eager* if it does
not ask for that, and where there is an eager one the search succeeds (`accepts_of_eager`). A course
may pass over the first hop that will do if what follows does not depend on the very place it is
tried at, or if there was nothing but single hops since the last `.*`, which then can be skipped
instead.

What is said here is about courses along which `.*` stops short of the root. Courses along which it
leads to the root are left out.
-/

namespace HeaderFlow

namespace Chain

variable {c : Chain} {p q : Hop → Bool} {i j k m : Nat}

/-- Hop `k` comes before the root and satisfies `p`. -/
def At (c : Chain) (p : Hop → Bool) (k : Nat) : Prop := ∃ h, c.inner[k]? = some h ∧ p h = true

/-- Hop `k` is the first from place `i` on that comes before the root and satisfies `p`. -/
structure First (c : Chain) (p : Hop → Bool) (i k : Nat) : Prop where
  le : i ≤ k
  hit : c.At p k
  missed : ∀ m, i ≤ m → m < k → ¬ c.At p m

theorem At.lt (h : c.At p k) : k < c.inner.length := by
  obtain ⟨_, hget, -⟩ := h
  exact (List.getElem?_eq_some_iff.1 hget).1

/-- Less is asked of the hop. -/
theorem At.imp (h : c.At p k) (hpq : ∀ h, p h = true → q h = true) : c.At q k := by
  obtain ⟨hop, hget, hp⟩ := h
  exact ⟨hop, hget, hpq hop hp⟩

/-- The first hop from an earlier place on comes no later. -/
theorem First.le_of_at (h : c.First p i k) (him : i ≤ m) (hm : c.At p m) : k ≤ m :=
  Nat.le_of_not_lt fun hlt ↦ h.missed m him hlt hm

/-- The search for a hop finds the first one. -/
theorem findIdx?_eq_some {n : Nat} :
    (c.inner.drop i).findIdx? p = some n ↔ c.First p i (i + n) := by
  rw [List.findIdx?_eq_some_iff_getElem]
  constructor
  · rintro ⟨hn, hp, hmissed⟩
    rw [List.length_drop] at hn
    rw [List.getElem_drop] at hp
    refine ⟨by omega, ⟨_, List.getElem?_eq_getElem (by omega), hp⟩, ?_⟩
    rintro m hm hlt ⟨h, hget, hhit⟩
    refine hmissed (m - i) (by omega) ?_
    obtain ⟨_, rfl⟩ := List.getElem?_eq_some_iff.1 hget
    simpa only [List.getElem_drop, Nat.add_sub_cancel' hm] using hhit
  · rintro ⟨-, ⟨h, hget, hp⟩, hmissed⟩
    obtain ⟨hlt, rfl⟩ := List.getElem?_eq_some_iff.1 hget
    refine ⟨by rw [List.length_drop]; omega, by simpa using hp, fun m hm hp ↦ ?_⟩
    rw [List.getElem_drop] at hp
    exact hmissed (i + m) (by omega) (by omega) ⟨_, List.getElem?_eq_getElem (by omega), hp⟩

/-- Where there is a hop there is a first one. -/
theorem At.exists_first (hk : c.At p k) (hik : i ≤ k) :
    ∃ m, c.First p i m ∧ (c.inner.drop i).findIdx? p = some (m - i) := by
  cases hfind : (c.inner.drop i).findIdx? p with
  | some n => exact ⟨i + n, findIdx?_eq_some.1 hfind, by rw [Nat.add_sub_cancel_left]⟩
  | none =>
    obtain ⟨h, hget, hp⟩ := hk
    have hmem : h ∈ c.inner.drop i := by
      rw [← Nat.add_sub_cancel' hik, ← List.getElem?_drop] at hget
      exact List.mem_of_getElem? hget
    exact absurd (List.findIdx?_eq_none_iff.1 hfind h hmem) (by simp [hp])

/-- The root is past all hops. -/
theorem isRoot_iff : c.isRoot i = true ↔ c.inner.length ≤ i := by
  rw [isRoot, decide_eq_true_eq, length, inner, List.length_dropLast]
  omega

end Chain

namespace Pathlet

variable {c : Chain} {p : Hop → Bool} {q : Pathlet} {i i' j j' : Nat}

/-! ### Places

What each pathlet means is a relation between two places, without a word on how one is found. A
pathlet either leads to one place, to the next one that will do, or to any that will do. -/

/-- From place `i` on there is an input hop before the root that satisfies `p`, and `j` is the place
past it. -/
def Passes (c : Chain) (p : Hop → Bool) (i j : Nat) : Prop :=
  ∃ k, i ≤ k ∧ c.At (fun h ↦ h.atInput && p h) k ∧ j = k + 1

/-- The first input hop from place `i` on satisfies `p`, and `j` is the place past it. -/
def PassesNext (c : Chain) (p : Hop → Bool) (i j : Nat) : Prop :=
  ∃ k, c.First Hop.atInput i k ∧ c.At p k ∧ j = k + 1

/-- Place `i` is short of the root, which is `j`, and the hop before it is an input hop that
satisfies `p`. -/
def PassesLast (c : Chain) (p : Hop → Bool) (i j : Nat) : Prop :=
  i < c.inner.length ∧ c.At (fun h ↦ h.atInput && p h) (c.inner.length - 1) ∧ j = c.inner.length

/-- **What a pathlet means**: from place `i` it leads to place `j`. The number of the root is that
of the hops before it. -/
def Leads (c : Chain) (i j : Nat) : Pathlet → Prop
  | .port p => Passes c (fun h ↦ h.port == p) i j
  | .table t => Passes c (fun h ↦ h.isRuleOf (· == t)) i j
  | .nextPorts ps => PassesNext c (fun h ↦ ps.contains h.port) i j
  | .nextTables ts => PassesNext c (fun h ↦ h.isRuleOf ts.contains) i j
  | .lastPorts ps => PassesLast c (fun h ↦ ps.contains h.port) i j
  | .lastTables ts => PassesLast c (fun h ↦ h.isRuleOf ts.contains) i j
  | .hop => PassesNext c (fun _ ↦ true) i j
  | .anyHops => i ≤ j ∧ j ≤ c.inner.length
  | .atEnd => c.inner.length ≤ i ∧ j = i

/-- The pathlet may pass any of the hops that satisfy it. -/
def roams : Pathlet → Bool
  | .port _ | .table _ => true
  | _ => false

/-- The pathlet may lead on from a place and fail at an earlier one. -/
def isStrict : Pathlet → Bool
  | .nextPorts _ | .nextTables _ | .atEnd => true
  | _ => false

/-- What follows the pathlet may be tried at a place that does not depend on where the pathlet was
tried. -/
def forgets : Pathlet → Bool
  | .lastPorts _ | .lastTables _ | .anyHops => true
  | _ => false

/-! ### The first place

The search goes to the first place that a pathlet leads to. All its merits come from one fact: from
an earlier place it gets no further away from the probe (`advance_mono`). The exceptions are the
pathlets that ask for the very next hop, or for the end; these may succeed here and fail at an
earlier place. -/

/-- Seeking passes the first hop that will do. -/
theorem seek_eq_some : seek c i p = some j ↔ ∃ k, c.First p i k ∧ j = k + 1 := by
  rw [seek, Option.map_eq_some_iff]
  constructor
  · rintro ⟨n, hn, rfl⟩
    exact ⟨i + n, Chain.findIdx?_eq_some.1 hn, rfl⟩
  · rintro ⟨k, hk, rfl⟩
    have hsum : i + (k - i) = k := Nat.add_sub_cancel' hk.le
    exact ⟨k - i, Chain.findIdx?_eq_some.2 (hsum.symm ▸ hk), congrArg (· + 1) hsum⟩

/-- What seeking finds is passed. -/
theorem passes_of_seek (h : seek c i (fun h ↦ h.atInput && p h) = some j) : Passes c p i j := by
  obtain ⟨k, hk, rfl⟩ := seek_eq_some.1 h
  exact ⟨k, hk.le, hk.hit, rfl⟩

/-- **Seeking finds the nearest place**, also from an earlier one. -/
theorem Passes.seek (h : Passes c p i j) (hi : i' ≤ i) :
    ∃ j', seek c i' (fun h ↦ h.atInput && p h) = some j' ∧ j' ≤ j := by
  obtain ⟨k, hik, hk, rfl⟩ := h
  obtain ⟨m, hfirst, -⟩ := hk.exists_first (hi.trans hik)
  exact ⟨m + 1, seek_eq_some.2 ⟨m, hfirst, rfl⟩,
    Nat.succ_le_succ (hfirst.le_of_at (hi.trans hik) hk)⟩

/-- The next input hop is passed if it will do. -/
theorem nextInput_eq_some : nextInput c i p = some j ↔ PassesNext c p i j := by
  rw [nextInput, PassesNext]
  simp only [Option.bind_eq_bind, Option.bind_eq_some_iff, Option.ite_none_right_eq_some,
    Option.some.injEq]
  constructor
  · rintro ⟨n, hn, h, hget, hp, rfl⟩
    exact ⟨i + n, Chain.findIdx?_eq_some.1 hn, ⟨h, hget, hp⟩, rfl⟩
  · rintro ⟨k, hk, ⟨h, hget, hp⟩, rfl⟩
    have hsum : i + (k - i) = k := Nat.add_sub_cancel' hk.le
    exact ⟨k - i, Chain.findIdx?_eq_some.2 (hsum.symm ▸ hk), h, hsum.symm ▸ hget, hp, by rw [hsum]⟩

/-- The last hop is passed if it will do. -/
theorem lastHop_eq_some : lastHop c i p = some j ↔ PassesLast c p i j := by
  rw [lastHop, PassesLast, Chain.At, ← List.getLast?_eq_getElem?]
  simp only [Option.bind_eq_bind, Option.bind_eq_some_iff, Option.ite_none_right_eq_some,
    Option.some.injEq, List.getLast?_drop, Option.ite_none_left_eq_some, Nat.not_le]
  constructor
  · rintro ⟨h, ⟨hlt, hget⟩, hp, rfl⟩
    exact ⟨hlt, ⟨h, hget, hp⟩, rfl⟩
  · rintro ⟨hlt, ⟨h, hget, hp⟩, rfl⟩
    exact ⟨h, ⟨hlt, hget⟩, hp, rfl⟩

/-- **Where the search goes the pathlet leads.** -/
theorem leads_of_advance (hany : q ≠ .anyHops) (h : q.advance c i = some j) : q.Leads c i j := by
  cases q with
  | port | table => exact passes_of_seek h
  | nextPorts | nextTables | hop => exact nextInput_eq_some.1 h
  | lastPorts | lastTables => exact lastHop_eq_some.1 h
  | anyHops => exact absurd rfl hany
  | atEnd =>
    obtain ⟨hroot, hplace⟩ := Option.ite_none_right_eq_some.1 h
    exact ⟨Chain.isRoot_iff.1 hroot, (Option.some.inj hplace).symm⟩

/-- **Where the pathlet leads the search goes at least as near**, also from an earlier place, unless
the pathlet depends on the very place. -/
theorem Leads.advance (hl : q.Leads c i j) (hi : i' ≤ i) (hstrict : q.isStrict = true → i' = i) :
    ∃ j', q.advance c i' = some j' ∧ j' ≤ j := by
  cases q with
  | port | table => exact Passes.seek hl hi
  | nextPorts | nextTables =>
    obtain rfl := hstrict rfl
    exact ⟨j, nextInput_eq_some.2 hl, le_rfl⟩
  | hop =>
    obtain ⟨k, hk, -, rfl⟩ := hl
    obtain ⟨m, hfirst, -⟩ := hk.hit.exists_first (hi.trans hk.le)
    obtain ⟨h, hget, -⟩ := id hfirst.hit
    exact ⟨m + 1, nextInput_eq_some.2 ⟨m, hfirst, ⟨h, hget, rfl⟩, rfl⟩,
      Nat.succ_le_succ (hfirst.le_of_at (hi.trans hk.le) hk.hit)⟩
  | lastPorts | lastTables =>
    exact ⟨j, lastHop_eq_some.2 ⟨hi.trans_lt hl.1, hl.2⟩, le_rfl⟩
  | anyHops => exact ⟨i', rfl, hi.trans hl.1⟩
  | atEnd =>
    obtain rfl := hstrict rfl
    exact ⟨i', if_pos (Chain.isRoot_iff.2 hl.1), hl.2.ge⟩

/-- Only a pathlet that may pass any hop, or any number of them, leads to several places. -/
theorem Leads.unique (hl : q.Leads c i j) (hl' : q.Leads c i j') (hroams : q.roams = false)
    (hany : q ≠ .anyHops) : j = j' := by
  cases q with
  | port | table => cases hroams
  | nextPorts | nextTables | hop =>
    exact Option.some.inj ((nextInput_eq_some.2 hl).symm.trans (nextInput_eq_some.2 hl'))
  | lastPorts | lastTables => exact hl.2.2.trans hl'.2.2.symm
  | anyHops => exact absurd rfl hany
  | atEnd => exact hl.2.trans hl'.2.symm

/-- From an earlier place the next input hop comes no later. -/
theorem PassesNext.mono (h' : PassesNext c p i' j') (h : PassesNext c p i j) (hi : i' ≤ i) :
    j' ≤ j := by
  obtain ⟨m, hm, -, rfl⟩ := h'
  obtain ⟨k, hk, -, rfl⟩ := h
  exact Nat.succ_le_succ (hm.le_of_at (hi.trans hk.le) hk.hit)

/-- **From an earlier place the search goes at least as near**, if it goes anywhere. -/
theorem advance_mono (h' : q.advance c i' = some j') (h : q.advance c i = some j) (hi : i' ≤ i) :
    j' ≤ j := by
  cases q with
  | port | table =>
    obtain ⟨_, hseek, hle⟩ := (passes_of_seek h).seek hi
    exact Option.some.inj (h'.symm.trans hseek) ▸ hle
  | nextPorts | nextTables | hop =>
    exact (nextInput_eq_some.1 h').mono (nextInput_eq_some.1 h) hi
  | lastPorts | lastTables =>
    exact ((lastHop_eq_some.1 h').2.2.trans (lastHop_eq_some.1 h).2.2.symm).le
  | anyHops =>
    obtain rfl := Option.some.inj h'
    obtain rfl := Option.some.inj h
    exact hi
  | atEnd =>
    obtain ⟨-, hplace'⟩ := Option.ite_none_right_eq_some.1 h'
    obtain ⟨-, hplace⟩ := Option.ite_none_right_eq_some.1 h
    exact Option.some.inj hplace' ▸ Option.some.inj hplace ▸ hi

/-- A pathlet does not lead back. -/
theorem Leads.le (hl : q.Leads c i j) : i ≤ j := by
  cases q with
  | port | table =>
    obtain ⟨k, hik, -, rfl⟩ := hl
    exact hik.trans k.le_succ
  | nextPorts | nextTables | hop =>
    obtain ⟨k, hk, -, rfl⟩ := hl
    exact hk.le.trans k.le_succ
  | lastPorts | lastTables => exact hl.2.2 ▸ hl.1.le
  | anyHops => exact hl.1
  | atEnd => exact hl.2.ge

/-- A pathlet does not lead back. -/
theorem le_of_advance (h : q.advance c i = some j) : i ≤ j := by
  by_cases hany : q = .anyHops
  · subst hany
    exact (Option.some.inj h).le
  · exact (leads_of_advance hany h).le

end Pathlet

namespace Path

open Pathlet

variable {c : Chain} {p : Pathlet} {ps s : List Pathlet} {ss : List (List Pathlet)}
  {i i' j k e e' : Nat}

/-! ### Sections

A list of pathlets falls into sections at each `.*`. The first one is walked from where the search
starts, and the others are placed one after another, each at the first place where it can be walked.
Once a section is placed it is not moved again, and by `walk_mono` it need not be. -/

@[simp] theorem walk_nil : walk c i [] = some i := rfl

/-- A walk goes on from where its first pathlet leads. -/
theorem walk_cons : walk c i (p :: ps) = (p.advance c i).bind fun j ↦ walk c j ps := rfl

/-- **From an earlier place a walk ends no later**, if it comes to its end. -/
theorem walk_mono (h' : walk c i' s = some e') (h : walk c i s = some e) (hi : i' ≤ i) :
    e' ≤ e := by
  induction s generalizing i i' with
  | nil => exact Option.some.inj h' ▸ Option.some.inj h ▸ hi
  | cons p s ih =>
    obtain ⟨j', hj', h'⟩ := Option.bind_eq_some_iff.1 h'
    obtain ⟨j, hj, h⟩ := Option.bind_eq_some_iff.1 h
    exact ih h' h (advance_mono hj' hj hi)

/-- A section is not placed at the root. -/
theorem place_root (hi : c.inner.length ≤ i) : place c i s = none := by
  rw [place, Nat.sub_eq_zero_of_le hi]
  rfl

/-- A section is placed where it is tried, or further on. -/
theorem place_succ (hi : i < c.inner.length) :
    place c i s = (walk c i s).or (place c (i + 1) s) := by
  have hrange : c.inner.length - i = c.inner.length - (i + 1) + 1 := by omega
  rw [place, hrange, List.range'_succ, List.findSome?_cons]
  cases walk c i s <;> rfl

/-- **A section that fits is placed where it fits or nearer.** -/
theorem place_of_walk (hi : i ≤ k) (hk : k < c.inner.length) (h : walk c k s = some e) :
    ∃ e', place c i s = some e' ∧ e' ≤ e := by
  -- the induction is on the places that are tried before
  induction hn : k - i generalizing i with
  | zero =>
    obtain rfl : i = k := by omega
    exact ⟨e, by rw [place_succ hk, h, Option.some_or], le_rfl⟩
  | succ n ih =>
    rw [place_succ (by omega)]
    cases hwalk : walk c i s with
    | some e' => exact ⟨e', rfl, walk_mono hwalk h hi⟩
    | none => exact ih (by omega) (by omega)

/-- A section is placed where it can be walked. -/
theorem walk_of_place (h : place c i s = some e) :
    ∃ k, i ≤ k ∧ k < c.inner.length ∧ walk c k s = some e := by
  obtain ⟨k, hk, hwalk⟩ := List.exists_of_findSome?_eq_some h
  obtain ⟨n, hn, rfl⟩ := List.mem_range'.1 hk
  exact ⟨_, by omega, by omega, hwalk⟩

/-- Sections that can be placed from one place on can be placed from an earlier one. -/
theorem placeAll_of_le (h : placeAll c j ss = true) (hi : i ≤ j) : placeAll c i ss = true := by
  induction ss generalizing i j with
  | nil => rfl
  | cons s ss ih =>
    rw [placeAll] at h ⊢
    split at h
    · rename_i e hplace
      obtain ⟨k, hjk, hk, hwalk⟩ := walk_of_place hplace
      obtain ⟨e', hplace', hle⟩ := place_of_walk (hi.trans hjk) hk hwalk
      rw [hplace']
      exact ih h hle
    · cases h

/-- The pathlets match from place `i` on. -/
def acceptsFrom (c : Chain) (i : Nat) (ps : List Pathlet) : Bool :=
  match walk c i (sections ps).1 with
  | some j => placeAll c j (sections ps).2
  | none => false

@[simp] theorem acceptsFrom_nil : acceptsFrom c i [] = true := rfl

/-- A pathlet other than `.*` belongs to the first section. -/
theorem sections_cons (hp : p ≠ .anyHops) :
    sections (p :: ps) = (p :: (sections ps).1, (sections ps).2) := by
  cases p <;> first | rfl | exact absurd rfl hp

/-- A pathlet other than `.*` has to lead on from this very place. -/
theorem acceptsFrom_cons (hp : p ≠ .anyHops) :
    acceptsFrom c i (p :: ps) = true ↔ ∃ j, p.advance c i = some j ∧ acceptsFrom c j ps = true := by
  rw [acceptsFrom, sections_cons hp, walk_cons]
  cases p.advance c i with
  | none => simp
  | some j => simp [acceptsFrom]

/-- **After `.*` the pathlets match if they do so from any place short of the root.** Although a
section is not placed again, no match is missed: the first place is as good as any. -/
theorem acceptsFrom_anyHops : acceptsFrom c i (.anyHops :: ps) = true ↔
    ∃ k, i ≤ k ∧ k < c.inner.length ∧ acceptsFrom c k ps = true := by
  have hunfold : acceptsFrom c i (.anyHops :: ps) =
      placeAll c i ((sections ps).1 :: (sections ps).2) := rfl
  rw [hunfold, placeAll]
  constructor
  · intro h
    split at h
    · rename_i e hplace
      obtain ⟨k, hik, hk, hwalk⟩ := walk_of_place hplace
      exact ⟨k, hik, hk, by rw [acceptsFrom, hwalk]; exact h⟩
    · cases h
  · rintro ⟨k, hik, hk, h⟩
    rw [acceptsFrom] at h
    split at h
    · rename_i e hwalk
      obtain ⟨e', hplace, hle⟩ := place_of_walk hik hk hwalk
      rw [hplace]
      exact placeAll_of_le h hle
    · cases h

/-! ### Courses

A course is a function from the number of a pathlet to its place, so that one can speak of the place
of a single pathlet. -/

/-- A place for each pathlet and one for the end, such that each pathlet leads from its place to the
next one. -/
structure Course (c : Chain) (i : Nat) (ps : List Pathlet) (cursor : Nat → Nat) : Prop where
  start : cursor 0 = i
  leads : ∀ (n : Nat) (p : Pathlet), ps[n]? = some p → p.Leads c (cursor n) (cursor (n + 1))

/-- A course begins one pathlet earlier. -/
theorem Course.cons {cursor : Nat → Nat} (h : Course c j ps cursor) (hl : p.Leads c i j) :
    Course c i (p :: ps) fun | 0 => i | n + 1 => cursor n where
  start := rfl
  leads
    | 0, _, hget => by
      obtain rfl := Option.some.inj hget
      show p.Leads c i (cursor 0)
      rw [h.start]
      exact hl
    | n + 1, p, hget => h.leads n p hget

/-- **Pathlets that are accepted lead along the chain.** -/
theorem exists_course (h : acceptsFrom c i ps = true) : ∃ cursor, Course c i ps cursor := by
  induction ps generalizing i with
  | nil => exact ⟨fun _ ↦ i, rfl, fun n p hget ↦ by simp at hget⟩
  | cons p ps ih =>
    by_cases hany : p = .anyHops
    · subst hany
      obtain ⟨k, hik, hk, h⟩ := acceptsFrom_anyHops.1 h
      obtain ⟨cursor, hcourse⟩ := ih h
      exact ⟨_, hcourse.cons (p := .anyHops) ⟨hik, hk.le⟩⟩
    · obtain ⟨j, hj, h⟩ := (acceptsFrom_cons hany).1 h
      obtain ⟨cursor, hcourse⟩ := ih h
      exact ⟨_, hcourse.cons (leads_of_advance hany hj)⟩

/-! ### Eager courses

The search may be ahead of the course, as it takes the first place each time. This does no harm as
long as what follows can be done from an earlier place as well. Where it cannot, the course has to
be eager, or single hops since the last `.*` have to make up for it (`exists_slide`). The induction
goes over the pathlets from the last to the first, with the set of places at which the search may be
(`Completed`). -/

/-- One of the pathlets depends on the very place from which the list is tried. -/
def isBound : List Pathlet → Bool
  | [] => false
  | p :: ps => p.isStrict || !p.forgets && isBound ps

/-- The list ends with `.*` and single hops after it. -/
def Loose (ps : List Pathlet) : Prop := ∃ l n, ps = l ++ .anyHops :: List.replicate n .hop

/-- A course along which a pathlet that roams passes the first hop that will do, if what follows
depends on the place and there is no `.*` to make up for it. Courses along which `.*` leads to the
root are not considered. -/
structure Eager (c : Chain) (ps : List Pathlet) (cursor : Nat → Nat) : Prop extends
    Course c 0 ps cursor where
  short : ∀ n, ps[n]? = some .anyHops → cursor (n + 1) < c.inner.length
  nearest : ∀ before p after, ps = before ++ p :: after → p.roams = true →
    isBound after = true → ¬ Loose before →
      ∀ j, p.Leads c (cursor before.length) j → cursor (before.length + 1) ≤ j

theorem loose_of_concat (h : Loose (ps ++ [p])) : p = .anyHops ∨ p = .hop ∧ Loose ps := by
  obtain ⟨l, n, h⟩ := h
  cases n with
  | zero => exact .inl (List.append_inj_right' h rfl |> List.head_eq_of_cons_eq)
  | succ n =>
    rw [List.replicate_succ', ← List.cons_append, ← List.append_assoc] at h
    obtain ⟨hps, hp⟩ := List.append_inj' h rfl
    exact .inr ⟨List.head_eq_of_cons_eq hp, l, n, hps⟩

/-- A walk in two parts. -/
theorem walk_append : walk c i (ps ++ s) = (walk c i ps).bind fun j ↦ walk c j s :=
  List.foldlM_append

/-- A walk does not lead back. -/
theorem le_of_walk (h : walk c i s = some e) : i ≤ e := by
  induction s generalizing i with
  | nil => exact (Option.some.inj h).le
  | cons p s ih =>
    obtain ⟨j, hj, h⟩ := Option.bind_eq_some_iff.1 h
    exact (le_of_advance hj).trans (ih h)

/-- Single hops are walked. -/
theorem acceptsFrom_hops {n : Nat} : acceptsFrom c i (List.replicate n .hop ++ ps) = true ↔
    ∃ j, walk c i (List.replicate n .hop) = some j ∧ acceptsFrom c j ps = true := by
  induction n generalizing i with
  | zero => simp
  | succ n ih =>
    rw [List.replicate_succ, List.cons_append, acceptsFrom_cons (by simp)]
    simp only [ih, walk_cons, Option.bind_eq_some_iff]
    exact ⟨fun ⟨j, hj, e, he, h⟩ ↦ ⟨e, ⟨j, hj, he⟩, h⟩, fun ⟨e, ⟨j, hj, he⟩, h⟩ ↦ ⟨j, hj, e, he, h⟩⟩

/-- **Single hops can be tried further on**, so that the last of them is followed directly by the
input hop that is wanted next. -/
theorem exists_slide {q : Hop → Bool} {n : Nat} (hwalk : walk c i (List.replicate n .hop) = some e)
    (hek : e ≤ k) (hk : c.At (fun h ↦ h.atInput && q h) k) :
    ∃ i' e', i ≤ i' ∧ i' < c.inner.length ∧ walk c i' (List.replicate n .hop) = some e' ∧
      c.First (fun h ↦ h.atInput && q h) e' k := by
  -- each time the hops are tried past one more input hop
  induction hgap : k - e using Nat.strong_induction_on generalizing i e with
  | _ gap ih =>
  have hinput : c.At Hop.atInput k := hk.imp fun h hh ↦ (Bool.and_eq_true_iff.1 hh).1
  obtain ⟨m, hm, -⟩ := hinput.exists_first hek
  obtain rfl | hlt := (hm.le_of_at hek hinput).eq_or_lt
  · exact ⟨i, e, le_rfl, (le_of_walk hwalk).trans_lt (hek.trans_lt hk.lt), hwalk, hek, hk,
      fun l hel hlm hl ↦ hm.missed l hel hlm (hl.imp fun h hh ↦ (Bool.and_eq_true_iff.1 hh).1)⟩
  · obtain ⟨h, hget, -⟩ := id hm.hit
    have hstep : Pathlet.hop.advance c e = some (m + 1) :=
      nextInput_eq_some.2 ⟨m, hm, ⟨h, hget, rfl⟩, rfl⟩
    have hlonger : walk c i (List.replicate (n + 1) .hop) = some (m + 1) := by
      rw [List.replicate_succ', walk_append, hwalk, Option.bind_some, walk_cons, hstep]
      rfl
    obtain ⟨i₁, hi₁, hwalk₁⟩ := Option.bind_eq_some_iff.1 hlonger
    have hle : i ≤ i₁ := le_of_advance hi₁
    obtain ⟨i', e', hi', hlen, hwalk', hfirst⟩ := ih (k - (m + 1)) (by have := hm.le; omega)
      hwalk₁ hlt rfl
    exact ⟨i', e', hle.trans hi', hlen, hwalk', hfirst⟩

/-- A pathlet that roams can pass the very hop that a course passes, after single hops that are
tried further on. -/
theorem Leads.exists_slide {n : Nat} (hl : p.Leads c e j) (hroams : p.roams = true)
    (hwalk : walk c i (List.replicate n .hop) = some e) :
    ∃ i' e', i ≤ i' ∧ i' < c.inner.length ∧ walk c i' (List.replicate n .hop) = some e' ∧
      p.advance c e' = some j := by
  cases p with
  | port | table =>
    obtain ⟨k, hek, hk, rfl⟩ := hl
    obtain ⟨i', e', hi', hlen, hwalk', hfirst⟩ := Path.exists_slide hwalk hek hk
    exact ⟨i', e', hi', hlen, hwalk', seek_eq_some.2 ⟨k, hfirst, rfl⟩⟩
  | _ => cases hroams

namespace Eager

variable {cursor : Nat → Nat} {before after : List Pathlet}

/-- Each pathlet of an eager course leads on. -/
theorem leads_at (h : Eager c ps cursor) (hps : ps = before ++ p :: after) :
    p.Leads c (cursor before.length) (cursor (before.length + 1)) :=
  h.leads _ _ (by simp [hps])

/-- **The search keeps up with an eager course.** It may be ahead of it, but not if what follows
depends on the place. -/
theorem exists_advance (h : Eager c ps cursor) (hps : ps = before ++ p :: after)
    (hany : p ≠ .anyHops) (hloose : ¬ Loose before) (hi : i ≤ cursor before.length)
    (hbound : isBound (p :: after) = true → i = cursor before.length) :
    ∃ j, p.advance c i = some j ∧ j ≤ cursor (before.length + 1) ∧
      (isBound after = true → j = cursor (before.length + 1)) := by
  have hl := h.leads_at hps
  obtain ⟨j, hj, hle⟩ := hl.advance hi fun hstrict ↦ hbound (by simp [isBound, hstrict])
  refine ⟨j, hj, hle, fun hafter ↦ ?_⟩
  have hlj := leads_of_advance hany hj
  cases hforgets : p.forgets with
  | true =>
    -- the search is at the root, and so is the course
    cases p with
    | lastPorts | lastTables => exact hlj.2.2.trans hl.2.2.symm
    | anyHops => exact absurd rfl hany
    | _ => cases hforgets
  | false =>
    obtain rfl := hbound (by simp [isBound, hforgets, hafter])
    cases hroams : p.roams with
    | true => exact hle.antisymm (h.nearest before p after hps hroams hafter hloose j hlj)
    | false => exact hlj.unique hl hroams hany

/-- The pathlets that are left are accepted wherever the search may be. -/
structure Completed (c : Chain) (cursor : Nat → Nat) (before after : List Pathlet) : Prop where
  ahead : ¬ Loose before → ∀ i ≤ cursor before.length,
    (isBound after = true → i = cursor before.length) → acceptsFrom c i after = true
  loose : ∀ i n, i < c.inner.length →
    walk c i (List.replicate n .hop) = some (cursor before.length) →
      ∃ i', i ≤ i' ∧ i' < c.inner.length ∧
        acceptsFrom c i' (List.replicate n .hop ++ after) = true

/-- `.*` is accepted wherever the search may be, as it can be made as long as in the course. -/
theorem acceptsFrom_anyHops (h : Eager c ps cursor) (hps : ps = before ++ .anyHops :: after)
    (hafter : Completed c cursor (before ++ [.anyHops]) after) (hi : i ≤ cursor before.length) :
    acceptsFrom c i (.anyHops :: after) = true := by
  have hlen : (before ++ [Pathlet.anyHops]).length = before.length + 1 := by simp
  obtain ⟨i', hi', hlt, haccepts⟩ := hafter.loose (cursor (before.length + 1)) 0
    (h.short _ (by simp [hps])) (by rw [hlen]; rfl)
  exact Path.acceptsFrom_anyHops.2
    ⟨i', (hi.trans (h.leads_at hps).le).trans hi', hlt, haccepts⟩

/-- Where no pathlet is left, all are accepted. -/
theorem completed_nil : Completed c cursor before [] where
  ahead _ _ _ _ := rfl
  loose i _ hi hwalk := ⟨i, le_rfl, hi, acceptsFrom_hops.2 ⟨_, hwalk, rfl⟩⟩

/-- One pathlet more. -/
theorem completed_cons (h : Eager c ps cursor) (hps : ps = before ++ p :: after)
    (hafter : Completed c cursor (before ++ [p]) after) :
    Completed c cursor before (p :: after) := by
  have hlen : (before ++ [p]).length = before.length + 1 := by simp
  have hahead := hafter.ahead
  rw [hlen] at hahead
  by_cases hany : p = .anyHops
  · subst hany
    refine ⟨fun _ i hi _ ↦ h.acceptsFrom_anyHops hps hafter hi, fun i n hi hwalk ↦ ?_⟩
    exact ⟨i, le_rfl, hi, acceptsFrom_hops.2
      ⟨_, hwalk, h.acceptsFrom_anyHops hps hafter le_rfl⟩⟩
  · refine ⟨fun hloose i hi hbound ↦ ?_, fun i n hi hwalk ↦ ?_⟩
    · obtain ⟨j, hj, hle, heq⟩ := h.exists_advance hps hany hloose hi hbound
      refine (acceptsFrom_cons hany).2 ⟨j, hj, hahead (fun hp ↦ ?_) j hle heq⟩
      exact (loose_of_concat hp).elim hany fun hp ↦ hloose hp.2
    · have hl := h.leads_at hps
      by_cases hhop : p = .hop
      · -- one single hop more that can be tried further on
        subst hhop
        have hwalk' : walk c i (List.replicate (n + 1) .hop) =
            some (cursor (before ++ [Pathlet.hop]).length) := by
          rw [List.replicate_succ', walk_append, hwalk, hlen, Option.bind_some, walk_cons,
            show Pathlet.hop.advance c _ = _ from nextInput_eq_some.2 hl]
          rfl
        obtain ⟨i', hi', hlt, haccepts⟩ := hafter.loose i (n + 1) hi hwalk'
        rw [List.replicate_succ', List.append_assoc] at haccepts
        exact ⟨i', hi', hlt, haccepts⟩
      · have hloose : ¬ Loose (before ++ [p]) := fun hp ↦
          (loose_of_concat hp).elim hany fun hp ↦ hhop hp.1
        have hrest := hahead hloose _ le_rfl fun _ ↦ rfl
        cases hroams : p.roams with
        | true =>
          obtain ⟨i', e', hi', hlt, hwalk', hj⟩ := Leads.exists_slide hl hroams hwalk
          exact ⟨i', hi', hlt, acceptsFrom_hops.2
            ⟨e', hwalk', (acceptsFrom_cons hany).2 ⟨_, hj, hrest⟩⟩⟩
        | false =>
          obtain ⟨j, hj, -⟩ := hl.advance le_rfl fun _ ↦ rfl
          obtain rfl := (leads_of_advance hany hj).unique hl hroams hany
          exact ⟨i, le_rfl, hi, acceptsFrom_hops.2
            ⟨_, hwalk, (acceptsFrom_cons hany).2 ⟨_, hj, hrest⟩⟩⟩

/-- **All pathlets that are left are accepted**, from the last to the first. -/
theorem completed (h : Eager c ps cursor) (hps : ps = before ++ after) :
    Completed c cursor before after := by
  induction after generalizing before with
  | nil => exact completed_nil
  | cons p after ih => exact h.completed_cons hps (ih (by simp [hps]))

end Eager

/-- **A chain along which the pathlets lead eagerly is accepted.** -/
theorem accepts_of_eager {cursor : Nat → Nat} (h : Eager c ps cursor) : accepts c ps = true := by
  refine (h.completed (List.nil_append ps).symm).ahead (fun ⟨l, n, hl⟩ ↦ ?_) 0 (Nat.zero_le _)
    fun _ ↦ h.start.symm
  simp at hl

/-- A chain that comes to the probe by way of two input hops with one port. -/
def twice : Chain :=
  ⟨none, [⟨1, .rule, some 0, 5, true⟩, ⟨2, .rule, some 0, 5, true⟩, ⟨3, .source, none, 0, false⟩]⟩

/-- A course that passes the second of the hops, which the search tries after the first. -/
theorem accepts_of_eager_twice :
    Eager twice [.anyHops, .port 5, .atEnd] (min · 2) ∧
      accepts twice [.anyHops, .port 5, .atEnd] = true := by
  have hsecond : twice.At (fun h ↦ h.atInput && h.port == 5) 1 := ⟨_, rfl, rfl⟩
  have heager : Eager twice [.anyHops, .port 5, .atEnd] (min · 2) := by
    refine ⟨⟨rfl, fun n p hget ↦ ?_⟩, fun n hget ↦ ?_, fun before p after hps hroams _ hloose ↦ ?_⟩
    · match n with
      | 0 =>
        obtain rfl := Option.some.inj hget
        exact ⟨by decide, by decide⟩
      | 1 =>
        obtain rfl := Option.some.inj hget
        exact ⟨1, le_rfl, hsecond, rfl⟩
      | 2 =>
        obtain rfl := Option.some.inj hget
        exact ⟨by decide, rfl⟩
      | n + 3 => cases hget
    · match n with
      | 0 => decide
      | 1 | 2 | n + 3 => cases hget
    · match before with
      | [] =>
        obtain ⟨rfl, -⟩ := List.cons.inj hps
        cases hroams
      | [_] =>
        obtain ⟨rfl, -⟩ := List.cons.inj hps
        exact absurd ⟨[], 0, rfl⟩ hloose
      | [_, _] =>
        obtain ⟨-, htail⟩ := List.cons.inj (List.cons.inj hps).2
        obtain ⟨rfl, -⟩ := List.cons.inj htail
        cases hroams
      | _ :: _ :: _ :: _ => simp at hps
  exact ⟨heager, accepts_of_eager heager⟩

/-- **There are courses that the search does not find**: one that passes the second hop by a pathlet
that roams, while the search passes the first one and is then not at the root. -/
theorem not_accepted_of_course :
    (∃ cursor, Course twice 0 [.port 5, .atEnd] cursor ∧ cursor 1 = twice.length - 1) ∧
      accepts twice [.port 5, .atEnd] = false := by
  have hend : Course twice 2 [.atEnd] fun | 0 => 2 | _ + 1 => 2 :=
    (⟨rfl, fun _ _ hget ↦ by simp at hget⟩ : Course twice 2 [] fun _ ↦ 2).cons ⟨le_rfl, rfl⟩
  have hport : Pathlet.Leads twice 0 2 (.port 5) := ⟨1, Nat.zero_le 1, ⟨_, rfl, rfl⟩, rfl⟩
  exact ⟨⟨_, hend.cons hport, rfl⟩, by decide⟩

end Path

end HeaderFlow
