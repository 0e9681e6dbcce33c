import HeaderFlow.Proofs.Network.Shift

/-!
# Wiring

Building a pipe is `Layout.plug`, and removing one is `Layout.unplug`. Both keep a layout well
formed, and **each wire of the new layout is one of the old, or the one that was built**. From this
follows what building or removing one pipe does to everything that is upheld.

## From layouts to networks

A pipe has two sides, each stored under its handle and listed at its node. The code stores one side
first, with no other side yet, and then the second one with both handles set; in between the layout
is not well formed. So `plug` and `unplug` take both sides at once, `Leads.addPipe` and
`Leads.removePipe` say that this is what the code does, and the states in between are not spoken of
elsewhere.

## What is owed

A new pipe has not been used by the flows at its sender, which owe it (`shift_plug`), and a pipe
that goes must not have been used by any (`shift_unplug`). **That is the order in which changes are
made**: flows are sent after a pipe is built, and removed before it goes. How many wires are
missing, or there against the rules, is admitted beforehand, and each step takes one off
(`Wired.plug`, `Wired.unplug`).
-/

namespace HeaderFlow

variable {L : Layout} {net net' : Network} {F : Arena Flow} {D : Set Debt} {X : Set Handle}
  {E : NodeKey → NodeKey → Link → Prop} {R : NodeKey → NodeKey → Prop} {fwd back h : Handle}
  {w w' : Wire} {a b : Pipe} {n m : Core} {key : NodeKey}

namespace Layout

/-- The wire leads along a link from an exit to an entrance and carries what it should. -/
def Builds (L : Layout) (w : Wire) : Prop :=
  ∃ n m p, L.core? w.sender = some n ∧ L.core? w.receiver = some m ∧
    w.outPort ∈ n.outPorts.toList ∧ w.inPort ∈ m.inPorts.toList ∧
    ⟨w.outPort, w.inPort⟩ ∈ L.links ∧ m.accepts = some p ∧
    ∀ x, w.pattern.Matches x ↔ p.Matches x ∧ n.sends.Matches x

/-! ### Building a pipe -/

/-- The arena with a forward side that has no other side yet. -/
def front (L : Layout) (w : Wire) : Arena Pipe :=
  L.pipes.insert ⟨w.sender, w.outPort, w.pattern, L.pipes.nextHandle⟩

/-- The layout with a pipe more. -/
def plug (L : Layout) (w : Wire) : Layout :=
  { L with
    pipes := ((L.front w).insert ⟨w.receiver, w.inPort, w.pattern, L.pipes.nextHandle⟩).modify
      L.pipes.nextHandle fun side ↦ { side with reverse := (L.front w).nextHandle }
    next := fun key ↦
      if key = w.sender then L.next key ++ [L.pipes.nextHandle] else L.next key
    prev := fun key ↦
      if key = w.receiver then L.prev key ++ [(L.front w).nextHandle] else L.prev key }

/-- The handles of both sides are new and differ. -/
theorem front_fresh (hP : L.pipes.Valid) :
    L.pipes.find? L.pipes.nextHandle = none ∧ L.pipes.find? (L.front w).nextHandle = none ∧
      L.pipes.nextHandle ≠ (L.front w).nextHandle := by
  have hnone : (L.front w).find? (L.front w).nextHandle = none :=
    Arena.find?_nextHandle (Arena.valid_insert hP)
  have hne : L.pipes.nextHandle ≠ (L.front w).nextHandle := by
    intro he
    rw [← he, front, Arena.find?_insert_self hP] at hnone
    exact absurd hnone (by simp)
  have hold : (L.front w).find? (L.front w).nextHandle = L.pipes.find? (L.front w).nextHandle :=
    Arena.find?_insert_of_ne hP hne.symm
  exact ⟨Arena.find?_nextHandle hP, hold.symm.trans hnone, hne⟩

/-- Pipes are still stored properly. -/
theorem valid_plug (hP : L.pipes.Valid) : (L.plug w).pipes.Valid :=
  Arena.valid_modify (Arena.valid_insert (Arena.valid_insert hP))

/-- Both sides are there, and the others are as they were. -/
theorem find?_plug (hP : L.pipes.Valid) : (L.plug w).pipes.find? h =
    if h = L.pipes.nextHandle then some ⟨w.sender, w.outPort, w.pattern, (L.front w).nextHandle⟩
    else if h = (L.front w).nextHandle then
      some ⟨w.receiver, w.inPort, w.pattern, L.pipes.nextHandle⟩
    else L.pipes.find? h := by
  obtain ⟨-, -, hne⟩ := front_fresh (w := w) hP
  have hvalid : (L.front w).Valid := Arena.valid_insert hP
  rw [plug, Arena.find?_modify]
  by_cases hh : h = L.pipes.nextHandle
  · rw [if_pos hh, if_pos hh, Arena.find?_insert_of_ne hvalid hne, front,
      Arena.find?_insert_self hP]
    rfl
  · rw [if_neg hh, if_neg hh, Arena.find?_insert hvalid]
    split
    · rfl
    · rw [front, Arena.find?_insert_of_ne hP hh]

/-- A side that was there is still there. -/
theorem find?_plug_of_some (hP : L.pipes.Valid) (ha : L.pipes.find? h = some a) :
    (L.plug w).pipes.find? h = some a := by
  obtain ⟨hfront, hrear, -⟩ := front_fresh (w := w) hP
  rw [find?_plug hP, if_neg, if_neg, ha]
  · rintro rfl
    exact absurd (hrear.symm.trans ha) (by simp)
  · rintro rfl
    exact absurd (hfront.symm.trans ha) (by simp)

/-- The forward side is listed at the sender. -/
theorem mem_next_plug : h ∈ (L.plug w).next key ↔
    h ∈ L.next key ∨ key = w.sender ∧ h = L.pipes.nextHandle := by
  simp only [plug]
  split <;> simp_all

/-- The backward side is listed at the receiver. -/
theorem mem_prev_plug : h ∈ (L.plug w).prev key ↔
    h ∈ L.prev key ∨ key = w.receiver ∧ h = (L.front w).nextHandle := by
  simp only [plug]
  split <;> simp_all

/-- A pipe that was there still joins its nodes. -/
theorem Joins.plug (hP : L.pipes.Valid) (hj : L.Joins fwd back a b n m) :
    (L.plug w).Joins fwd back a b n m :=
  { hj with
    front := find?_plug_of_some hP hj.front
    rear := find?_plug_of_some hP hj.rear
    next := mem_next_plug.2 (.inl hj.next)
    prev := mem_prev_plug.2 (.inl hj.prev) }

/-- The new pipe. -/
theorem joins_plug (hP : L.pipes.Valid) (hw : L.Builds w) :
    ∃ n m, (L.plug w).Joins L.pipes.nextHandle (L.front w).nextHandle
      ⟨w.sender, w.outPort, w.pattern, (L.front w).nextHandle⟩
      ⟨w.receiver, w.inPort, w.pattern, L.pipes.nextHandle⟩ n m := by
  obtain ⟨n, m, p, hn, hm, hout, hin, hlink, hp, hx⟩ := hw
  obtain ⟨-, -, hne⟩ := front_fresh (w := w) hP
  refine ⟨n, m, ?_, ?_, rfl, rfl, hne, hn, hm, ?_, ?_, hout, hin, hlink, p, hp, hx⟩
  · rw [find?_plug hP, if_pos rfl]
  · rw [find?_plug hP, if_neg hne.symm, if_pos rfl]
  · simp [Layout.plug]
  · simp [Layout.plug]

/-- Only sides that are there are listed. -/
theorem WellFormed.live (hL : L.WellFormed) (hmem : h ∈ L.next key ∨ h ∈ L.prev key) :
    L.pipes.find? h ≠ none := by
  rcases hmem with hmem | hmem
  · obtain ⟨_, _, _, _, _, hj, -⟩ := hL.next key h hmem
    simp [hj.front]
  · obtain ⟨_, _, _, _, _, hj, -⟩ := hL.prev key h hmem
    simp [hj.rear]

/-- **Building a pipe keeps the layout well formed.** -/
theorem WellFormed.plug (hL : L.WellFormed) (hw : L.Builds w) : (L.plug w).WellFormed := by
  obtain ⟨n, m, hnew⟩ := joins_plug hL.pipes hw
  obtain ⟨hfront, hrear, hne⟩ := front_fresh (w := w) hL.pipes
  refine ⟨valid_plug hL.pipes, hL.nodup, hL.fresh, hL.proper, hL.found, hL.mirrored,
    fun key fwd hfwd ↦ ?_, fun key back hback ↦ ?_, fun key ↦ ?_, fun key key' h hh hh' ↦ ?_⟩
  · rcases mem_next_plug.1 hfwd with hfwd | ⟨rfl, rfl⟩
    · obtain ⟨back, a, b, n, m, hj, hkey⟩ := hL.next key fwd hfwd
      exact ⟨back, a, b, n, m, hj.plug hL.pipes, hkey⟩
    · exact ⟨_, _, _, n, m, hnew, rfl⟩
  · rcases mem_prev_plug.1 hback with hback | ⟨rfl, rfl⟩
    · obtain ⟨fwd, a, b, n, m, hj, hkey⟩ := hL.prev key back hback
      exact ⟨fwd, a, b, n, m, hj.plug hL.pipes, hkey⟩
    · exact ⟨_, _, _, n, m, hnew, rfl⟩
  · simp only [Layout.plug]
    split
    · refine List.concat_eq_append ▸ (hL.once key).concat fun hmem ↦ ?_
      exact hL.live (.inl hmem) hfront
    · exact hL.once key
  · rcases mem_next_plug.1 hh with hh | ⟨-, rfl⟩
    · rcases mem_prev_plug.1 hh' with hh' | ⟨-, rfl⟩
      · exact hL.apart key key' h hh hh'
      · exact hL.live (.inl hh) hrear
    · rcases mem_prev_plug.1 hh' with hh' | ⟨-, he⟩
      · exact hL.live (.inr hh') hfront
      · exact hne he

/-- **The wires are those from before and the new one.** -/
theorem runs_plug (hL : L.WellFormed) (hw : L.Builds w) :
    (L.plug w).Runs fwd w' ↔ L.Runs fwd w' ∨ fwd = L.pipes.nextHandle ∧ w' = w := by
  obtain ⟨n, m, hnew⟩ := joins_plug hL.pipes hw
  constructor
  · intro hrun
    by_cases hfwd : fwd = L.pipes.nextHandle
    · subst hfwd
      exact .inr ⟨rfl, hrun.unique hnew.runs⟩
    · obtain ⟨a, b, -, -, hmem, -⟩ := id hrun
      have hold : fwd ∈ L.next a.node :=
        (mem_next_plug.1 hmem).resolve_right fun he ↦ hfwd he.2
      obtain ⟨back, a', b', n', m', hj, -⟩ := hL.next _ fwd hold
      exact .inl (hrun.unique (hj.plug (w := w) hL.pipes).runs ▸ hj.runs)
  · rintro (hrun | ⟨rfl, rfl⟩)
    · obtain ⟨back, a, b, n, m, hj, rfl⟩ := hL.joins hrun
      exact (hj.plug hL.pipes).runs
    · exact hnew.runs

/-- A pipe that was missing is missing no more. -/
theorem Wired.plug (hL : L.WellFormed) (hwired : L.Wired E) (hw : L.Builds w)
    {E' : NodeKey → NodeKey → Link → Prop}
    (hE : ∀ s r l, E s r l → E' s r l ∨ s = w.sender ∧ r = w.receiver ∧ l = ⟨w.outPort, w.inPort⟩) :
    (L.plug w).Wired E' := by
  intro n hn m hm q hq p hp hlink hnot a x ha hax hnx
  by_cases he : E n.key m.key ⟨q, p⟩
  · obtain ⟨hs, hr, hl⟩ := (hE _ _ _ he).resolve_left hnot
    obtain ⟨rfl, rfl⟩ := Link.mk.inj hl
    exact ⟨_, w, (runs_plug hL hw).2 (.inr ⟨rfl, rfl⟩), hs.symm, rfl, hr.symm, rfl⟩
  · obtain ⟨fwd, w', hrun, hends⟩ := hwired n hn m hm q hq p hp hlink he a x ha hax hnx
    exact ⟨fwd, w', (runs_plug hL hw).2 (.inl hrun), hends⟩

/-- **The flows at its sender owe the new pipe.** -/
theorem shift_plug (hL : L.WellFormed) (hF : Forest L F ∅) (hw : L.Builds w)
    (hD : ∀ h f, F.find? h = some f → f.node = w.sender → .pending h L.pipes.nextHandle ∈ D) :
    Shift L (L.plug w) F D where
  keyMask := rfl
  core _ _ _ := rfl
  kept _ _ _ _ _ _ _ hrun := (runs_plug hL hw).2 (.inl hrun)
  runs fwd w' hrun := by
    refine ((runs_plug hL hw).1 hrun).imp_right ?_
    rintro ⟨rfl, rfl⟩
    refine ⟨hD, fun c g hg hparent hpipe ↦ ?_⟩
    obtain ⟨p, hp⟩ := Option.ne_none_iff_exists'.1 hparent
    obtain ⟨_, fwd, w, -, hpipe', hw, -⟩ := hF.wire hg hp
    obtain rfl := Option.some.inj (hpipe.symm.trans hpipe')
    obtain ⟨a, ha, -⟩ := hw.pipe
    exact absurd ((front_fresh (w := w') hL.pipes).1.symm.trans ha) (by simp)
  less _ _ _ _ ht := .inl ht
  more _ _ _ _ ht := .inl ht

/-! ### Removing a pipe -/

/-- The layout without one side of a pipe. -/
def without (L : Layout) (h : Handle) : Layout :=
  { L with
    pipes := L.pipes.erase h
    next := fun key ↦ (L.next key).filter (· ≠ h)
    prev := fun key ↦ (L.prev key).filter (· ≠ h) }

/-- The layout without the two sides of a pipe. -/
def unplug (L : Layout) (h h' : Handle) : Layout := (L.without h).without h'

variable {h' : Handle} {side other : Pipe}

/-- The handles are those of the two sides of one pipe. -/
structure Pair (L : Layout) (h h' : Handle) (side other : Pipe) : Prop where
  this : L.pipes.find? h = some side
  that : L.pipes.find? h' = some other
  reverse : side.reverse = h'
  obverse : other.reverse = h
  distinct : h ≠ h'

/-- The sides of a pipe that joins two nodes are those of one pipe. -/
theorem Joins.pair (hj : L.Joins fwd back a b n m) : L.Pair fwd back a b :=
  ⟨hj.front, hj.rear, hj.reverse, hj.obverse, hj.distinct⟩

/-- Either side can be named first. -/
theorem Pair.symm (hp : L.Pair h h' side other) : L.Pair h' h other side :=
  ⟨hp.that, hp.this, hp.obverse, hp.reverse, hp.distinct.symm⟩

/-- One side of a pipe is removed exactly if the other is. -/
theorem Pair.ne_iff (hp : L.Pair h h' side other) (hj : L.Pair fwd back a b) :
    (fwd ≠ h ∧ fwd ≠ h') ↔ (back ≠ h ∧ back ≠ h') := by
  have hone : ∀ {fwd back : Handle} {a b : Pipe}, L.Pair fwd back a b → back ≠ h → back ≠ h' →
      fwd ≠ h ∧ fwd ≠ h' := by
    intro fwd back a b hj hne hne'
    constructor
    · rintro rfl
      obtain rfl := Option.some.inj (hp.this.symm.trans hj.this)
      exact hne' (hj.reverse.symm.trans hp.reverse)
    · rintro rfl
      obtain rfl := Option.some.inj (hp.that.symm.trans hj.this)
      exact hne (hj.reverse.symm.trans hp.obverse)
  exact ⟨fun ⟨hne, hne'⟩ ↦ hone hj.symm hne hne', fun ⟨hne, hne'⟩ ↦ hone hj hne hne'⟩

/-- The sides of other pipes are left. -/
theorem find?_unplug_of_ne {k : Handle} (hk : k ≠ h ∧ k ≠ h') :
    (L.unplug h h').pipes.find? k = L.pipes.find? k := by
  rw [unplug, without, without, Arena.find?_erase, if_neg hk.2, Arena.find?_erase, if_neg hk.1]

/-- Neither side is listed any more. -/
theorem mem_next_unplug {k : Handle} :
    k ∈ (L.unplug h h').next key ↔ k ∈ L.next key ∧ k ≠ h ∧ k ≠ h' := by
  simp [unplug, without]
  tauto

/-- Neither side is listed any more as leading to a node. -/
theorem mem_prev_unplug {k : Handle} :
    k ∈ (L.unplug h h').prev key ↔ k ∈ L.prev key ∧ k ≠ h ∧ k ≠ h' := by
  simp [unplug, without]
  tauto

/-- Other pipes still join their nodes. -/
theorem Joins.unplug (hp : L.Pair h h' side other) (hj : L.Joins fwd back a b n m)
    (hne : fwd ≠ h ∧ fwd ≠ h') : (L.unplug h h').Joins fwd back a b n m := by
  have hne' := (hp.ne_iff hj.pair).1 hne
  exact { hj with
    front := (find?_unplug_of_ne hne).trans hj.front
    rear := (find?_unplug_of_ne hne').trans hj.rear
    next := mem_next_unplug.2 ⟨hj.next, hne⟩
    prev := mem_prev_unplug.2 ⟨hj.prev, hne'⟩ }

/-- **Removing a pipe keeps the layout well formed.** -/
theorem WellFormed.unplug (hL : L.WellFormed) (hp : L.Pair h h' side other) :
    (L.unplug h h').WellFormed := by
  refine ⟨Arena.valid_erase (Arena.valid_erase hL.pipes), hL.nodup, hL.fresh, hL.proper,
    hL.found, hL.mirrored, fun key fwd hfwd ↦ ?_, fun key back hback ↦ ?_, fun key ↦
      ((hL.once key).filter _).filter _,
    fun key key' k hk hk' ↦
      hL.apart key key' k (mem_next_unplug.1 hk).1 (mem_prev_unplug.1 hk').1⟩
  · obtain ⟨hmem, hne⟩ := mem_next_unplug.1 hfwd
    obtain ⟨back, a, b, n, m, hj, hkey⟩ := hL.next key fwd hmem
    exact ⟨back, a, b, n, m, hj.unplug hp hne, hkey⟩
  · obtain ⟨hmem, hne⟩ := mem_prev_unplug.1 hback
    obtain ⟨fwd, a, b, n, m, hj, hkey⟩ := hL.prev key back hmem
    exact ⟨fwd, a, b, n, m, hj.unplug hp ((hp.ne_iff hj.pair).2 hne), hkey⟩

/-- **The wires are those from before without the one removed.** -/
theorem runs_unplug (hL : L.WellFormed) (hp : L.Pair h h' side other) :
    (L.unplug h h').Runs fwd w ↔ L.Runs fwd w ∧ fwd ≠ h ∧ fwd ≠ h' := by
  constructor
  · intro hrun
    obtain ⟨a, b, -, -, hmem, -⟩ := id hrun
    obtain ⟨hmem, hne⟩ := mem_next_unplug.1 hmem
    obtain ⟨back, a', b', n, m, hj, -⟩ := hL.next _ fwd hmem
    exact ⟨hrun.unique (hj.unplug hp hne).runs ▸ hj.runs, hne⟩
  · rintro ⟨hrun, hne⟩
    obtain ⟨back, a, b, n, m, hj, rfl⟩ := hL.joins hrun
    exact (hj.unplug hp hne).runs

/-- A pipe may go where it is admitted that one is missing. -/
theorem Wired.unplug (hL : L.WellFormed) (hwired : L.Wired E) (hp : L.Pair h h' side other)
    (hE : ∀ fwd w, L.Runs fwd w → fwd = h ∨ fwd = h' →
      E w.sender w.receiver ⟨w.outPort, w.inPort⟩) : (L.unplug h h').Wired E := by
  intro n hn m hm q hq p hp' hlink hnot a x ha hax hnx
  obtain ⟨fwd, w, hrun, hends⟩ := hwired n hn m hm q hq p hp' hlink hnot a x ha hax hnx
  have hstays : ¬ (fwd = h ∨ fwd = h') := by
    intro he
    obtain ⟨hs, ho, hr, hi⟩ := hends
    exact hnot (hs ▸ ho ▸ hr ▸ hi ▸ hE fwd w hrun he)
  exact ⟨fwd, w, (runs_unplug hL hp).2 ⟨hrun, not_or.1 hstays⟩, hends⟩

/-- Nothing is owed if no flow came by the pipe. -/
theorem shift_unplug (hL : L.WellFormed) (hp : L.Pair h h' side other)
    (hfree : ∀ c g fwd w, F.find? c = some g → g.parent ≠ none → g.pipe = some fwd → L.Runs fwd w →
      fwd ≠ h ∧ fwd ≠ h') : Shift L (L.unplug h h') F D where
  keyMask := rfl
  core _ _ _ := rfl
  kept c g fwd w hg hparent hpipe hrun :=
    (runs_unplug hL hp).2 ⟨hrun, hfree c g fwd w hg hparent hpipe hrun⟩
  runs _ _ hrun := .inl ((runs_unplug hL hp).1 hrun).1
  less _ _ _ _ ht := .inl ht
  more _ _ _ _ ht := .inl ht

end Layout

namespace Engine

/-! ### One pipe -/

/-- A node of the layout is one of the network. -/
theorem exists_nodeAt? (hn : net.layout.core? key = some n) :
    ∃ n', net.nodeAt? key = some n' ∧ n'.core = n := by
  rwa [Layout.core?_layout, Option.map_eq_some_iff] at hn

/-- A list at one node is changed. -/
theorem tied_change {list : Node → List Handle} {k : Node → Node} {c : List Handle → List Handle}
    {n : Node} (hn : net.nodeAt? key = some n) (hk : ∀ n, (k n).key = n.key)
    (hlist : list (k n) = c (list n)) :
    (withNode net key k).tied list = fun key' ↦
      if key' = key then c (net.tied list key') else net.tied list key' := by
  funext key'
  rw [tied_withNode fun n _ hkey ↦ (hk n).trans hkey]
  split
  · rename_i hkey
    rw [hkey, Network.tied, hn]
    exact hlist
  · rfl

/-- A change of the pipes that a node lists. -/
theorem layout_withNode_pipes {k : Node → Node} (c d : List Handle → List Handle)
    (hn : net.layout.core? key = some n)
    (hk : ∀ n, k n = { n with next := c n.next, prev := d n.prev }) :
    (withNode net key k).layout = { net.layout with
      next := fun key' ↦ if key' = key then c (net.layout.next key') else net.layout.next key'
      prev := fun key' ↦ if key' = key then d (net.layout.prev key')
        else net.layout.prev key' } := by
  obtain ⟨n', hn', -⟩ := exists_nodeAt? hn
  rw [layout_withNode_eq fun n _ _ ↦ hk n ▸ rfl,
    tied_change (c := c) hn' (fun n ↦ hk n ▸ rfl) (hk n' ▸ rfl),
    tied_change (c := d) hn' (fun n ↦ hk n ▸ rfl) (hk n' ▸ rfl),
    tied_withNode_of_eq fun n _ hkey ↦ hk n ▸ ⟨hkey, rfl⟩,
    tied_withNode_of_eq fun n _ hkey ↦ hk n ▸ ⟨hkey, rfl⟩]
  rfl

/-- One more forward side is listed. -/
theorem layout_appendNext (hn : net.layout.core? key = some n) :
    (withNode net key fun n ↦ { n with next := n.next ++ [h] }).layout = { net.layout with
      next := fun key' ↦ if key' = key then net.layout.next key' ++ [h]
        else net.layout.next key' } := by
  refine (layout_withNode_pipes (· ++ [h]) id hn (by intros; rfl)).trans ?_
  simp only [id_eq, ite_self]

/-- One more backward side is listed. -/
theorem layout_appendPrev (hn : net.layout.core? key = some n) :
    (withNode net key fun n ↦ { n with prev := n.prev ++ [h] }).layout = { net.layout with
      prev := fun key' ↦ if key' = key then net.layout.prev key' ++ [h]
        else net.layout.prev key' } := by
  refine (layout_withNode_pipes id (· ++ [h]) hn (by intros; rfl)).trans ?_
  simp only [id_eq, ite_self]

/-- **Building a pipe** changes the layout and nothing else. -/
theorem Leads.addPipe (hl : Leads (addPipe w) net fwd net') (hw : net.layout.Builds w) :
    fwd = net.pipes.nextHandle ∧ net'.layout = net.layout.plug w ∧ net'.flows = net.flows ∧
      net'.roster = net.roster := by
  obtain ⟨n, m, p, hn, hm, -⟩ := hw
  simp only [Engine.addPipe, leads_network_bind, leads_update_bind, leads_alterNode_bind] at hl
  obtain ⟨-, -, hl⟩ := hl
  obtain ⟨hfwd, hnet⟩ := leads_pure.1 hl
  have hnet' : net' = withNode
      (withNode { net with pipes := (net.layout.plug w).pipes } w.sender
        fun n ↦ { n with next := n.next ++ [net.pipes.nextHandle] }) w.receiver
      fun n ↦ { n with prev := n.prev ++ [(net.layout.front w).nextHandle] } := hnet
  have h₁ := @layout_appendNext { net with pipes := (net.layout.plug w).pipes }
    net.pipes.nextHandle n w.sender hn
  refine ⟨hfwd, ?_, by rw [hnet'], ?_⟩
  · rw [hnet', layout_appendPrev (n := m) (by rw [Layout.core?, h₁]; exact hm), h₁]
    rfl
  · rw [hnet']
    exact (tied_withNode_of_eq (by intro n _ hkey; exact ⟨hkey, rfl⟩)).trans
      (tied_withNode_of_eq (by intro n _ hkey; exact ⟨hkey, rfl⟩))

/-- **Building a pipe upholds everything**; the flows at its sender owe it. -/
theorem upheld_addPipe {C : Set Debt} {S : NodeKey → NodeKey → Link → Prop}
    (hl : Leads (Engine.addPipe w) net fwd net') (hU : Upheld net D X E R)
    (hw : net.layout.Builds w) (hD : D ⊆ C)
    (hE : ∀ s r l, E s r l → S s r l ∨ s = w.sender ∧ r = w.receiver ∧ l = ⟨w.outPort, w.inPort⟩)
    (howed : ∀ h f, net.flows.find? h = some f → f.node = w.sender → .pending h fwd ∈ C) :
    Upheld net' C X S R := by
  obtain ⟨rfl, hlayout, hflows, hroster⟩ := hl.addPipe hw
  have hshift : Shift net.layout net'.layout net.flows C :=
    hlayout ▸ Layout.shift_plug hU.inv.layout hU.inv.forest hw howed
  refine ⟨hU.inv.shift hshift hD (hlayout ▸ hU.inv.layout.plug hw) hflows hroster, ?_, ?_, ?_⟩
  · rw [hlayout]
    exact hU.ordered.congr rfl rfl rfl rfl
  · rw [hlayout]
    exact hU.wired.plug hU.inv.layout hw hE
  · rw [hlayout]
    exact hU.ranked.congr rfl rfl rfl

/-! ### Removing one pipe -/

/-- A side is listed at its own node only. -/
theorem node_of_listed (hL : L.WellFormed) (ha : L.pipes.find? h = some a)
    (hmem : h ∈ L.next key ∨ h ∈ L.prev key) : key = a.node := by
  rcases hmem with hmem | hmem
  · obtain ⟨back, a', b, n, m, hj, rfl⟩ := hL.next key h hmem
    exact congrArg Pipe.node (Option.some.inj (hj.front.symm.trans ha))
  · obtain ⟨fwd, a', b, n, m, hj, rfl⟩ := hL.prev key h hmem
    exact congrArg Pipe.node (Option.some.inj (hj.rear.symm.trans ha))

/-- Filtering a list in which the handle is not is no change. -/
theorem ite_filter {c : Prop} [Decidable c] {l : List Handle} (hc : h ∈ l → c) :
    (if c then l.filter (· ≠ h) else l) = l.filter (· ≠ h) := by
  split
  · rfl
  · rename_i hnot
    refine (List.filter_eq_self.2 fun k hk ↦ ?_).symm
    simp only [ne_eq, decide_eq_true_eq]
    rintro rfl
    exact hnot (hc hk)

/-- **Removing one side of a pipe** changes the layout and nothing else. -/
theorem Leads.removeSide (hl : Leads (removeSide h a) net () net')
    (hn : net.layout.core? a.node = some n)
    (honly : ∀ key, h ∈ net.layout.next key ∨ h ∈ net.layout.prev key → key = a.node) :
    net'.layout = net.layout.without h ∧ net'.flows = net.flows ∧
      net'.roster = net.roster := by
  rw [Engine.removeSide, leads_update_bind, leads_updateNode] at hl
  subst hl
  refine ⟨?_, rfl, tied_withNode_of_eq (by intro n _ hkey; exact ⟨hkey, rfl⟩)⟩
  refine (layout_withNode_pipes (fun l ↦ l.filter (· ≠ h)) (fun l ↦ l.filter (· ≠ h))
    (show Layout.core? { net with pipes := net.pipes.erase h }.layout a.node = some n from hn)
    (by intros; rfl)).trans ?_
  have hnext : ∀ key, (if key = a.node then (net.layout.next key).filter (· ≠ h)
      else net.layout.next key) = (net.layout.next key).filter (· ≠ h) := fun key ↦
    ite_filter fun hmem ↦ honly key (.inl hmem)
  have hprev : ∀ key, (if key = a.node then (net.layout.prev key).filter (· ≠ h)
      else net.layout.prev key) = (net.layout.prev key).filter (· ≠ h) := fun key ↦
    ite_filter fun hmem ↦ honly key (.inr hmem)
  rw [Layout.without, ← funext hnext, ← funext hprev]
  rfl

variable {h' : Handle} {side other : Pipe}

/-- **Removing a pipe** changes the layout and nothing else. -/
theorem Leads.removePipe (hl : Leads (removePipe h) net () net') (hL : net.layout.WellFormed)
    (hp : net.layout.Pair h h' side other) (hs : net.layout.core? side.node = some n)
    (ho : net.layout.core? other.node = some m) :
    net'.layout = net.layout.unplug h h' ∧ net'.flows = net.flows ∧
      net'.roster = net.roster := by
  rw [Engine.removePipe, leads_pipe?_bind, show net.pipes.find? h = some side from hp.this] at hl
  obtain ⟨⟨⟩, net₁, hone, hrest⟩ := hl.bind
  obtain ⟨hlayout, hflows, hroster⟩ := hone.removeSide hs fun key ↦ node_of_listed hL hp.this
  have hthat : net₁.pipes.find? h' = some other := by
    have hpipes : net₁.pipes = net.pipes.erase h := congrArg Layout.pipes hlayout
    rw [hpipes, Arena.find?_erase, if_neg hp.distinct.symm]
    exact hp.that
  rw [leads_pipe?_bind, hp.reverse, hthat] at hrest
  obtain ⟨hlayout', hflows', hroster'⟩ := hrest.removeSide (n := m)
    (by rw [Layout.core?, hlayout]; exact ho) fun key hmem ↦ node_of_listed hL hp.that (by
      rw [hlayout] at hmem
      exact hmem.imp List.mem_of_mem_filter List.mem_of_mem_filter)
  refine ⟨?_, hflows'.trans hflows, hroster'.trans hroster⟩
  rw [hlayout', hlayout]
  rfl

/-- **Removing a pipe that no flow came by upholds everything**, where it may be missing. -/
theorem upheld_removePipe (hl : Leads (Engine.removePipe h) net () net') (hU : Upheld net D X E R)
    (hj : net.layout.Joins fwd back a b n m) (hh : h = fwd ∨ h = back)
    (hfree : ∀ c g, net.flows.find? c = some g → g.parent ≠ none → g.pipe ≠ some fwd)
    (hE : E a.node b.node ⟨a.port, b.port⟩) :
    Upheld net' D X E R ∧ net'.flows = net.flows ∧
      ∃ h', (h = fwd ∧ h' = back ∨ h = back ∧ h' = fwd) ∧ net'.layout = net.layout.unplug h h' := by
  obtain ⟨h', side, other, n', m', hp, hs, ho, hsides⟩ : ∃ h' side other n' m',
      net.layout.Pair h h' side other ∧ net.layout.core? side.node = some n' ∧
      net.layout.core? other.node = some m' ∧ (h = fwd ∧ h' = back ∨ h = back ∧ h' = fwd) := by
    rcases hh with rfl | rfl
    · exact ⟨back, a, b, n, m, hj.pair, hj.sender, hj.receiver, .inl ⟨rfl, rfl⟩⟩
    · exact ⟨fwd, b, a, m, n, hj.pair.symm, hj.receiver, hj.sender, .inr ⟨rfl, rfl⟩⟩
  obtain ⟨hlayout, hflows, hroster⟩ := hl.removePipe hU.inv.layout hp hs ho
  have honly : ∀ k w, net.layout.Runs k w → k = h ∨ k = h' → k = fwd := by
    intro k w hw hk
    have hne : k ≠ back := fun he ↦ hj.not_runs hU.inv.layout (he ▸ hw)
    grind
  have hshift : Shift net.layout net'.layout net.flows D := by
    rw [hlayout]
    refine Layout.shift_unplug hU.inv.layout hp fun c g k w hg hparent hpipe hw ↦
      not_or.1 fun hk ↦ ?_
    exact hfree c g hg hparent (honly k w hw hk ▸ hpipe)
  refine ⟨⟨hU.inv.shift hshift (fun _ he ↦ he) (hlayout ▸ hU.inv.layout.unplug hp) hflows hroster,
    ?_, ?_, ?_⟩, hflows, h', hsides, hlayout⟩
  · rw [hlayout]
    exact hU.ordered.congr rfl rfl rfl rfl
  · rw [hlayout]
    refine hU.wired.unplug hU.inv.layout hp fun k w hw hk ↦ ?_
    obtain rfl := honly k w hw hk
    obtain rfl := hw.unique hj.runs
    exact hE
  · rw [hlayout]
    exact hU.ranked.congr rfl rfl rfl

end Engine

end HeaderFlow
