import HeaderFlow.Proofs.Network.Fuel
import HeaderFlow.Proofs.Network.Tracks
import HeaderFlow.Proofs.Network.TwinProbes

/-!
# Dropping flows of twin networks

A flow and its counterpart have come the same way, so a probe at its end is told the same. Dropping
a flow is tracked by dropping its counterpart, **and by nothing if the flow is lost**, since all
that came from it is lost as well.

The way of a flow is read off by going up from child to parent. The parents of counterparts are
counterparts, and a flow that is kept has no lost parent, so both ways have the same nodes and the
same headers (`lineage`). What is computed from them agrees: the chain that a probe looks at, the
port that a table was entered by, and whether a place was visited before.

Going down is different, since a kept flow may have lost children. These are culled from the list of
the first network, so the walk along the children is tracked by a walk along a shorter list. **The
fuel for going down may differ as well**: it is the number of flows in the arena, which is greater
where lost flows are stored, so `follows_dropTree` is about one fuel and `follows_dropSubtree` goes
over to the other one.
-/

namespace HeaderFlow

open Checked (tracks_ok)

variable {α β : Type} {n m : Nat} {T : Comparison n m} {ν : Naming} {net net' : Network}
  {key key' : NodeKey} {h h' : Handle} {f f' : Flow} {o o' : Option Handle}

/-! ### Ways -/

namespace Comparison.Twins

variable {fs fs' : List Flow}

/-- Going up as many steps leads past counterparts. -/
theorem ancestry (hT : T.Twins ν net net') (fuel : Nat) (ho : Option.Rel ν.flow.Kept o o') :
    List.Forall₂ (T.Flows ν) (Network.ancestry net.flows fuel o)
      (Network.ancestry net'.flows fuel o') := by
  induction fuel generalizing o o' with
  | zero => exact .nil
  | succ fuel ih =>
    cases ho with
    | none => exact .nil
    | @some h h' hh =>
      rw [Network.ancestry, Network.ancestry]
      have hrel := hT.flows.kept h h' hh
      generalize net.flows.find? h = l at hrel
      generalize net'.flows.find? h' = l' at hrel
      cases hrel with
      | none => exact .nil
      | some hff => exact .cons hff (ih hff.parent)

/-- **A flow and its counterpart came the same way.** -/
theorem lineage (hT : T.Twins ν net net') (ho : Option.Rel ν.flow.Kept o o') :
    List.Forall₂ (T.Flows ν) (net.lineage o) (net'.lineage o') := by
  obtain ⟨rank, hR⟩ := hT.ranked
  obtain ⟨rank', hR'⟩ := hT.ranked'
  rw [Network.lineage_eq_ancestry hR (Nat.le_max_left _ net'.flows.slots.size),
    Network.lineage_eq_ancestry hR' (Nat.le_max_right net.flows.slots.size _)]
  exact hT.ancestry _ ho

/-- The nodes on both ways are the same. -/
theorem hops (hT : T.Twins ν net net') (hfs : List.Forall₂ (T.Flows ν) fs fs') :
    Checked.Tracks (net.hops fs) (net'.hops fs') fun l l' ↦
      l'.map Hop.anonymous = l.map Hop.anonymous := by
  induction hfs with
  | nil => exact tracks_ok rfl
  | @cons f f' fs fs' hff _ ih =>
    refine (hT.tracks_node hff.node).bind fun k k' hk ↦ ih.bind fun l l' hl ↦ tracks_ok ?_
    simp only [List.map_cons, Hop.anonymous, hk.type_eq, hk.table?_eq, hff.port, hk.inputLayer]
    exact congrArg _ hl

/-- A probe looks at chains that are alike. -/
theorem chainOf (hT : T.Twins ν net net') (hh : ν.flow.Kept h h') :
    Checked.Tracks (net.chainOf h) (net'.chainOf h') (Chain.Alike T.space) := by
  refine (hT.hops (hT.lineage (.some hh))).bind fun l l' hl ↦ tracks_ok ⟨?_, hl⟩
  have hrel := hT.flows.kept h h' hh
  generalize net.flows.find? h = l at hrel
  generalize net'.flows.find? h' = l' at hrel
  cases hrel with
  | none => exact .none
  | some hff => exact hff.processed

/-- Both ways have entered a table by the port, or neither has. -/
theorem enteredBy (hT : T.Twins ν net net') (port : Port) (hfs : List.Forall₂ (T.Flows ν) fs fs') :
    Checked.Tracks (net.enteredBy port fs) (net'.enteredBy port fs') Eq := by
  induction hfs with
  | nil => exact tracks_ok rfl
  | cons hff _ ih =>
    refine (hT.tracks_node hff.node).bind fun k k' hk ↦ ?_
    rw [hk.inputLayer, hff.port]
    split
    · exact tracks_ok rfl
    · exact ih

/-- Both ways have been at a place before, or neither has. -/
theorem revisited (hT : T.Twins ν net net') (place : UInt64)
    (hfs : List.Forall₂ (T.Flows ν) fs fs') :
    Checked.Tracks (net.revisited place fs) (net'.revisited place fs') Eq := by
  induction hfs with
  | nil => exact tracks_ok rfl
  | cons hff _ ih =>
    refine (hT.tracks_node hff.node).bind fun k k' hk ↦ ?_
    have hrule := hk.rule?
    cases hr : k.rule? with
    | none =>
      have hr' := of_optionRel_none (hr ▸ hrule)
      simp only [hr']
      exact tracks_ok rfl
    | some r =>
      obtain ⟨r', hr', -⟩ := of_optionRel_some (hr ▸ hrule)
      simp only [hr', (hk.id_of_rule hr).2, hT.settings.loopDetection]
      split
      · exact tracks_ok rfl
      · exact ih

/-- **A flow at a rule has come back to the same rule as its counterpart.** -/
theorem loopOf (hT : T.Twins ν net net') (hh : ν.flow.Kept h h')
    (hrule : ∀ f k, net.flows.find? h = some f → net.nodeAt? f.node = some k →
      k.rule?.isSome = true) :
    Checked.Tracks (net.loopOf h) (net'.loopOf h') Eq := by
  intro a ha
  obtain ⟨f, hf, ha⟩ := Checked.bind_eq_ok.1 ha
  obtain ⟨f', hf', hff⟩ := hT.flows.of_live hh (Engine.get_eq_ok.1 hf)
  obtain ⟨k, hk, ha⟩ := Checked.bind_eq_ok.1 ha
  obtain ⟨k', hk', hkk⟩ := hT.tracks_node hff.node k hk
  obtain ⟨r, hr⟩ := Option.isSome_iff_exists.1
    (hrule f k (Engine.get_eq_ok.1 hf) (Engine.node_eq_ok.1 hk))
  obtain ⟨b, hb, hab⟩ := hT.revisited _ (hT.lineage hff.parent) a ha
  refine ⟨b, ?_, hab⟩
  rw [Network.loopOf, Engine.get_eq_ok.2 hf', Checked.ok_bind, hk', Checked.ok_bind,
    (hkk.id_of_rule hr).2, hT.settings.loopDetection]
  exact hb

end Comparison.Twins

namespace Engine

/-! ### Telling a probe -/

/-- What is told of a flow is the same in both runs. -/
def Tellings (T : Comparison n m) (ν : Naming) (c c' : Network → Checked FlowChange) : Prop :=
  ∀ net net', T.Twins ν net net' → Checked.Tracks (c net) (c' net') (T.Changes)

/-- It is told alike that a flow has arrived. -/
theorem tellings_arrived (hh : ν.flow.Kept h h') : Tellings T ν (arrived h) (arrived h') :=
  fun _ _ hT ↦ (hT.chainOf hh).map fun _ _ hc ↦ .added hc

/-- It is told alike that a flow has changed. -/
theorem tellings_changed (hh : ν.flow.Kept h h') : Tellings T ν (changed h) (changed h') :=
  fun _ _ hT ↦ (hT.chainOf hh).map fun _ _ hc ↦ .modified hc

/-- It is told alike that a flow is gone. -/
theorem tellings_gone : Tellings T ν gone gone := fun _ _ _ ↦ tracks_ok .deleted

/-- **Probes are told of a flow and of its counterpart.** -/
theorem follows_notify {c c' : Network → Checked FlowChange} (hkey : ν.node.Kept key key')
    (hh : ν.flow.Kept h h') (hc : Tellings T ν c c') :
    Follows T ν (notify key h c) (notify key' h' c') := by
  intro p q habreast
  have hT := habreast.twins
  refine tracksAt_node_bind habreast hkey fun k k' hnode hk ↦ ?_
  have hprobe := hk.probe?
  generalize hr : k.probe? = r at hprobe
  generalize k'.probe? = r' at hprobe
  cases hprobe with
  | none => exact follows_pure p q habreast
  | @some r r' hrr =>
    dsimp only
    rw [Probe.isRunning, Probe.isRunning, hrr.state]
    split
    · exact follows_pure p q habreast
    refine tracksAt_ask_bind (hc _ _ hT) fun d d' _ hd ↦ ?_
    refine tracksAt_ask_bind (hrr.update hT.flows.injective hh hd) ?_
    rintro ⟨s, t⟩ ⟨s', t'⟩ - ⟨hs, ht⟩
    refine (followsAt_setProbe habreast hkey hnode hr hs).bind
      fun ν' _ _ p₁ q₁ hν _ habreast₁ _ ↦ ?_
    refine Tracks.here ?_ habreast₁
    by_cases he : T.exact
    · obtain rfl : t' = t := ht he
      cases t' with
      | none => exact follows_pure
      | some t =>
        rw [hk.id_eq (T.rename_of_exact he), hT.flows.eq_of_kept he hh]
        exact tracks_event_bind fun e e' hevent ↦ follows_report (fun _ ↦ rfl) fun hevents ↦ by
          rw [hevent hevents]
    · refine follows_tells he ?_ ?_
      · cases t
        · exact tells_pure
        · exact tells_event_report _
      · cases t'
        · exact tells_pure
        · exact tells_event_report _

/-- **Probes are told of a lost flow in the first run only.** -/
theorem idle_notify {c : Network → Checked FlowChange} (hh : ν.flow.Lost () h) :
    Idle T ν (notify key h c) := by
  refine idle_of_lost hh fun hinexact p q habreast ↦ ?_
  have hT := habreast.twins
  refine tracksAt_node_left fun k hnode ↦ ?_
  obtain ⟨hkey, ⟨k', hk⟩ | hlost⟩ := hT.node_cases hnode
  swap
  · simp only [hlost.probe?]
    exact follows_pure p q habreast
  cases hr : k.probe? with
  | none => exact follows_pure p q habreast
  | some r =>
    dsimp only
    split
    · exact follows_pure p q habreast
    refine tracksAt_ask_left fun d _ ↦ tracksAt_ask_left ?_
    rintro ⟨s, t⟩ hs
    refine TracksAt.bind_left (idleAt_update habreast ?_) fun ν' _ p' hν _ habreast' _ ↦ ?_
    · refine hT.updateNode_lost (fun _ ↦ rfl) (fun l l' hl hlkey hll ↦ ?_) fun l hlkey hl ↦ ?_
      · -- the node is the one whose probe was asked
        have hsame := Network.nodeAt?_of_mem hT.nodup hl
        rw [hlkey, hnode] at hsame
        obtain rfl := Option.some.inj hsame
        obtain ⟨r', hr', hrr⟩ := of_optionRel_some (hr ▸ hll.probe?)
        exact { hll with
          called := (Node.role_of_probe? hr ▸ hll.called).of_probe
          role := Node.role_of_probe? hr' ▸ .probe (hrr.update_lost hinexact hh hs) }
      · exact absurd (hkey.trans hlkey.symm ▸ hl.key : ν.node.Lost () k.key) hk.key.not_lost
    · split
      · exact idle_tells hinexact (tells_event_report _) _ _ habreast'
      · exact follows_pure _ _ habreast'

/-! ### Dropping -/

/-- A flow without children is lighter. -/
theorem lightens_childless : Lightens fun f ↦ { f with children := [] } :=
  ⟨fun _ ↦ rfl, fun _ ↦ List.nil_subset _⟩

/-- Children are detached from a flow and from its counterpart. -/
theorem follows_detachChildren (hh : ν.flow.Kept h h') (hff : T.Flows ν f f') :
    Follows T ν (detachChildren h f) (detachChildren h' f') := by
  refine Follows.next (follows_updateFlow (v := fun f ↦ { f with children := [] }) hh
    lightens_childless fun g g' hg ↦ { hg with children := .nil }) fun ν' hν ↦
      tracks_network_bind fun net net' hT ↦ ?_
  have hnode := hff.node.grow hν.node
  have hprobe : (net.nodeAt? f.node).any (fun k ↦ k.probe?.isSome) =
      (net'.nodeAt? f'.node).any fun k ↦ k.probe?.isSome :=
    optionRel_any (hT.nodeAt? hnode) fun k k' hk ↦ optionRel_isSome hk.probe?
  dsimp only
  rw [hprobe]
  split
  · exact follows_notify hnode (hh.grow hν.flow) tellings_gone
  · exact follows_pure

/-- Children are detached from a lost flow. -/
theorem idle_detachChildren (hh : ν.flow.Lost () h) : Idle T ν (detachChildren h f) := by
  refine (idle_updateFlow hh lightens_childless fun g hg ↦ { hg with children := by simp }).next
    fun ν' hν ↦ tracks_network_left fun net net' hT ↦ ?_
  dsimp only
  split
  · exact idle_notify (hh.grow hν.flow)
  · exact follows_pure

/-- A flow and its counterpart are taken out of the network. -/
theorem follows_discardFlow (hkey : ν.node.Kept key key') (hh : ν.flow.Kept h h') :
    Follows T ν (discardFlow h key) (discardFlow h' key') := by
  refine tracks_of_twins fun ⟨_, _, hT⟩ ↦ ?_
  refine (follows_update fun _ _ hT ↦ hT.eraseFlow hh).next fun ν' hν ↦ ?_
  refine tracks_of_twins fun ⟨_, _, hT⟩ ↦
    follows_updateNode (hkey.grow hν.node) (fun _ ↦ ⟨rfl, rfl⟩) fun k k' hk ↦ { hk with
      flows := hk.flows.filter fun _ _ hg ↦ hT.flows.injective.decide_ne hg (hh.grow hν.flow) }

/-- A lost flow is taken out of the network. -/
theorem idle_discardFlow (hh : ν.flow.Lost () h) : Idle T ν (discardFlow h key) := by
  refine (idle_update fun _ _ hT ↦ hT.eraseFlow_lost hh).next fun ν' hν ↦ ?_
  have hh := hh.grow hν.flow
  refine idle_updateNode (fun _ ↦ rfl) (fun k k' _ hk ↦ { hk with
    flows := hk.flows.filter_left fun g g' hg ↦ decide_eq_true fun heq ↦ (heq ▸ hg).not_lost hh })
    fun k _ hk ↦ { hk with flows := fun g hg ↦ hk.flows g (List.mem_of_mem_filter hg) }

/-- A flow and all below it are dropped with the same fuel. -/
theorem follows_dropTree (fuel : Nat) (hh : ν.flow.Kept h h') :
    Follows T ν (dropTree fuel h) (dropTree fuel h') := by
  induction fuel generalizing ν h h' with
  | zero => exact follows_pure
  | succ fuel ih =>
    refine tracks_flow?_bind hh fun o o' ho ↦ ?_
    cases ho with
    | none => exact follows_pure
    | @some f f' hff =>
      refine (follows_detachChildren hh hff).next fun ν₁ hν ↦ ?_
      refine Follows.next ?_ fun ν₂ hν' ↦ ?_
      · exact follows_forM_all (P := ν.flow.Kept) hff.children fun ν' c c' hν' hc ↦
          ih (hc.grow (hν.trans hν').flow)
      · exact follows_discardFlow (hff.node.grow (hν.trans hν').node) (hh.grow (hν.trans hν').flow)

/-- A lost flow and all below it are dropped. -/
theorem idle_dropTree (fuel : Nat) (hh : ν.flow.Lost () h) : Idle T ν (dropTree fuel h) := by
  induction fuel generalizing ν h with
  | zero => exact follows_pure
  | succ fuel ih =>
    refine tracks_flow?_left hh fun o ho ↦ ?_
    cases o with
    | none => exact follows_pure
    | some f =>
      refine (idle_detachChildren hh).next fun ν₁ hν ↦ ?_
      refine Idle.next ?_ fun ν₂ hν' ↦ idle_discardFlow (hh.grow (hν.trans hν').flow)
      exact idle_forM fun c hc ν' hν' ↦ ih (((ho f rfl).children c hc).grow (hν.trans hν').flow)

/-- **Dropping a tree is tracked by dropping its counterpart**, although the fuels differ. -/
theorem follows_dropSubtree (hh : ν.flow.Kept h h') :
    Follows T ν (dropSubtree h) (dropSubtree h') := by
  intro p q habreast
  obtain ⟨rank, hR⟩ := habreast.twins.ranked
  obtain ⟨rank', hR'⟩ := habreast.twins.ranked'
  have hleft := dropSubtree_eq_dropTree (h := h) hR
    (Nat.le_max_left _ q.network.flows.slots.size)
  have hright := dropSubtree_eq_dropTree (h := h') hR'
    (Nat.le_max_right p.network.flows.slots.size _)
  intro a p' hrun
  rw [Concludes, hright]
  exact follows_dropTree _ hh p q habreast a p' (hleft ▸ hrun)

/-- A lost flow and all below it are dropped, whatever the fuel. -/
theorem idle_dropSubtree (hh : ν.flow.Lost () h) : Idle T ν (dropSubtree h) :=
  tracks_network_left fun _ _ _ ↦ idle_dropTree _ hh

/-- All below a flow is dropped. -/
theorem follows_dropBelow (hh : ν.flow.Kept h h') : Follows T ν (dropBelow h) (dropBelow h') := by
  refine tracks_flow?_bind hh fun o o' ho ↦ ?_
  cases ho with
  | none => exact follows_pure
  | @some f f' hff =>
    refine (follows_detachChildren hh hff).next fun ν₁ hν ↦ ?_
    exact follows_forM_all (P := ν.flow.Kept) hff.children fun ν' c c' hν' hc ↦
      follows_dropSubtree (hc.grow (hν.trans hν').flow)

theorem idle_dropBelow (hh : ν.flow.Lost () h) : Idle T ν (dropBelow h) := by
  refine tracks_flow?_left hh fun o ho ↦ ?_
  cases o with
  | none => exact follows_pure
  | some f =>
    refine (idle_detachChildren hh).next fun ν₁ hν ↦ ?_
    exact idle_forM fun c hc ν' hν' ↦
      idle_dropSubtree (((ho f rfl).children c hc).grow (hν.trans hν').flow)

/-- A flow with one child less is lighter. -/
theorem lightens_without (c : Handle) :
    Lightens fun f ↦ { f with children := f.children.filter (· ≠ c) } :=
  ⟨fun _ ↦ rfl, fun _ ↦ List.filter_sublist.subset⟩

/-- A flow and its counterpart are forgotten by their parents. -/
theorem follows_unlink (hh : ν.flow.Kept h h') (hff : T.Flows ν f f') :
    Follows T ν (unlink h f) (unlink h' f') := by
  refine tracks_of_twins fun ⟨_, _, hT⟩ ↦ ?_
  have hparent := hff.parent
  rw [unlink, unlink]
  generalize f.parent = o at hparent
  generalize f'.parent = o' at hparent
  cases hparent with
  | none => exact follows_pure
  | some hp =>
    exact follows_updateFlow hp (lightens_without h) fun g g' hg ↦ { hg with
      children := hg.children.filter fun _ _ hc ↦ hT.flows.injective.decide_ne hc hh }

/-- A lost flow is forgotten by its parent, which may be kept. -/
theorem idle_unlink (hf : Comparison.LostFlow ν f) : Idle T ν (unlink h f) := by
  rw [unlink]
  cases hp : f.parent with
  | none => exact follows_pure
  | some p =>
    exact idle_updateFlow (hf.parent p hp) (lightens_without h) fun g hg ↦ { hg with
      children := fun c hc ↦ hg.children c (List.mem_of_mem_filter hc) }

/-- **Removing a flow is tracked by removing its counterpart.** -/
theorem follows_removeFlow (hh : ν.flow.Kept h h') :
    Follows T ν (removeFlow h) (removeFlow h') := by
  refine tracks_flow?_bind hh fun o o' ho ↦ ?_
  cases ho with
  | none => exact follows_pure
  | some hff =>
    exact (follows_unlink hh hff).next fun ν' hν ↦ follows_dropSubtree (hh.grow hν.flow)

/-- A lost flow is removed, and all below it. -/
theorem idle_removeFlow (hh : ν.flow.Lost () h) : Idle T ν (removeFlow h) := by
  refine tracks_flow?_left hh fun o ho ↦ ?_
  cases o with
  | none => exact follows_pure
  | some f =>
    exact (idle_unlink (ho f rfl)).next fun ν' hν ↦ idle_dropSubtree (hh.grow hν.flow)

end Engine

end HeaderFlow
