import HeaderFlow.Proofs.Network.SafeRefresh

/-!
# Wiring is safe

Pipes are built between nodes that are there and removed from whatever lists them. The two loops
that need care walk along lists that were read off before the first step: the pipes of a node while
they are cut, of which **each is on the list only once**, and the flows that go with them.

A firm network need not have all the pipes and influences that it should have. It upholds the
invariant of changes with everything excepted, so what changes are known to uphold can be used
(`Firm.upheld`, `Upheld.firm`).

Connecting along a link sends flows as soon as a pipe is there, before the next pipe is built. So
the loop is over networks that keep to the plan of the first (`Abides`): nodes and links are the
same, and that is all that the next step looks at.
-/

namespace HeaderFlow

open Checked (Gives gives_ok)

variable {net net' : Network} {n : Nat} {D : Set Debt} {h fwd : Handle} {f : Flow} {key : NodeKey}
  {m s r : Node} {w : Wire} {side : Pipe} {l : Link} {E : NodeKey → NodeKey → Link → Prop}
  {R : NodeKey → NodeKey → Prop}

/-- A firm network upholds the invariant with every exception. -/
theorem Network.Firm.upheld (hfirm : net.Firm) (hE : ∀ s r l, E s r l) (hR : ∀ m k, R m k) :
    Upheld net Set.univ ∅ E R :=
  ⟨hfirm.inv, hfirm.ordered, fun _ _ _ _ _ _ _ _ _ hnot ↦ absurd (hE _ _ _) hnot,
    fun _ _ _ _ _ _ _ _ _ _ _ _ hnot ↦ absurd (hR _ _) hnot⟩

/-- Every debt is allowed, and everything may be missing. -/
theorem Network.Firm.lax (hfirm : net.Firm) :
    Upheld net Set.univ ∅ (fun _ _ _ ↦ True) fun _ _ ↦ True :=
  hfirm.upheld (fun _ _ _ ↦ trivial) fun _ _ ↦ trivial

/-- Whatever is excepted, the network is firm. -/
theorem Upheld.firm (hU : Upheld net D ∅ E R) : net.Firm :=
  ⟨hU.inv.mono fun _ _ ↦ trivial, hU.ordered⟩

namespace Engine

/-! ### Pipes -/

/-- A node stays if a node is changed. -/
theorem live_withNode {k : Node → Node} {key' : NodeKey} (key : NodeKey)
    (hk : ∀ m, (k m).key = m.key) (hm : net.nodeAt? key' = some m) :
    ∃ m', (withNode net key k).nodeAt? key' = some m' := by
  rw [nodeAt?_withNode fun m _ hkey ↦ (hk m).trans hkey, hm]
  exact ⟨_, rfl⟩

/-- **Building a pipe is safe** if its ends are there. -/
theorem safe_addPipe (hvalid : net.pipes.Valid) (hw : net.layout.Builds w)
    (hbytes : w.pattern.bytes = n) : Safe n (addPipe w) net := by
  obtain ⟨s, r, -, hs, hr, -⟩ := hw
  obtain ⟨s, hs, -⟩ := exists_nodeAt? hs
  obtain ⟨r, hr, -⟩ := exists_nodeAt? hr
  refine safe_of_fit ?_
  rintro rfl -
  refine safe_network_bind (fun _ _ _ ↦ rfl) ?_
  refine safe_bind (safe_updateRest (fun _ ↦ rfl) rfl rfl (fun hfit ↦ hfit.nodes)
    (fun hfit h p hp ↦ ?_) fun hfit ↦ hfit.influences) fun _ mid hl ↦ ?_
  · rcases Arena.of_find?_insert hvalid hp with ⟨-, rfl⟩ | ⟨-, hp⟩
    · exact hbytes
    · exact hfit.pipes h p hp
  obtain rfl := leads_update.1 hl
  refine safe_network_bind (fun _ _ _ ↦ rfl) ?_
  refine safe_bind (safe_updateRest (fun _ ↦ rfl) rfl rfl (fun hfit ↦ hfit.nodes)
    (fun hfit h p hp ↦ ?_) fun hfit ↦ hfit.influences) fun _ mid hl ↦ ?_
  · have hold : ∀ h p, (Arena.insert (net.pipes.insert ⟨w.sender, w.outPort, w.pattern,
        net.pipes.nextHandle⟩) ⟨w.receiver, w.inPort, w.pattern, net.pipes.nextHandle⟩).find? h =
          some p → p.pattern.bytes = net.bytes := by
      intro h p hp
      rw [Arena.find?_insert (Arena.valid_insert hvalid)] at hp
      split at hp
      · obtain rfl := Option.some.inj hp
        exact hbytes
      · exact hfit.pipes h p hp
    rw [Arena.find?_modify] at hp
    split at hp
    · obtain ⟨q, hq, rfl⟩ := Option.map_eq_some_iff.1 hp
      exact hold _ q hq
    · exact hold h p hp
  obtain rfl := leads_update.1 hl
  refine safe_bind (safe_alterNode hs (safe_updateNode_of_eq fun _ ↦ ⟨rfl, rfl, rfl⟩))
    fun _ mid hl ↦ ?_
  obtain ⟨-, rfl⟩ := leads_alterNode.1 hl
  obtain ⟨r', hr'⟩ := live_withNode w.sender
    (k := fun n ↦ { n with next := n.next ++ [net.pipes.nextHandle] }) (fun _ ↦ rfl) hr
  exact safe_bind (safe_alterNode hr' (safe_updateNode_of_eq fun _ ↦ ⟨rfl, rfl, rfl⟩))
    fun _ _ _ ↦ safe_pure

theorem safe_removeSide : Safe n (removeSide h side) net :=
  safe_bind (safe_updateRest (fun _ ↦ rfl) rfl rfl (fun hfit ↦ hfit.nodes)
    (fun hfit g p hp ↦ hfit.pipes g p ((Arena.lacks_erase g p).1 hp).2) fun hfit ↦ hfit.influences)
    fun _ _ _ ↦ safe_updateNode_of_eq fun _ ↦ ⟨rfl, rfl, rfl⟩

/-- Removing a pipe is safe even if it is gone. -/
theorem safe_removePipe : Safe n (removePipe h) net := by
  refine safe_pipe?_bind ?_
  cases net.pipes.find? h with
  | none => exact safe_pure
  | some side =>
    refine safe_bind safe_removeSide fun _ mid _ ↦ safe_pipe?_bind ?_
    cases mid.pipes.find? side.reverse with
    | none => exact safe_pure
    | some other => exact safe_removeSide

/-- **Connecting a node is safe.** -/
theorem safe_connect (hfirm : net.Firm) (hm : net.nodeAt? key = some m) :
    Safe n (connect key) net := by
  refine safe_of_fit ?_
  rintro rfl hfit
  obtain ⟨hmem, -⟩ := nodeAt?_eq_some hm
  refine safe_node_bind hm (safe_ask_bind (fun _ _ _ ↦ rfl)
    (Network.gives_wiresOf hfirm.inv.layout (hfit.nodes m hmem) hfit.nodes) fun ws hws hbytes ↦ ?_)
  refine safe_forM (I := fun _ mid ↦ mid.layout.WellFormed ∧ SamePlan net.layout mid.layout)
    ⟨hfirm.inv.layout, .refl _⟩ ?_
  rintro w - mid hw ⟨hmid, hplan⟩
  have hbuild := hplan.builds (Network.builds_of_wiresOf hws hmem hfirm.inv.layout hw).1
  refine ⟨safe_discard (safe_addPipe hmid.pipes hbuild (hbytes w hw)), fun mid' hl ↦ ?_⟩
  obtain ⟨fwd, hadd⟩ := hl.discard
  obtain ⟨-, hlayout, -⟩ := hadd.addPipe hbuild
  rw [hlayout]
  exact ⟨hmid.plug hbuild, hplan.trans (.plug _ w)⟩

/-- Disconnecting a node is safe if it is there. -/
theorem safe_disconnect (hm : net.nodeAt? key = some m) : Safe n (disconnect key) net :=
  safe_node_bind hm (safe_forM (I := fun _ _ ↦ True) trivial fun _ _ _ _ _ ↦
    ⟨safe_removePipe, fun _ _ ↦ trivial⟩)

/-! ### Links -/

/-- A node that was read off earlier is still there. -/
theorem node_of_plan (hplan : SamePlan net.layout net'.layout)
    (hnodup : (net.layout.cores.map Core.key).Nodup) (hs : s ∈ net.nodes) :
    ∃ s', net'.nodeAt? s.key = some s' := by
  obtain ⟨s', hs', -⟩ := exists_nodeAt? (hplan.core?.trans (core?_core hnodup hs))
  exact ⟨s', hs'⟩

/-- **Joining two nodes along a link is safe.** -/
theorem safe_joinAlong {s' r' : Node} (hfirm : net.Firm) (hs : s.core ∈ net.layout.cores)
    (hr : r.core ∈ net.layout.cores) (hout : l.source ∈ s.outPorts.toList)
    (hin : l.target ∈ r.inPorts.toList) (hlink : l ∈ net.layout.links)
    (hs' : net.nodeAt? s.key = some s') (hr' : net.nodeAt? r.key = some r') :
    Safe n (joinAlong l s.key r.key) net := by
  refine safe_of_fit ?_
  rintro rfl hfit
  refine safe_node_bind hs' (safe_node_bind hr' ?_)
  have hsfit := hfit.nodes s' (nodeAt?_eq_some hs').1
  have hrfit := hfit.nodes r' (nodeAt?_eq_some hr').1
  refine safe_check_bind (hrfit.overlap hsfit.sends) fun o ho hbytes ↦ ?_
  cases o with
  | none => exact safe_pure
  | some p =>
    have hbuild := builds_along hfirm.inv.layout.nodup hs hr hout hin hlink hs' hr' ho
    refine safe_bind (safe_addPipe hfirm.inv.layout.pipes hbuild (hbytes p rfl))
      fun fwd mid hadd ↦ ?_
    have hU := upheld_addPipe (C := Set.univ) (S := fun _ _ _ ↦ True) hadd
      hfirm.lax hbuild (fun _ _ ↦ trivial) (fun _ _ _ _ ↦ .inl trivial)
      fun _ _ _ _ ↦ trivial
    obtain ⟨rfl, hlayout, -, -⟩ := hadd.addPipe hbuild
    have hrun : mid.layout.Runs net.pipes.nextHandle ⟨s.key, l.source, r.key, l.target, p⟩ := by
      rw [hlayout, Layout.runs_plug hfirm.inv.layout hbuild]
      exact .inr ⟨rfl, rfl⟩
    exact safe_sendFlows hU.firm hrun rfl

/-- The network is firm, on the plan of the one before. -/
structure Abides (net mid : Network) : Prop where
  firm : mid.Firm
  plan : SamePlan net.layout mid.layout

/-- Joining one pair of nodes is safe and keeps to the plan. -/
theorem Abides.joinAlong {mid : Network} (hA : Abides net mid)
    (hnodup : (net.layout.cores.map Core.key).Nodup) (hs : s ∈ net.sendersAt l.source)
    (hr : r ∈ net.receiversAt l.target) (hlink : l ∈ net.links) :
    Safe n (joinAlong l s.key r.key) mid ∧
      ∀ mid', Leads (joinAlong l s.key r.key) mid () mid' → Abides net mid' := by
  obtain ⟨hs, hout⟩ := Network.mem_sendersAt.1 hs
  obtain ⟨hr, hin⟩ := Network.mem_receiversAt.1 hr
  obtain ⟨s', hs'⟩ := node_of_plan hA.plan hnodup hs
  obtain ⟨r', hr'⟩ := node_of_plan hA.plan hnodup hr
  have hscore : s.core ∈ mid.layout.cores := hA.plan.cores ▸ List.mem_map_of_mem hs
  have hrcore : r.core ∈ mid.layout.cores := hA.plan.cores ▸ List.mem_map_of_mem hr
  have hlink : l ∈ mid.layout.links := hA.plan.links ▸ hlink
  refine ⟨safe_joinAlong hA.firm hscore hrcore hout hin hlink hs' hr', fun mid' hl ↦ ?_⟩
  obtain ⟨hU, hplan, -⟩ := upheld_joinAlong (E := fun _ _ _ ↦ True) (P := fun _ _ ↦ True)
    (K := fun _ ↦ True) hl
    (hA.firm.upheld (R := fun _ _ ↦ True) (fun _ _ _ ↦ .inl trivial) fun _ _ ↦ trivial)
      hscore hrcore
    hout hin hlink
  exact ⟨hU.firm, hA.plan.trans hplan⟩

/-- **Connecting along a new link is safe.** -/
theorem safe_connectLink (hfirm : net.Firm) (hlink : l ∈ net.links) :
    Safe n (connectLink l) net := by
  have hnodup := hfirm.inv.layout.nodup
  refine safe_network_bind (fun _ _ _ ↦ rfl) ?_
  simp only [Network.forM_sendersAt hfirm.inv.layout, Network.forM_receiversAt hfirm.inv.layout]
  refine safe_forM (I := fun _ ↦ Abides net) ⟨hfirm, .refl _⟩
    fun s _ mid hs hA ↦ ⟨?_, fun mid' hl ↦ ?_⟩
  · exact safe_forM (I := fun _ ↦ Abides net) hA fun r _ mid hr hA ↦
      hA.joinAlong hnodup hs hr hlink
  · exact hl.forM (I := fun _ ↦ Abides net) hA fun r _ mid mid' hr hA ↦
      (hA.joinAlong (n := n) hnodup hs hr hlink).2 mid'

/-! ### Removing flows -/

/-- Removing a flow keeps layout and ways. -/
theorem Leads.stable_removeFlow (hl : Leads (Engine.removeFlow h) net () net')
    (hI : Inv net ∅ Set.univ) :
    Inv net' ∅ Set.univ ∧ net'.layout = net.layout ∧ Stable net.flows net'.flows := by
  cases hf : net.flows.find? h with
  | none =>
    obtain rfl := removeFlow_dead hf hl
    exact ⟨hI, rfl, .refl _⟩
  | some f =>
    obtain ⟨d, hd⟩ := hI.depth hf
    obtain ⟨hI', hframe, -⟩ := inv_removeFlow hl hI hf hd
    exact ⟨hI'.mono fun _ _ ↦ trivial, hframe.layout, hframe.stable⟩

/-- **Removing flows from a list is safe**, some of which may be passed over. -/
theorem safe_removeEach {hs : List Handle} {body : Handle → Engine Unit} (hI : Inv net ∅ Set.univ)
    (hknown : ∀ h ∈ hs, net.flows.Knows h)
    (hbody : ∀ h mid, mid.flows.Knows h → (Safe n (removeFlow h) mid → Safe n (body h) mid) ∧
      ∀ mid', Leads (body h) mid () mid' → Leads (removeFlow h) mid () mid' ∨ mid' = mid) :
    Safe n (hs.forM body) net := by
  refine safe_forM (I := fun _ mid ↦ Inv mid ∅ Set.univ ∧ Stable net.flows mid.flows)
    ⟨hI, .refl _⟩ ?_
  rintro h - mid hh ⟨hmid, hstable⟩
  have hknows := knows_of_stable hstable (hknown h hh)
  obtain ⟨hsafe, hleads⟩ := hbody h mid hknows
  refine ⟨hsafe (safe_removeFlow hmid hknows), fun mid' hl ↦ ?_⟩
  rcases hleads mid' hl with hl | rfl
  · obtain ⟨hI', -, hstable'⟩ := hl.stable_removeFlow hmid
    exact ⟨hI', hstable.trans hstable'⟩
  · exact ⟨hmid, hstable⟩

/-- Removing the flows of a node is safe. -/
theorem safe_removeFlows (hfirm : net.Firm) (hm : net.nodeAt? key = some m) :
    Safe n (removeFlows key) net := by
  refine safe_node_bind hm (safe_removeEach hfirm.inv (fun h hh ↦ ?_) fun h mid _ ↦
    ⟨fun hsafe ↦ hsafe, fun _ hl ↦ .inl hl⟩)
  exact ((at_of_mem_flows hfirm.inv hm).1 h hh).knows

/-- **Cutting a pipe is safe** if it is one of its node. -/
theorem safe_cutPipe (hfirm : net.Firm) (hfwd : fwd ∈ net.layout.next key) :
    Safe n (cutPipe l fwd) net := by
  obtain ⟨back, a, b, s, r, hj, rfl⟩ := hfirm.inv.layout.next key fwd hfwd
  refine safe_pipe_bind hj.front ?_
  split
  · exact safe_pure
  refine safe_pipe_bind (hj.reverse ▸ hj.rear) ?_
  split
  · exact safe_pure
  obtain ⟨m, hm, -⟩ := exists_nodeAt? hj.receiver
  refine safe_node_bind hm ?_
  refine safe_bind (safe_removeEach hfirm.inv (fun h hh ↦ ?_) fun h mid hknows ↦ ⟨fun hsafe ↦ ?_,
    fun mid' hl ↦ ?_⟩) fun _ _ _ ↦ safe_removePipe
  · exact ((at_of_mem_flows hfirm.inv hm).1 h hh).knows
  · refine safe_flow?_bind hknows ?_
    split
    · exact hsafe
    · exact safe_pure
  · rw [leads_flow?_bind] at hl
    rcases hl.ite with ⟨-, hl⟩ | ⟨-, hl⟩
    · exact .inl hl
    · exact .inr (leads_pure.1 hl).2

/-- The pipes that are still to come are among those of one node. -/
structure AbidesAt (net : Network) (key : NodeKey) (fs : List Handle) (mid : Network) : Prop
    extends Abides net mid where
  nodup : fs.Nodup
  listed : ∀ fwd ∈ fs, fwd ∈ mid.layout.next key

theorem Abides.at {mid : Network} {m : Node} (hA : Abides net mid) (hm : mid.nodeAt? key = some m) :
    AbidesAt net key m.next mid := by
  have hnext : mid.layout.next key = m.next := Network.tied_of_nodeAt? hm
  exact ⟨hA, hnext ▸ hA.firm.inv.layout.once key, fun fwd hfwd ↦ hnext ▸ hfwd⟩

/-- Cutting one of the pipes is safe, and the others are still there. -/
theorem AbidesAt.cutPipe {mid : Network} {fs : List Handle}
    (hA : AbidesAt net key (fwd :: fs) mid) :
    Safe n (cutPipe l fwd) mid ∧
      ∀ mid', Leads (cutPipe l fwd) mid () mid' → AbidesAt net key fs mid' := by
  obtain ⟨hfresh, hnodup⟩ := List.nodup_cons.1 hA.nodup
  have hfwd := hA.listed fwd List.mem_cons_self
  refine ⟨safe_cutPipe hA.firm hfwd, fun mid' hl ↦ ?_⟩
  obtain ⟨hU, hplan, -, hkept, -⟩ := upheld_cutPipe (E := fun _ _ _ ↦ True) (K := fun _ ↦ True) hl
    hA.firm.lax (fun _ _ ↦ trivial) hfwd
  refine ⟨⟨hU.firm, hA.plan.trans hplan⟩, hnodup, fun k hk ↦ ?_⟩
  refine hkept k (hA.listed k (List.mem_cons_of_mem _ hk)) ?_
  rintro rfl
  exact hfresh hk

/-- **Disconnecting along a link is safe.** -/
theorem safe_disconnectLink (hfirm : net.Firm) : Safe n (disconnectLink l) net := by
  have hnodup := hfirm.inv.layout.nodup
  refine safe_network_bind (fun _ _ _ ↦ rfl) ?_
  rw [Network.forM_sendersAt hfirm.inv.layout]
  refine safe_forM (I := fun _ ↦ Abides net) ⟨hfirm, .refl _⟩
    fun s _ mid hs hA ↦ ⟨?_, fun mid' hl ↦ ?_⟩
  · obtain ⟨s', hs'⟩ := node_of_plan hA.plan hnodup (Network.mem_sendersAt.1 hs).1
    exact safe_node_bind hs' (safe_forM (hA.at hs') fun _ _ _ _ hA ↦ hA.cutPipe)
  · rw [leads_node_bind] at hl
    obtain ⟨s', hs', hl⟩ := hl
    exact (hl.forM (hA.at hs') fun _ _ _ mid' _ hA ↦ (hA.cutPipe (n := n)).2 mid').toAbides

end Engine

end HeaderFlow
