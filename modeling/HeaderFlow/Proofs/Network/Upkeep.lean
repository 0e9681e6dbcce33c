import HeaderFlow.Proofs.Network.Exact
import HeaderFlow.Proofs.Network.Graded
import HeaderFlow.Proofs.Network.Renewal

/-!
# The steps of a change that may be broken off

A change mends pipes, influences and flows step by step, and lets headers flow in between. **Only
where headers flow can it be broken off**, so only there must everything be in order: pipes and
influences are exact and flows know their kin (`Orderly`). The steps in between make no visits
(`Engine.Steady`), so of those it is enough to know what they do when they come to their end.

`Poised` is what holds before and after each step, and `Overtaxed` what holds where a change is
broken off: everything is in order there as well, **but the limits are too tight for the network**.

## Rules and proofs

There is a rule for each kind of step. `Poised.step` is for steps that make no visit: it asks for
what the step does to the network and for the proof that everything is in order again. `Poised.goes`
is for steps in which headers flow, and hands over the invariant of propagation. With these, the
parts of a change are proved in the order in which they are done: a node comes or goes, pipes are
built or removed, flows are removed, influences are removed.

A walk along a list needs an invariant of its own. It says what has been done so far in terms of
what is still to come:

* `Links`: pipes from some senders to some receivers are still to be built, and none of them is
  there;
* `Cuts`: pipes along the link are left at some senders only.

So nothing has to be known of how far the walk was when it is broken off.
-/

namespace HeaderFlow

open Engine

variable {α : Type} {net net' : Network} {s : Settings} {X : Set Handle} {key : NodeKey}
  {h : Handle} {a : α} {x : Engine α} {n : Node} {v : Bool}

/-! ### Order -/

/-- Pipes and influences are exact, and flows know their kin. -/
structure Orderly (s : Settings) (net : Network) : Prop extends net.Limited s where
  exact : net.layout.Exact
  graded : net.layout.Graded ∅
  kin : Kin net ∅

/-- Everything is in order, and no visit is under way. -/
structure Poised (s : Settings) (net : Network) : Prop extends Orderly s net where
  idle : net.budget.depth = 0

/-- Everything is in order, but the limits are too tight for the network. -/
structure Overtaxed (s : Settings) (net : Network) : Prop extends Orderly s net where
  strains : net.layout.Strains s

namespace Poised

/-- Before a step, no visit is under way, so all limits are still to be used. -/
theorem underway (hP : Poised s net) : Underway net.layout s s.maxDepth.toNat net :=
  { hP with layout := rfl, wellFormed := hP.exact.toWellFormed, room := by rw [hP.idle]; rfl }

/-- Where no visit was made, it is enough that everything is in order. -/
theorem step (hP : Poised s net)
    (hsame : net'.budget = net.budget ∧ net'.settings = net.settings)
    (hexact : net'.layout.Exact) (hgraded : net'.layout.Graded ∅) (hkin : Kin net' ∅) :
    Poised s net' := by
  obtain ⟨hbudget, hsettings⟩ := hsame
  exact ⟨⟨hP.toLimited.congr hbudget hsettings, hexact, hgraded, hkin⟩, hbudget ▸ hP.idle⟩

/-- **Headers flow.** -/
theorem goes {x : Engine Unit} (hP : Poised s net)
    (hx : Ends x net (Cut net.layout s) fun _ net' ↦
      Goes net.layout s s.maxDepth.toNat 0 net net') :
    Ends x net (Overtaxed s) fun _ net' ↦ Poised s net' ∧ Keeps 0 net net' := by
  refine hx.mono (fun mid hcut ↦ ?_) fun _ mid hgoes ↦ ⟨?_, hgoes.keeps⟩
  · exact ⟨⟨hcut.toLimited, hcut.layout ▸ hP.exact, hcut.layout ▸ hP.graded, hcut.kin⟩,
      hcut.layout ▸ hcut.strains⟩
  · have hU := hgoes.underway
    refine ⟨⟨hU.toLimited, hU.layout ▸ hP.exact, hU.layout ▸ hP.graded, hU.kin⟩, ?_⟩
    have := hU.room
    omega

/-- Nothing that matters here has changed. -/
theorem quiet (hP : Poised s net)
    (hsame : net'.budget = net.budget ∧ net'.settings = net.settings) (hq : Quiet net net') :
    Poised s net' :=
  hP.step hsame (hq.layout ▸ hP.exact) (hq.layout ▸ hP.graded)
    (Prunes.of_quiet (d := 0) hq hP.kin |>.kin hP.kin)

end Poised

/-! ### Only pipes, or only influences -/

/-- Flows know their kin, however pipes are laid. -/
theorem Rewired.kin (hr : Rewired net net') (hsettings : net'.settings = net.settings)
    (hK : Kin net X) : Kin net' X := by
  refine (Sheds.of_eq hK hr.flows hr.roster fun key _ ↦ ?_).kin hK
  have hmask : net'.layout.keyMask = net.layout.keyMask := by
    simp only [Network.layout, hsettings]
  rw [Layout.face?, Layout.face?, hr.plan.core?, hmask]

/-- Influences stay exact, however pipes are laid. -/
theorem Rewired.graded (hr : Rewired net net') (hG : net.layout.Graded X) : net'.layout.Graded X :=
  hG.samePlan hr.plan.cores hr.plan.influences hr.plan.lost hr.plan.won

/-- Flows know their kin, however rules rank. -/
theorem Reranked.kin (hr : Reranked net net') (hK : Kin net X) : Kin net' X := by
  refine (Sheds.of_eq hK hr.flows hr.roster fun key _ ↦ ?_).kin hK
  obtain ⟨I, lost, won, hlayout⟩ := hr.layout
  rw [hlayout]
  rfl

/-- Pipes stay exact, however rules rank. -/
theorem Reranked.exact (hr : Reranked net net') (hL : net.layout.Exact) : net'.layout.Exact := by
  obtain ⟨I, lost, won, hlayout⟩ := hr.layout
  rw [hlayout]
  exact hL.reorder

/-- **Pipes were laid or removed**, and are exact again. -/
theorem Poised.rewired (hP : Poised s net)
    (hsame : net'.budget = net.budget ∧ net'.settings = net.settings)
    (hexact : net'.layout.Exact) (hr : Rewired net net') : Poised s net' :=
  hP.step hsame hexact (hr.graded hP.graded) (hr.kin hsame.2 hP.kin)

/-- **Influences came or went**, and are exact again. -/
theorem Poised.reranked (hP : Poised s net)
    (hsame : net'.budget = net.budget ∧ net'.settings = net.settings)
    (hgraded : net'.layout.Graded ∅) (hr : Reranked net net') : Poised s net' :=
  hP.step hsame (hr.exact hP.exact) hgraded (hr.kin hP.kin)

/-! ### Steps without visits

A change cannot be broken off in these. Most of them leave the outline of nodes alone as well
(`Tame`), which is what `Poised.rewired` and `Poised.reranked` are used with. -/

namespace Engine

theorem tame_addPipe (w : Wire) : Tame v (addPipe w) :=
  tame_network.bind fun _ ↦ tame_update_bind (fun _ ↦ ⟨rfl, rfl, rfl⟩) <|
    tame_network.bind fun _ ↦ tame_update_bind (fun _ ↦ ⟨rfl, rfl, rfl⟩) <|
      (tame_alterNode _ (by exact fun _ ↦ rfl)).bind fun _ ↦
        (tame_alterNode _ (by exact fun _ ↦ rfl)).bind fun _ ↦ tame_pure

theorem tame_removeSide (h : Handle) (side : Pipe) : Tame v (removeSide h side) :=
  tame_update_bind (fun _ ↦ ⟨rfl, rfl, rfl⟩) (tame_updateNode _ (by exact fun _ ↦ rfl))

theorem tame_removePipe (h : Handle) : Tame v (removePipe h) := by
  refine (tame_pipe? h).bind fun o ↦ ?_
  split
  · refine (tame_removeSide _ _).bind fun _ ↦ (tame_pipe? _).bind fun o ↦ ?_
    split
    · exact tame_removeSide _ _
    · exact tame_pure
  · exact tame_pure

theorem tame_connect (key : NodeKey) : Tame v (connect key) :=
  (tame_node key).bind fun _ ↦ (tame_ask _).bind fun ws ↦
    Tame.forM (fun w ↦ (tame_addPipe w).discard) ws

theorem tame_disconnect (key : NodeKey) : Tame v (disconnect key) :=
  (tame_node key).bind fun _ ↦ Tame.forM tame_removePipe _

theorem tame_cutPipe (l : Link) (fwd : Handle) : Tame v (cutPipe l fwd) := by
  refine (tame_pipe fwd).bind fun side ↦ ?_
  split
  · exact tame_pure
  · refine (tame_pipe _).bind fun back ↦ ?_
    split
    · exact tame_pure
    · refine (tame_node _).bind fun n ↦ Tame.bind (Tame.forM (fun h ↦ ?_) _) fun _ ↦
        tame_removePipe fwd
      refine (tame_flow? h).bind fun o ↦ ?_
      split
      · exact tame_removeFlow h
      · exact tame_pure

theorem tame_disconnectLink (l : Link) : Tame v (disconnectLink l) :=
  tame_network.bind fun _ ↦ Tame.forM (fun _ ↦ (tame_node _).bind fun _ ↦
    Tame.forM (tame_cutPipe l) _) _

/-- The influences that a rule lists may change. -/
theorem tame_mapRule (key : NodeKey) {c : Rule → Rule} (hc : ∀ r, (c r).table = r.table ∧
    (c r).index = r.index ∧ (c r).overwrite = r.overwrite) :
    Tame v (updateNode key (Node.mapRule c)) :=
  tame_updateNode key fun _ ↦ Node.core_mapRule hc

theorem tame_addInfluence (i : Influence) : Tame v (addInfluence i) :=
  tame_network.bind fun _ ↦ tame_update_bind (fun _ ↦ ⟨rfl, rfl, rfl⟩) <|
    ((tame_node _).bind fun _ ↦ tame_mapRule _ (by exact fun _ ↦ ⟨rfl, rfl, rfl⟩)).bind fun _ ↦
      (tame_node _).bind fun _ ↦ tame_mapRule _ (by exact fun _ ↦ ⟨rfl, rfl, rfl⟩)

theorem steady_reportCoverage (id : NodeId) (c : Coverage) : Steady (reportCoverage id c) := by
  rw [reportCoverage]
  split
  · exact steady_event.bind fun _ ↦ steady_report _
  · split
    · exact steady_event.bind fun _ ↦ steady_report _
    · exact steady_pure

theorem steady_relate (key : NodeKey) : Steady (relate key) := by
  refine (steady_node key).bind fun n ↦ ?_
  split
  · split
    · exact (steady_ask _).bind fun _ ↦ (steady_check _).bind fun _ ↦ (steady_ask _).bind fun _ ↦
        (Tame.forM tame_addInfluence _).steady.bind fun _ ↦ steady_reportCoverage _ _
    · exact steady_pure
  · exact steady_pure

theorem tame_removeInfluence (k : Handle) : Tame v (removeInfluence k) :=
  tame_network.bind fun _ ↦ tame_update_bind (fun _ ↦ ⟨rfl, rfl, rfl⟩) tame_pure

theorem tame_dropLost (k : Handle) : Tame v (dropLost k) := by
  refine (tame_removeInfluence k).bind fun o ↦ ?_
  split
  · exact (tame_node _).bind fun _ ↦ tame_mapRule _ (by exact fun _ ↦ ⟨rfl, rfl, rfl⟩)
  · exact tame_pure

/-- Dropping all influences on later rules leaves the outline alone. -/
theorem tame_dropWon : ∀ ks : List Handle, Tame v (dropWon ks)
  | [] => tame_pure
  | k :: ks => by
    refine (tame_removeInfluence k).bind fun o ↦ ?_
    split
    · exact tame_dropWon ks
    · exact (tame_node _).bind fun _ ↦
        (tame_mapRule _ (by exact fun _ ↦ ⟨rfl, rfl, rfl⟩)).bind fun _ ↦
          (tame_dropWon ks).bind fun _ ↦ tame_pure

theorem steady_addNode (node : NodeKey → Node) : Steady (addNode node) :=
  steady_network.bind fun _ ↦ steady_update_bind (fun _ ↦ ⟨rfl, rfl⟩) steady_pure

theorem steady_eraseNode (key : NodeKey) : Steady (eraseNode key) :=
  (steady_node key).bind fun _ ↦ steady_update fun _ ↦ ⟨rfl, rfl⟩

theorem tame_removeFlows (key : NodeKey) : Tame v (removeFlows key) :=
  (tame_node key).bind fun _ ↦ Tame.forM tame_removeFlow _

theorem steady_startProbe (key : NodeKey) : Steady (startProbe key) := by
  refine (steady_node key).bind fun n ↦ (steady_setEvent _).bind fun _ ↦
    (steady_ask _).bind fun flows ↦ ?_
  split
  · exact (steady_check _).bind fun _ ↦ (steady_updateNode _ _).bind fun _ ↦
      Steady.forM (fun _ ↦ steady_event.bind fun _ ↦ steady_report _) _
  · exact steady_pure

theorem steady_stopProbe (key : NodeKey) : Steady (stopProbe key) := by
  refine (steady_node key).bind fun n ↦ (steady_setEvent _).bind fun _ ↦ ?_
  split
  · exact steady_updateNode _ _
  · exact steady_pure

end Engine

/-! ### Nodes

A node comes with nothing on its lists, and goes when there is nothing on them any more. So its
flows go first, then its pipes, its influences and the node itself, and each step is poised because
of those before. -/

/-- The node of a rule, source or probe that is not there lists nothing. -/
theorem Network.roster_nextKey (hL : net.layout.WellFormed) : net.roster net.nextKey = [] := by
  have hnone := hL.core?_nextKey
  rw [show net.layout.nextKey = net.nextKey from rfl, Layout.core?_layout,
    Option.map_eq_none_iff] at hnone
  rw [roster, tied, hnone]
  rfl

/-- **A new node.** -/
theorem Poised.addNode {node : NodeKey → Node} (hP : Poised s net)
    (hl : Leads (Engine.addNode node) net key net') (hkey : ∀ k, (node k).key = k)
    (hbare : ∀ k, (node k).Bare) (hproper : ∀ k, (node k).core.Proper)
    (hadmits : net.registry.Admits net.layout.cores (node key).core) :
    Poised s net' ∧ net'.nodeAt? key = some (node key) ∧ net'.roster key = [] := by
  obtain ⟨rfl, hlayout, hflows, hroster, hnet⟩ := hl.addNode hbare
  have hempty := Network.roster_nextKey hP.exact.toWellFormed
  refine ⟨hP.step ((steady_addNode node).budget hl) ?_ ?_ ?_,
    nodeAt?_append hP.exact.toWellFormed (hkey _) (congrArg Network.nodes hnet), hroster ▸ hempty⟩
  · rw [hlayout]
    exact hP.exact.grow (hkey _) (hproper _) hadmits
  · rw [hlayout]
    exact hP.graded.grow hadmits
  · refine (Sheds.of_eq hP.kin hflows hroster fun key' hne ↦ ?_).kin hP.kin
    rw [hlayout, Layout.face?, Layout.face?, Layout.core?_grow_of_ne]
    · rfl
    · rintro rfl
      exact hne ((congrArg net.roster (hkey _)).trans hempty)

/-- **A node goes at which nothing is.** -/
theorem Poised.eraseNode (hP : Poised s net) (hl : Leads (Engine.eraseNode key) net () net')
    (hi : net.layout.Isolated key) (hempty : net.roster key = []) :
    Poised s net' ∧ net'.layout.cores = net.layout.cores.filter (·.key ≠ key) ∧
      net'.tableIds = net.tableIds := by
  have hsame := (steady_eraseNode key).budget hl
  obtain ⟨c, hc, rfl, hlayout, hflows, hroster⟩ := hl.eraseNode hi hempty
  obtain ⟨hmem, rfl⟩ := nodeAt?_eq_some hc
  refine ⟨hP.step hsame ?_ ?_ ?_, by rw [hlayout]; rfl, Registry.map_id_strike (r := net.registry)⟩
  · rw [hlayout]
    exact hP.exact.shrink (List.mem_map_of_mem hmem) hi
  · rw [hlayout]
    exact hP.graded.shrink hi
  · refine (Sheds.of_eq hP.kin hflows hroster fun key' hne ↦ ?_).kin hP.kin
    rw [hlayout, Layout.face?, Layout.face?, Layout.core?_shrink_of_ne]
    · rfl
    · rintro rfl
      exact hne hempty

/-- A listed flow lies somewhere, unless it is gone. -/
theorem Kin.exists_liesAt {mid : Network} {f : Flow} (hK : Kin mid X) (hp : Keeps 0 net mid)
    (hf : net.Holds h f) : ∃ d, LiesAt mid d h := by
  obtain hpast | ⟨f', hf', -⟩ := hp.kept h f hf
  · exact ⟨0, fun f' hf' ↦ absurd (hpast.find?_eq_none.symm.trans hf') (by simp)⟩
  · obtain ⟨d, hd⟩ := hK.line h f' hf'
    refine ⟨d, fun g hg ↦ ?_⟩
    obtain rfl := Option.some.inj (hf'.1.symm.trans hg)
    exact ⟨hf', hd⟩

/-- **Removing some of the flows of a node.** -/
theorem prunes_removeSome {hs : List Handle} {body : Handle → Engine Unit}
    (hl : Leads (hs.forM body) net () net') (hL : net.layout.WellFormed) (hK : Kin net ∅)
    (hhs : ∀ h ∈ hs, ∃ f, net.Holds h f)
    (hbody : ∀ h mid mid', Leads (body h) mid () mid' →
      Leads (removeFlow h) mid () mid' ∨ mid' = mid) : Prunes 0 net net' := by
  refine hl.forM (I := fun _ mid ↦ Prunes 0 net mid) (.refl 0 hK) ?_
  rintro h rest mid mid' hh hp hstep
  rcases hbody h mid mid' hstep with hremove | rfl
  · obtain ⟨f, hf⟩ := hhs h hh
    obtain ⟨d, hd⟩ := (hp.kin hK).exists_liesAt hp.toKeeps hf
    obtain ⟨hp', -⟩ := hremove.prunes_removeFlow (hp.layout ▸ hL) (hp.kin hK) hd
    exact hp.trans (hp'.mono (Nat.zero_le d)) hK
  · exact hp

/-- **Removing the flows of a node**, which are gone then. -/
theorem prunes_removeFlows (hl : Leads (removeFlows key) net () net') (hL : net.layout.WellFormed)
    (hK : Kin net ∅) : Prunes 0 net net' ∧ net'.roster key = [] := by
  rw [removeFlows, leads_node_bind] at hl
  obtain ⟨n, hn, hl⟩ := hl
  have hroster : net.roster key = n.flows := Network.tied_of_nodeAt? hn
  have hrun := hl.forM (I := fun rest mid ↦ Prunes 0 net mid ∧
      ∀ h ∈ n.flows, h ∈ rest ∨ mid.flows.Past h) ⟨.refl 0 hK, fun _ ↦ .inl⟩ (by
    -- a flow can be gone before its turn, with another one that it came from
    rintro h rest mid mid' hh ⟨hp, hleft⟩ hstep
    obtain ⟨f, hf, -⟩ := hK.holds (hroster ▸ hh)
    have hKmid := hp.kin hK
    obtain ⟨d, hd⟩ := hKmid.exists_liesAt hp.toKeeps hf
    obtain ⟨hp', hpast⟩ := hstep.prunes_removeFlow (hp.layout ▸ hL) hKmid hd
    refine ⟨hp.trans (hp'.mono (Nat.zero_le d)) hK, fun k hk ↦ ?_⟩
    rcases hleft k hk with hk | hk
    · rcases List.mem_cons.1 hk with rfl | hk
      · right
        obtain hgone | ⟨f', hf', -⟩ := hp.kept k f hf
        · exact hp'.past k hgone
        · exact hpast f' hf'
      · exact .inl hk
    · exact .inr (hp'.past k hk))
  obtain ⟨hp, hgone⟩ := hrun
  refine ⟨hp, List.eq_nil_iff_forall_not_mem.2 fun h hh ↦ ?_⟩
  obtain ⟨f', hf', hnode⟩ := (hp.kin hK).holds hh
  obtain ⟨f, hf, hway, -⟩ := hp.old h f' hf'
  have hmem : h ∈ n.flows := by
    rw [← hroster, ← hnode, Flow.node_eq hway]
    exact hf.2
  exact hf'.not_past ((hgone h hmem).resolve_left List.not_mem_nil)

/-- **Isolating a node**: its flows and pipes are gone then. -/
theorem Poised.isolate {mid : Network} (hP : Poised s net)
    (hremove : Leads (removeFlows key) net () mid)
    (hdisconnect : Leads (disconnect key) mid () net') :
    Poised s net' ∧ SamePlan net.layout net'.layout ∧ net'.layout.next key = [] ∧
      net'.layout.prev key = [] ∧ net'.roster key = [] := by
  obtain ⟨hp, hempty⟩ := prunes_removeFlows hremove hP.exact.toWellFormed hP.kin
  have hPmid := hP.step ((tame_removeFlows key).steady.budget hremove) (hp.layout ▸ hP.exact)
    (hp.layout ▸ hP.graded) (hp.kin hP.kin)
  obtain ⟨hL, hr, hnext, hprev⟩ := hdisconnect.exact_disconnect hPmid.exact
  exact ⟨hPmid.rewired ((tame_disconnect key).steady.budget hdisconnect) hL hr, hp.layout ▸ hr.plan,
    hnext, hprev, hr.roster ▸ hempty⟩

/-- **Removing a source or a probe.** -/
theorem Poised.removePlainNode (hP : Poised s net) (hn : net.nodeAt? key = some n)
    (hplain : n.rule? = none) :
    Ends (Engine.removePlainNode key) net (Overtaxed s) fun _ ↦ Poised s := by
  refine .steady_bind (tame_removeFlows key).steady fun _ net₁ hremove ↦ ?_
  refine .steady_bind (tame_disconnect key).steady fun _ net₂ hdisconnect ↦ ?_
  refine (steady_eraseNode key).ends fun _ net₃ herase ↦ ?_
  obtain ⟨hP₂, hplan, hnext, hprev, hempty⟩ := hP.isolate hremove hdisconnect
  obtain ⟨hlost, hwon⟩ := lost_won_of_plain hn hplain
  exact (hP₂.eraseNode herase ⟨hnext, hprev, hplan.lost ▸ hlost, hplan.won ▸ hwon⟩ hempty).1

/-- **Removing the influences of a node without flows and pipes.** -/
theorem Poised.release (hP : Poised s net) (hprev : net.layout.prev key = [])
    (hempty : net.roster key = []) :
    Ends (Engine.release key) net (Overtaxed s) fun _ net' ↦ Poised s net' ∧
      (∃ I lost won, net'.layout = net.layout.reorder I lost won) ∧ net'.layout.lost key = [] ∧
      net'.layout.won key = [] ∧ net'.roster key = [] := by
  rw [Engine.release, ends_node_bind]
  intro n hn
  cases hr : n.rule? with
  | none =>
    obtain ⟨hlost, hwon⟩ := lost_won_of_plain hn hr
    exact ends_pure.2 ⟨hP, ⟨_, _, _, rfl⟩, hlost, hwon, hempty⟩
  | some r =>
    refine .steady_bind (steady_updateNode _ _) fun _ net₁ hforget ↦ ?_
    refine .steady_bind (Tame.forM tame_dropLost _).steady fun _ net₂ hlosses ↦ ?_
    refine .steady_bind (tame_dropWon _).steady fun given net₃ hwins ↦ ?_
    have hsame₁ := (steady_updateNode _ _).budget hforget
    have hsame₂ := (Tame.forM tame_dropLost _).steady.budget hlosses
    have hsame₃ := (tame_dropWon _).steady.budget hwins
    obtain rfl := leads_updateNode.1 hforget
    obtain ⟨hG, hreranked, hlost, hwon⟩ := graded_surrender hn hr hlosses hwins hP.graded
    have hP₃ := hP.reranked ⟨hsame₃.1.trans (hsame₂.1.trans hsame₁.1),
      hsame₃.2.trans (hsame₂.2.trans hsame₁.2)⟩ hG hreranked
    refine (hP₃.goes (goes_forM hP₃.underway fun i _ mid hmid ↦
      goes_refreshFlows hmid.underway)).weaken fun _ net' hend ↦ ?_
    obtain ⟨hP', hkeeps⟩ := hend
    obtain ⟨I, lost, won, hlayout⟩ := hreranked.layout
    rw [hkeeps.layout]
    refine ⟨hP', ⟨I, lost, won, hlayout⟩, hlost, hwon, ?_⟩
    -- no pipe leads to the node, so nothing has come
    refine List.eq_nil_of_subset_nil ?_
    rw [← hempty, ← hreranked.roster]
    refine hkeeps.closed key ?_
    rw [hlayout]
    exact hprev

/-- **Removing a rule.** -/
theorem Poised.removeRuleNode (hP : Poised s net) :
    Ends (Engine.removeRuleNode key) net (Overtaxed s) fun _ net' ↦ Poised s net' ∧
      net'.layout.cores = net.layout.cores.filter (·.key ≠ key) ∧ net'.tableIds = net.tableIds := by
  refine .steady_bind (tame_removeFlows key).steady fun _ net₁ hremove ↦ ?_
  refine .steady_bind (tame_disconnect key).steady fun _ net₂ hdisconnect ↦ ?_
  obtain ⟨hP₂, hplan, hnext, hprev, hempty⟩ := hP.isolate hremove hdisconnect
  refine (hP₂.release hprev hempty).bind fun _ net₃ hend ↦ ?_
  obtain ⟨hP₃, ⟨I, lost, won, hlayout⟩, hlost, hwon, hempty₃⟩ := hend
  refine (steady_eraseNode key).ends fun _ net₄ herase ↦ ?_
  have hcores : net₃.layout.cores = net.layout.cores := by
    rw [hlayout]
    exact hplan.cores
  have htables : net₃.tableIds = net.tableIds := by
    have hregistry : net₃.registry = net.registry :=
      (congrArg Layout.registry hlayout).trans (show net₂.layout.registry = _ from hplan.registry)
    exact congrArg (fun r : Registry ↦ r.tables.map Table.id) hregistry
  rw [← hcores, ← htables]
  refine hP₃.eraseNode herase ⟨?_, ?_, hlost, hwon⟩ hempty₃
  · rw [hlayout]
    exact hnext
  · rw [hlayout]
    exact hprev

/-! ### Links

Pipes are built one by one along a link, and flows sent down each, so a change can be broken off
between two of them. What is there then is in order, only not all of what was to come. -/

section

variable {l : Link} {sender receiver : Node} {fwd : Handle}

/-- What is built between two nodes along a link should be there. -/
theorem warrants_along {s' r' : Node} {pattern : Pattern}
    (hnodup : (net.layout.cores.map Core.key).Nodup) (hs : sender.core ∈ net.layout.cores)
    (hr : receiver.core ∈ net.layout.cores) (hout : l.source ∈ sender.outPorts.toList)
    (hin : l.target ∈ receiver.inPorts.toList) (hlink : l ∈ net.layout.links)
    (hs' : net.nodeAt? sender.key = some s') (hr' : net.nodeAt? receiver.key = some r')
    (ho : r'.overlap s'.sends = .ok (some pattern)) :
    net.layout.Warrants ⟨sender.key, l.source, receiver.key, l.target, pattern⟩ := by
  have hsends : s'.sends = sender.sends :=
    congrArg Core.sends (core?_of_plan (.refl _) hnodup hs hs')
  have haccepts : r'.accepts = receiver.accepts :=
    congrArg Core.accepts (core?_of_plan (.refl _) hnodup hr hr')
  obtain ⟨p, hp, hcommon⟩ := Node.intersect_of_overlap ho
  exact ⟨sender.core, receiver.core, p, Layout.core?_of_mem (n := sender.core) hnodup hs,
    Layout.core?_of_mem (n := receiver.core) hnodup hr, hout, hin, hlink, haccepts.symm.trans hp,
    (congrArg p.intersect hsends).symm.trans hcommon⟩

/-- **Joining two nodes along a link**, where they are not joined yet. -/
theorem Poised.joinAlong (hP : Poised s net) (hs : sender.core ∈ net.layout.cores)
    (hr : receiver.core ∈ net.layout.cores) (hout : l.source ∈ sender.outPorts.toList)
    (hin : l.target ∈ receiver.inPorts.toList) (hlink : l ∈ net.layout.links)
    (hnew : ∀ k w, net.layout.Runs k w →
      w.ends ≠ ((sender.key, l.source), receiver.key, l.target)) :
    Ends (Engine.joinAlong l sender.key receiver.key) net (Overtaxed s) fun _ net' ↦ Poised s net' ∧
      SamePlan net.layout net'.layout ∧ ∀ k w, net'.layout.Runs k w → net.layout.Runs k w ∨
        w.ends = ((sender.key, l.source), receiver.key, l.target) := by
  simp only [Engine.joinAlong, ends_node_bind, ends_check_bind]
  intro s' hs' r' hr' o ho
  cases o with
  | none => exact ends_pure.2 ⟨hP, .refl _, fun _ _ ↦ .inl⟩
  | some pattern =>
    have hw := warrants_along hP.exact.nodup hs hr hout hin hlink hs' hr' ho
    refine .steady_bind (tame_addPipe _).steady fun fwd mid hadd ↦ ?_
    obtain ⟨hL, hrewired, hruns⟩ := hadd.exact_addPipe hP.exact hw hnew
    have hPmid := hP.rewired ((tame_addPipe _).steady.budget hadd) hL hrewired
    obtain ⟨back, side, other, n, m, hj, hwire⟩ := hL.joins ((hruns fwd _).2 (.inr ⟨rfl, rfl⟩))
    have hsender : sender.key = side.node := congrArg Wire.sender hwire
    refine (hPmid.goes (goes_sendFlows hPmid.underway (hL.opens hj.next) fun n' hn' ↦ ?_)).weaken
      fun _ net' hend ↦ ?_
    · obtain rfl := Option.some.inj (hj.sender.symm.trans (hsender ▸ hn'))
      exact hj.kind_ne_probe hL.toWellFormed
    · obtain ⟨hP', hkeeps⟩ := hend
      refine ⟨hP', hkeeps.layout ▸ hrewired.plan, fun k w hkw ↦ ?_⟩
      rw [hkeeps.layout] at hkw
      rcases (hruns k w).1 hkw with hold | ⟨-, rfl⟩
      · exact .inl hold
      · exact .inr rfl

/-- A link is connected, with pipes from the senders to all receivers still to come, and from the
node with the key to some: none of these is there yet. -/
structure Links (s : Settings) (net : Network) (l : Link) (senders : List Node) (key : NodeKey)
    (receivers : List Node) (mid : Network) : Prop where
  poised : Poised s mid
  plan : SamePlan net.layout mid.layout
  later : ∀ k w, mid.layout.Runs k w → Along l w → ∀ n ∈ senders, w.sender ≠ n.key
  next : ∀ k w, mid.layout.Runs k w → Along l w → w.sender = key →
    ∀ n ∈ receivers, w.receiver ≠ n.key

/-- One pair of nodes has been joined. -/
theorem Links.joinAlong {senders receivers : List Node} {mid : Network}
    (hL : Links s net l senders sender.key (receiver :: receivers) mid)
    (hs : sender ∈ net.sendersAt l.source) (hr : receiver ∈ net.receiversAt l.target)
    (hlink : l ∈ net.layout.links) (hsender : ∀ n ∈ senders, sender.key ≠ n.key)
    (hreceiver : ∀ n ∈ receivers, receiver.key ≠ n.key) :
    Ends (Engine.joinAlong l sender.key receiver.key) mid (Overtaxed s) fun _ ↦
      Links s net l senders sender.key receivers := by
  obtain ⟨hs, hout⟩ := Network.mem_sendersAt.1 hs
  obtain ⟨hr, hin⟩ := Network.mem_receiversAt.1 hr
  refine (hL.poised.joinAlong (hL.plan.cores ▸ List.mem_map_of_mem hs)
    (hL.plan.cores ▸ List.mem_map_of_mem hr) hout hin (hL.plan.links ▸ hlink)
    fun k w hw hends ↦ ?_).weaken fun _ mid' hend ↦ ?_
  · exact hL.next k w hw
      ⟨congrArg (fun e ↦ e.1.2) hends, congrArg (fun e ↦ e.2.2) hends⟩
      (congrArg (fun e ↦ e.1.1) hends) receiver List.mem_cons_self
      (congrArg (fun e ↦ e.2.1) hends)
  · obtain ⟨hP, hplan, hruns⟩ := hend
    refine ⟨hP, hL.plan.trans hplan, fun k w hw hal n hn ↦ ?_, fun k w hw hal he n hn ↦ ?_⟩
    · rcases hruns k w hw with hw | hends
      · exact hL.later k w hw hal n hn
      · rw [show w.sender = sender.key from congrArg (fun e ↦ e.1.1) hends]
        exact hsender n hn
    · rcases hruns k w hw with hw | hends
      · exact hL.next k w hw hal he n (List.mem_cons_of_mem _ hn)
      · rw [show w.receiver = receiver.key from congrArg (fun e ↦ e.2.1) hends]
        exact hreceiver n hn

/-- **Connecting along a link that no pipe runs along yet.** -/
theorem Poised.connectLink (hP : Poised s net) (hlink : l ∈ net.layout.links)
    (hnone : ∀ k w, net.layout.Runs k w → ¬ Along l w) :
    Ends (Engine.connectLink l) net (Overtaxed s) fun _ ↦ Poised s := by
  have hkeys : (net.nodes.map Node.key).Nodup := map_key_cores net ▸ hP.exact.nodup
  have hhead : ∀ {n : Node} {ns : List Node}, ((n :: ns).map Node.key).Nodup →
      ∀ m ∈ ns, n.key ≠ m.key := fun hnodup m hm he ↦
    (List.nodup_cons.1 hnodup).1 (he ▸ List.mem_map_of_mem hm)
  rw [Engine.connectLink, ends_network_bind]
  simp only [Network.forM_sendersAt hP.exact.toWellFormed,
    Network.forM_receiversAt hP.exact.toWellFormed]
  refine (Ends.forM (I := fun senders mid ↦ (senders.map Node.key).Nodup ∧
      Links s net l senders 0 [] mid)
    ⟨hkeys.sublist (List.filter_sublist.map _), hP, .refl _,
      fun k w hw hal ↦ absurd hal (hnone k w hw), by rintro k w - - - n ⟨⟩⟩ ?_).weaken
    fun _ _ hend ↦ hend.2.poised
  rintro sender rest mid hs ⟨hnodup, hL⟩
  have hrest : (rest.map Node.key).Nodup := (List.nodup_cons.1 hnodup).2
  refine (Ends.forM (I := fun receivers mid ↦ (receivers.map Node.key).Nodup ∧
      Links s net l rest sender.key receivers mid)
    ⟨hkeys.sublist (List.filter_sublist.map _), { hL with
      later := fun k w hw hal n hn ↦ hL.later k w hw hal n (List.mem_cons_of_mem _ hn)
      next := fun k w hw hal he ↦ absurd he (hL.later k w hw hal sender List.mem_cons_self) }⟩
    ?_).weaken fun _ mid' hend ↦ ⟨hrest, { hend.2 with next := by rintro k w - - - n ⟨⟩ }⟩
  rintro receiver receivers mid hr ⟨hnodup', hL⟩
  exact (hL.joinAlong hs hr hlink (hhead hnodup) (hhead hnodup')).weaken fun _ _ hL ↦
    ⟨(List.nodup_cons.1 hnodup').2, hL⟩

/-- Pipes may have gone, but none has come. -/
structure Thinned (net net' : Network) : Prop where
  plan : SamePlan net.layout net'.layout
  prev : ∀ key k, k ∈ net'.layout.prev key → k ∈ net.layout.prev key
  runs : ∀ k w, net'.layout.Runs k w → net.layout.Runs k w

/-- No pipe has gone. -/
theorem Thinned.refl (net : Network) : Thinned net net := ⟨.refl _, fun _ _ ↦ id, fun _ _ ↦ id⟩

/-- Pipes may have gone in two steps. -/
theorem Thinned.trans {net'' : Network} (h₁ : Thinned net net') (h₂ : Thinned net' net'') :
    Thinned net net'' :=
  ⟨h₁.plan.trans h₂.plan, fun key k hk ↦ h₁.prev key k (h₂.prev key k hk),
    fun k w hw ↦ h₁.runs k w (h₂.runs k w hw)⟩

/-- **Cutting a pipe, if it runs along the link**, with the flows that came by it. -/
theorem Poised.cutPipe (hP : Poised s net) (hl : Leads (Engine.cutPipe l fwd) net () net')
    (hfwd : ∀ key, fwd ∉ net.layout.prev key) :
    Poised s net' ∧ Thinned net net' ∧ ∀ w, net'.layout.Runs fwd w → ¬ Along l w := by
  have hsame := (tame_cutPipe l fwd).steady.budget hl
  rw [Engine.cutPipe, leads_pipe_bind] at hl
  obtain ⟨side, hside, hl⟩ := hl
  obtain ⟨back, side', other, n, m, hj, -⟩ :=
    hP.exact.next side.node fwd ((hP.exact.listed fwd side hside).resolve_right (hfwd _))
  obtain rfl := Option.some.inj (hj.front.symm.trans hside)
  -- the pipe stays unless both of its ports are those of the link
  have hkeep : net' = net →
      ¬ Along l ⟨side'.node, side'.port, other.node, other.port, side'.pattern⟩ →
      Poised s net' ∧ Thinned net net' ∧ ∀ w, net'.layout.Runs fwd w → ¬ Along l w := by
    rintro rfl hnot
    exact ⟨hP, .refl _, fun w hw ↦ hw.unique hj.runs ▸ hnot⟩
  rcases hl.ite with ⟨hport, hl⟩ | ⟨-, hl⟩
  · exact hkeep (leads_pure.1 hl).2 fun hal ↦ hport hal.1
  rw [leads_pipe_bind] at hl
  obtain ⟨other', hother, hl⟩ := hl
  obtain rfl := Option.some.inj ((hj.reverse ▸ hj.rear).symm.trans hother)
  rcases hl.ite with ⟨hport, hl⟩ | ⟨-, hl⟩
  · exact hkeep (leads_pure.1 hl).2 fun hal ↦ hport hal.2
  rw [leads_node_bind] at hl
  obtain ⟨r, hr, hl⟩ := hl
  obtain ⟨⟨⟩, mid, hremove, hrest⟩ := hl.bind
  have hroster : net.roster other.node = r.flows := Network.tied_of_nodeAt? hr
  have hp : Prunes 0 net mid := by
    refine prunes_removeSome hremove hP.exact.toWellFormed hP.kin (fun h hh ↦ ?_) ?_
    · exact (hP.kin.holds (hroster ▸ hh)).imp fun f hf ↦ hf.1
    · intro h mid mid' hstep
      rw [leads_flow?_bind] at hstep
      exact hstep.ite.imp (fun hgo ↦ hgo.2) fun hstop ↦ (leads_pure.1 hstop.2).2
  obtain ⟨hL, hrewired, hnext, hprev, hruns⟩ := hrest.exact_removePipe (hp.layout ▸ hP.exact)
  have hsettings : net'.settings = mid.settings := ((tame_removePipe fwd).steady.budget hrest).2
  rw [hp.layout] at hnext hprev hruns
  refine ⟨hP.step hsame hL (hrewired.graded (hp.layout ▸ hP.graded))
    (hrewired.kin hsettings (hp.kin hP.kin)), ⟨hp.layout ▸ hrewired.plan,
    fun key k hk ↦ (hprev key k hk).1, hruns⟩, fun w hw ↦ ?_⟩
  obtain ⟨-, -, -, -, -, hmem, -⟩ := hL.ends hw
  exact absurd rfl (hnext _ fwd hmem).2

/-- Pipes along the link are left at the senders only, and among the forward sides in `fs`, which
have still to be gone through. -/
structure Cuts (s : Settings) (net : Network) (l : Link) (senders : List Node) (fs : List Handle)
    (mid : Network) : Prop where
  poised : Poised s mid
  thinned : Thinned net mid
  left : ∀ k w, mid.layout.Runs k w → Along l w → (∃ n ∈ senders, n.key = w.sender) ∨ k ∈ fs
  forward : ∀ fwd ∈ fs, ∀ key, fwd ∉ mid.layout.prev key

/-- One forward side has been gone through. -/
theorem Cuts.cut {senders : List Node} {fs : List Handle} {mid mid' : Network}
    (hC : Cuts s net l senders (fwd :: fs) mid) (hl : Leads (Engine.cutPipe l fwd) mid () mid') :
    Cuts s net l senders fs mid' := by
  obtain ⟨hP, hthin, hnot⟩ := hC.poised.cutPipe hl (hC.forward fwd List.mem_cons_self)
  refine ⟨hP, hC.thinned.trans hthin, fun k w hw hal ↦ ?_, fun k hk key hmem ↦
    hC.forward k (List.mem_cons_of_mem _ hk) key (hthin.prev key k hmem)⟩
  refine (hC.left k w (hthin.runs k w hw) hal).imp_right fun hk ↦
    (List.mem_cons.1 hk).resolve_left ?_
  rintro rfl
  exact hnot w hw hal

/-- One sender has been gone through. -/
theorem Cuts.step {senders : List Node} {mid mid' : Network}
    (hC : Cuts s net l (sender :: senders) [] mid)
    (hl : Leads (do (← node sender.key).next.forM (Engine.cutPipe l)) mid () mid') :
    Cuts s net l senders [] mid' := by
  rw [leads_node_bind] at hl
  obtain ⟨n, hn, hl⟩ := hl
  have hnext : mid.layout.next sender.key = n.next := Network.tied_of_nodeAt? hn
  have hexact := hC.poised.exact
  refine hl.forM (I := Cuts s net l senders) { hC with
    left := fun k w hw hal ↦ ?_
    forward := fun fwd hfwd key ↦ hexact.apart sender.key key fwd (hnext ▸ hfwd) }
    fun _ _ _ _ _ hC hcut ↦ hC.cut hcut
  obtain ⟨n', hn', hkey⟩ := (hC.left k w hw hal).resolve_right List.not_mem_nil
  rcases List.mem_cons.1 hn' with rfl | hn'
  · obtain ⟨-, -, -, -, -, hmem, -⟩ := hexact.ends hw
    exact .inr (hnext ▸ hkey ▸ hmem)
  · exact .inl ⟨n', hn', hkey⟩

/-- **Disconnecting along a link**, after which no pipe runs along it. -/
theorem Poised.disconnectLink (hP : Poised s net)
    (hl : Leads (Engine.disconnectLink l) net () net') :
    Poised s net' ∧ Thinned net net' ∧ ∀ k w, net'.layout.Runs k w → ¬ Along l w := by
  rw [Engine.disconnectLink, leads_network_bind, Network.forM_sendersAt hP.exact.toWellFormed] at hl
  have hrun : Cuts s net l [] [] net' := by
    refine hl.forM (I := fun senders ↦ Cuts s net l senders []) ⟨hP, .refl _, fun k w hw hal ↦ ?_,
      by rintro fwd ⟨⟩⟩ fun _ _ _ _ _ hC hstep ↦ hC.step hstep
    obtain ⟨n, -, -, hn, -, -, hout, -⟩ := hP.exact.ends hw
    obtain ⟨sender, hs, rfl⟩ := exists_nodeAt? hn
    obtain ⟨hs, hkey⟩ := nodeAt?_eq_some hs
    exact .inl ⟨sender, Network.mem_sendersAt.2 ⟨hs, hal.1 ▸ hout⟩, hkey⟩
  refine ⟨hrun.poised, hrun.thinned, fun k w hw hal ↦ ?_⟩
  rcases hrun.left k w hw hal with ⟨n, hn, -⟩ | hk
  · exact List.not_mem_nil hn
  · exact List.not_mem_nil hk

end

end HeaderFlow
