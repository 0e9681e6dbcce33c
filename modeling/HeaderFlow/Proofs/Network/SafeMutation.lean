import HeaderFlow.Proofs.Network.SafePriority

/-!
# Changes are safe

A change is made on a network that *stands*, whose core is firm: at each of its steps the core is
firm again, and what the step looks at is there. The core after a step is known from the lemmas
about steps that lead to an end, with every debt and every exception allowed.

`Outcome.Mirrors` compares what comes of a change on the network with what comes of it on the core.
All that a change checks beforehand is the same for both, since **hidden flows are not looked at
when a change is refused**.

## Two kinds of errors

A check may refuse a change, and a question may have a fault. `Unbroken` says of an answer that it
is not that a change was broken off, and `Faultless` that it is not a fault; checks are both. From
there a change is carried out, and `mirrors_carryOut` says that a safe computation makes a change
without faults.

## What is asked of a change

`Mutation.Coherent` is about what is given: spaces have patterns of one length each, and a probe
asks about no headers longer than those of the network. Everything else is checked by the change
itself. `Mutation.Identifies` says that the counter has not run out; it has to be said, because
running out is a fault (`apply_of_exhausted`), and the only one that there is.
-/

namespace HeaderFlow

open Checked (Gives gives_ok)

variable {α β : Type} {net net' : Network} {n : Nat} {G : Set Handle} {F : Arena Flow}
  {key : NodeKey} {m : Node} {O : Set Handle} {D : Set Debt}

namespace Engine

/-! ### Nodes come and go

The lookups here are those of nodes, which a change of flows does not make disappear. -/

/-- Entering a node is safe if its patterns have the length of the headers. -/
theorem safe_addNode {node : NodeKey → Node} (hnode : ∀ k, (node k).Fit n) :
    Safe n (addNode node) net := by
  refine safe_of_fit ?_
  rintro rfl -
  refine safe_network_bind (fun _ _ _ ↦ rfl) ?_
  refine safe_bind (safe_updateRest (fun _ ↦ rfl) rfl rfl (fun hfit m hm ↦ ?_)
    (fun hfit ↦ hfit.pipes) fun hfit ↦ hfit.influences) fun _ _ _ ↦ safe_pure
  rcases List.mem_append.1 hm with hm | hm
  · exact hfit.nodes m hm
  · exact List.mem_singleton.1 hm ▸ hnode _

/-- Erasing a node is safe if it is there. -/
theorem safe_eraseNode (hm : net.nodeAt? key = some m) : Safe n (eraseNode key) net :=
  safe_node_bind hm (safe_updateRest (fun _ ↦ rfl) rfl rfl
    (fun hfit k hk ↦ hfit.nodes k (List.mem_of_mem_filter hk)) (fun hfit ↦ hfit.pipes)
    fun hfit ↦ hfit.influences)

/-- **Emptying a node and cutting it off is safe**, and leaves it there. -/
theorem safe_isolate {rest : Engine Unit} (hfirm : net.Firm) (hm : net.nodeAt? key = some m)
    (hrest : ∀ mid m', mid.Firm → mid.nodeAt? key = some m' →
      (∀ h f, mid.flows.find? h = some f → f.node ≠ key) → Safe n rest mid) :
    Safe n (do removeFlows key; disconnect key; rest) net := by
  refine safe_bind (safe_removeFlows hfirm hm) fun _ net₁ hremove ↦ ?_
  obtain ⟨hU₁, hlayout, hfree, -⟩ := upheld_removeFlows hremove hfirm.lax
  obtain ⟨m₁, hm₁, -⟩ := node_of_layout hlayout hm
  refine safe_bind (safe_disconnect hm₁) fun _ net₂ hdisconnect ↦ ?_
  obtain ⟨hU₂, hflows, hplan, -⟩ := upheld_disconnect hdisconnect hU₁ (fun _ _ _ _ ↦ trivial) hfree
  obtain ⟨m₂, hm₂, -⟩ := exists_nodeAt? (hplan.core?.trans (Layout.core?_of_nodeAt? hm₁))
  exact hrest net₂ m₂ hU₂.firm hm₂ (hflows ▸ hfree)

/-- **Removing a rule is safe.** -/
theorem safe_removeRuleNode (hfirm : net.Firm) (hm : net.nodeAt? key = some m) :
    Safe n (removeRuleNode key) net := by
  refine safe_isolate hfirm hm fun mid m' hmid hm' hfree ↦ ?_
  refine safe_bind (safe_release hmid hm' hfree) fun _ last hrelease ↦ ?_
  obtain ⟨-, hloses, -⟩ := upheld_release (K := fun _ ↦ True) hrelease hmid.lax
    (fun _ _ _ ↦ trivial) hfree
  obtain ⟨I, lost, won, hsame⟩ := hloses.same
  have hcore : last.layout.core? key = some m'.core := by
    rw [hsame]
    exact Layout.core?_of_nodeAt? hm'
  obtain ⟨m'', hm'', -⟩ := exists_nodeAt? hcore
  exact safe_eraseNode hm''

/-- **Removing a source or a probe is safe.** -/
theorem safe_removePlainNode (hfirm : net.Firm) (hm : net.nodeAt? key = some m) :
    Safe n (removePlainNode key) net :=
  safe_isolate hfirm hm fun _ _ _ hm' _ ↦ safe_eraseNode hm'

/-- A rule that is there is removed before another is put in its place. -/
theorem safe_removeOld {table : TableId} {index : UInt32} (hfirm : net.Firm) :
    Safe n ((net.ruleAt? table index).toList.forM removeRuleNode) net := by
  cases hold : net.ruleAt? table index with
  | none => exact safe_pure
  | some old =>
    obtain ⟨m, hmem, rfl, -⟩ := (Network.ruleAt?_eq_some hfirm.inv.layout).1 hold
    have hm := Network.nodeAt?_of_mem (map_key_cores net ▸ hfirm.inv.layout.nodup) hmem
    exact safe_bind (k := fun _ ↦ List.forM [] _) (safe_removeRuleNode hfirm hm)
      fun _ _ _ ↦ safe_pure

/-- A new node is connected when no flow is at it yet. -/
theorem Leads.firm_connect (hl : Leads (Engine.connect key) net () net') (hfirm : net.Firm)
    (hfree : ∀ h f, net.flows.find? h = some f → f.node ≠ key) :
    net'.Firm ∧ SamePlan net.layout net'.layout := by
  obtain ⟨hU, -, hplan⟩ := upheld_connect (E := fun _ _ _ ↦ True) (R := fun _ _ ↦ True) hl
    (hfirm.upheld (fun _ _ _ ↦ .inl trivial) fun _ _ ↦ trivial) hfree
  exact ⟨hU.firm, hplan⟩

/-- **Adding a source or a probe and connecting it is safe.** -/
theorem safe_addPlain {node : NodeKey → Node} {rest : NodeKey → Engine α} (hfirm : net.Firm)
    (hkey : ∀ k, (node k).key = k) (hbare : ∀ k, (node k).Bare)
    (hproper : ∀ k, (node k).core.Proper) (hplain : ∀ k, ¬ (node k).core.IsRule)
    (hfit : ∀ k, (node k).Fit n)
    (hrest : ∀ key mid m, mid.Firm → mid.nodeAt? key = some m → m.core = (node key).core →
      Safe n (rest key) mid) :
    Safe n (do let key ← addNode node; connect key; rest key) net := by
  refine safe_bind (safe_addNode hfit) fun key net₁ hadd ↦ ?_
  obtain ⟨hU₁, -, -, -, hm, hfree⟩ := upheld_addNode hadd hfirm.lax hkey hbare hproper
    (Registry.admits_of_plain (hplain key))
  refine safe_bind (safe_connect hU₁.firm hm) fun _ net₂ hconnect ↦ ?_
  obtain ⟨hfirm₂, hplan⟩ := hconnect.firm_connect hU₁.firm hfree
  obtain ⟨m', hm', hsame⟩ := exists_nodeAt? (hplan.core?.trans (Layout.core?_of_nodeAt? hm))
  exact hrest key net₂ m' hfirm₂ hm' hsame

/-! ### Probes

A probe is started on the flows that are listed at it, and none of these is hidden. -/

/-- What a probe is started on does not depend on hidden flows. -/
theorem liveChains_eq {hs : List Handle} (hH : net.Hides n G F) (hI : Inv net O D)
    (hlive : ∀ h ∈ hs, ∃ f, net.flows.find? h = some f) :
    liveChains (net.withFlows F) hs = liveChains net hs := by
  induction hs with
  | nil => rfl
  | cons h hs ih =>
    obtain ⟨f, hf⟩ := hlive h List.mem_cons_self
    rw [liveChains, liveChains, hH.flows.find_some hf, hf, chainOf_eq hH hI hf,
      ih fun g hg ↦ hlive g (List.mem_cons_of_mem _ hg)]

/-- The flows of a probe can all be asked about. -/
theorem gives_liveChains {hs : List Handle} (hI : Inv net O D) (hfit : net.Fit)
    (hlive : ∀ h ∈ hs, ∃ f, net.flows.find? h = some f) :
    Gives (liveChains net hs) fun l ↦ ∀ e ∈ l, e.2.Over net.bytes := by
  induction hs with
  | nil => exact gives_ok (by simp)
  | cons h hs ih =>
    obtain ⟨f, hf⟩ := hlive h List.mem_cons_self
    have hmore := ih fun g hg ↦ hlive g (List.mem_cons_of_mem _ hg)
    rw [liveChains]
    split
    · refine (gives_chainOf hI hfit hf).bind fun c hc ↦ hmore.bind fun l hl ↦ gives_ok ?_
      exact List.forall_mem_cons.2 ⟨hc, hl⟩
    · exact hmore

/-- **Starting a probe is safe.** -/
theorem safe_startProbe (hfirm : net.Firm) (hm : net.nodeAt? key = some m) :
    Safe n (startProbe key) net := by
  refine safe_node_bind hm (safe_bind safe_setEvent fun _ mid hl ↦ ?_)
  obtain rfl := leads_update.1 hl
  have hfirm' := hfirm.quiet (quiet_begin net (some { kind := .startProbe, first := m.id.toNat })
    net.budget)
  have hlive : ∀ h ∈ m.flows, ∃ f, net.flows.find? h = some f := fun h hh ↦ by
    have hroster : net.roster key = m.flows := Network.tied_of_nodeAt? hm
    obtain ⟨f, hf, -⟩ := hfirm.inv.listed.only key h (hroster ▸ hh)
    exact ⟨f, hf⟩
  refine safe_of_fit ?_
  rintro rfl hfit
  refine safe_ask_bind (fun G F hH ↦ liveChains_eq hH hfirm'.inv hlive)
    (gives_liveChains hfirm'.inv hfit hlive) fun flows _ hflows ↦ ?_
  cases hp : m.probe? with
  | none => exact safe_pure
  | some p =>
    refine safe_check_bind (((hfit.nodes m (nodeAt?_eq_some hm).1).probe hp).start hflows)
      fun ⟨q, ts⟩ _ hq ↦ ?_
    refine safe_bind (safe_updateNode fun k _ _ hk ↦ ⟨hk.accepts, hk.sends, hq⟩) fun _ _ _ ↦ ?_
    exact safe_forM (I := fun _ _ ↦ True) trivial fun _ _ _ _ _ ↦
      ⟨safe_event_bind safe_report, fun _ _ ↦ trivial⟩

/-- Stopping a probe is safe. -/
theorem safe_stopProbe (hm : net.nodeAt? key = some m) : Safe n (stopProbe key) net := by
  refine safe_node_bind hm (safe_bind safe_setEvent fun _ mid hl ↦ ?_)
  obtain rfl := leads_update.1 hl
  refine safe_of_fit ?_
  rintro rfl hfit
  cases hp : m.probe? with
  | none => exact safe_pure
  | some p =>
    exact safe_updateNode fun k _ _ hk ↦
      ⟨hk.accepts, hk.sends, ((hfit.nodes m (nodeAt?_eq_some hm).1).probe hp).stop⟩

end Engine

/-! ### Outcomes

What comes of a change has an answer, a network and reports. It mirrors another outcome if the
answers are the same and the networks are the same but for what is hidden; if the change was broken
off, one flow more may be hidden. -/

/-- The answer is not that a precondition was broken. -/
def Faultless (answer : Except NetworkError α) : Prop := ∀ fault, answer ≠ .error (.fault fault)

theorem faultless_ok {a : α} : Faultless (.ok a) := fun _ ↦ by simp

/-- What follows a faultless answer may be faultless. -/
theorem Faultless.bind {x : Except NetworkError α} {k : α → Except NetworkError β}
    (hx : Faultless x) (hk : ∀ a, Faultless (k a)) : Faultless (x >>= k) := by
  cases x with
  | error e => exact fun f he ↦ hx f (congrArg Except.error (Except.error.inj he))
  | ok a => exact hk a

/-- The answer is not that a change was broken off. -/
def Unbroken (answer : Except NetworkError α) : Prop :=
  ∀ e, answer = .error e → (∀ fault, e ≠ .fault fault) ∧ ∀ overrun, e ≠ .tooComplex overrun

theorem unbroken_ok {a : α} : Unbroken (.ok a) := fun _ he ↦ by simp at he

theorem Unbroken.bind {x : Except NetworkError α} {k : α → Except NetworkError β} (hx : Unbroken x)
    (hk : ∀ a, Unbroken (k a)) : Unbroken (x >>= k) := by
  cases x with
  | error e => exact fun f he ↦ hx f (congrArg Except.error (Except.error.inj he))
  | ok a => exact hk a

/-- A refusal is no fault. -/
theorem Unbroken.faultless {e : NetworkError} {x : Except NetworkError α} (hx : Unbroken x)
    (he : x = .error e) : Faultless (.error e : Except NetworkError β) := fun f hf ↦
  (hx e he).1 f (Except.error.inj hf)

/-- What came of a change of a network, and of the same change of its core. -/
structure Outcome.Mirrors (o core : Outcome α) : Prop where
  /-- If the change comes to its end, it does so with the core, and the same flows stay hidden. -/
  done : ∀ a, o.result = .ok a → core.result = .ok a ∧ ∃ n G F, core.network.Hides n G F ∧
    o.network = core.network.withFlows F
  /-- If it does not, the network still stands. -/
  stands : ∀ e, o.result = .error e → o.network.Stands
  faultless : Faultless o.result

/-- A change of the answer does not matter. -/
theorem Outcome.Mirrors.map {o core : Outcome α} {k : α → β} (hm : o.Mirrors core) :
    (o.map k).Mirrors (core.map k) where
  done b hb := by
    obtain ⟨a, ha⟩ := Outcome.of_map hb
    obtain ⟨hcore, hhides⟩ := hm.done a ha
    refine ⟨?_, hhides⟩
    rw [← hb, Outcome.map, Outcome.map, ha, hcore]
  stands e he := by
    cases ho : o.result with
    | error e' => exact hm.stands e' ho
    | ok a => simp [Outcome.map, ho, Except.map] at he
  faultless f hf := by
    cases ho : o.result with
    | ok a => simp [Outcome.map, ho, Except.map] at hf
    | error e =>
      simp only [Outcome.map, ho, Except.map, Except.error.injEq] at hf
      exact hm.faultless f (ho.trans (congrArg _ hf))

namespace Network

open Engine Outcome

/-- A network with a firm core stands. -/
theorem Firm.stands (hfirm : net.Firm) (hH : net.Hides n G F) : (net.withFlows F).Stands :=
  ⟨G, net, hfirm, hH.bytes.symm ▸ hH, rfl⟩

/-- The budget, the latest change and the like are not looked at. -/
theorem Hides.quiet (hH : net.Hides n G F) (hbytes : net'.bytes = net.bytes)
    (hnodes : net'.nodes = net.nodes) (hpipes : net'.pipes = net.pipes)
    (hinfluences : net'.influences = net.influences) (hflows : net'.flows = net.flows) :
    net'.Hides n G F where
  bytes := hbytes.trans hH.bytes
  flows := hflows ▸ hH.flows
  fit := by
    obtain ⟨fitNodes, fitPipes, fitInfluences, fitFlows⟩ := hH.fit
    exact ⟨hbytes ▸ hnodes ▸ fitNodes, hbytes ▸ hpipes ▸ fitPipes,
      hbytes ▸ hinfluences ▸ fitInfluences, hbytes ▸ fitFlows⟩

/-- A change that is refused is refused on the core as well. -/
theorem mirrors_refused {e : NetworkError} (hfirm : net.Firm) (hH : net.Hides n G F)
    (he : Faultless (.error e : Except NetworkError α)) :
    Mirrors (refused (net.withFlows F) e : Outcome α) (refused net e) :=
  ⟨by simp [refused], fun _ _ ↦ hfirm.stands hH, he⟩

theorem mirrors_done {a : α} (hH : net.Hides n G F) :
    Mirrors (done (net.withFlows F) a) (done net a) :=
  ⟨fun _ ha ↦ ⟨ha, n, G, F, hH, rfl⟩, by simp [done], faultless_ok⟩

/-- A network that was marked as inconsistent stands as before. -/
theorem Stands.mark (hs : net.Stands) : Stands { net with consistent := false } := by
  obtain ⟨G, core, hfirm, hH, hnet⟩ := hs
  refine ⟨G, { core with consistent := false }, hfirm.quiet ⟨rfl, rfl, rfl⟩,
    hH.quiet rfl rfl rfl rfl rfl, ?_⟩
  conv_lhs => rw [hnet]

/-- **A safe change has no fault**, and what is looked at comes out as it would by itself. -/
theorem mirrors_carryOut {change : Engine α} (hH : net.Hides n G F)
    (hsafe : Safe n change { net with budget := net.budget.reset }) :
    Mirrors ((net.withFlows F).carryOut change) (net.carryOut change) := by
  have hrun := hsafe G F [] (hH.quiet rfl rfl rfl rfl rfl)
  rw [carryOut, carryOut]
  simp only [EStateM.run]
  cases hout : change ⟨{ net.withFlows F with budget := (net.withFlows F).budget.reset }, []⟩ with
  | ok a p =>
    rw [show change ⟨Network.withFlows { net with budget := net.budget.reset } F, []⟩ = _ from hout]
      at hrun
    obtain ⟨net', F', hnet, hH', hcore⟩ := hrun
    simp only [hcore]
    refine ⟨fun b hb ↦ ⟨hb, n, G, F', hH', hnet⟩, by simp, ?_⟩
    exact faultless_ok
  | error e p =>
    rw [show change ⟨Network.withFlows { net with budget := net.budget.reset } F, []⟩ = _ from hout]
      at hrun
    cases e with
    | fault f => exact hrun.elim
    | overrun o =>
      exact ⟨by simp, fun _ _ ↦ Stands.mark hrun, fun f ↦ by simp⟩

/-- A change says first what it is. Neither that nor the budget is of account. -/
theorem mirrors_change {e : Event} {k : Engine α} (hH : net.Hides n G F)
    (hsafe : ∀ event budget, Safe n k { net with lastEvent := event, budget := budget }) :
    Mirrors ((net.withFlows F).carryOut do setEvent e; k) (net.carryOut do setEvent e; k) :=
  mirrors_carryOut hH (safe_bind safe_setEvent fun _ mid hl ↦ by
    obtain rfl := leads_update.1 hl
    exact hsafe _ _)

/-! ### Tables, rules and links -/

/-- The rules that are still to come are there, each once. -/
structure Awaits (keys : List NodeKey) (mid : Network) : Prop where
  firm : mid.Firm
  nodup : keys.Nodup
  there : ∀ key ∈ keys, ∃ c ∈ mid.layout.cores, c.key = key ∧ c.IsRule

/-- Removing one of the rules is safe, and the others are still there. -/
theorem Awaits.removeRuleNode {keys : List NodeKey} {mid : Network}
    (hA : Awaits (key :: keys) mid) :
    Safe n (removeRuleNode key) mid ∧
      ∀ mid', Leads (removeRuleNode key) mid () mid' → Awaits keys mid' := by
  obtain ⟨hnot, hnodup⟩ := List.nodup_cons.1 hA.nodup
  obtain ⟨c, hc, rfl, hrule⟩ := hA.there key List.mem_cons_self
  have hcore := Layout.core?_of_mem hA.firm.inv.layout.nodup hc
  obtain ⟨m, hm, -⟩ := exists_nodeAt? hcore
  refine ⟨safe_removeRuleNode hA.firm hm, fun mid' hl ↦ ?_⟩
  obtain ⟨hU, hcores, -⟩ := upheld_removeRuleNode hl hA.firm.lax fun c' hc' ↦ by
    obtain rfl := Option.some.inj (hcore.symm.trans hc')
    exact hrule
  refine ⟨hU.firm, hnodup, fun key hkey ↦ ?_⟩
  obtain ⟨d, hd, rfl, hdrule⟩ := hA.there key (List.mem_cons_of_mem _ hkey)
  have hne : d.key ≠ c.key := fun he ↦ hnot (he ▸ hkey)
  exact ⟨d, hcores ▸ List.mem_filter.2 ⟨hd, by simpa using hne⟩, rfl, hdrule⟩

section

variable (hfirm : net.Firm) (hH : net.Hides n G F)

include hfirm hH

theorem mirrors_addTable {id : TableId} {ports : List Port} :
    Mirrors ((net.withFlows F).addTable id ports) (net.addTable id ports) := by
  have htable : (net.withFlows F).table? id = net.table? id := rfl
  simp only [addTable, htable]
  split
  · exact mirrors_refused hfirm hH fun _ ↦ by simp
  · split
    · exact mirrors_refused hfirm hH fun _ ↦ by simp
    · have hH' : Network.Hides { net with
          tables := insertTable ⟨id, .ofList ports, ∅⟩ net.tables
          lastEvent := some { kind := .addTable, first := id.toNat } } n G F :=
        hH.quiet rfl rfl rfl rfl rfl
      exact mirrors_done hH'

/-- **Removing a table**: the rules that are still to come are there at each step. -/
theorem mirrors_removeTable {id : TableId} :
    Mirrors ((net.withFlows F).removeTable id) (net.removeTable id) := by
  have htable : (net.withFlows F).table? id = net.table? id := rfl
  have hranking : (net.withFlows F).ranking id = net.ranking id := rfl
  simp only [removeTable, htable, hranking]
  split
  · exact mirrors_refused hfirm hH fun _ ↦ by simp
  refine mirrors_change hH fun event budget ↦ ?_
  have hL := hfirm.inv.layout
  have hkeys : (net.ranking id).map Prod.snd = (net.rulesAt id).map fun e ↦ e.2.key := by
    rw [ranking_eq hL.nodup hL.found, List.map_map]
    rfl
  refine safe_bind (safe_forM (I := Awaits) ⟨hfirm.quiet (quiet_begin net event budget),
    hkeys ▸ nodup_rulesAt (map_key_cores net ▸ hL.nodup), fun key hkey ↦ ?_⟩ fun _ _ _ _ hA ↦
      hA.removeRuleNode) fun _ _ _ ↦ ?_
  · rw [hkeys] at hkey
    obtain ⟨⟨index, m⟩, hm, rfl⟩ := List.mem_map.1 hkey
    obtain ⟨hm, r, hr, -⟩ := mem_rulesAt.1 hm
    exact ⟨m.core, List.mem_map_of_mem hm, rfl, _, _, _, kind_of_rule? hr⟩
  · exact safe_updateRest (fun _ ↦ rfl) rfl rfl (fun hfit ↦ hfit.nodes) (fun hfit ↦ hfit.pipes)
      fun hfit ↦ hfit.influences

theorem mirrors_addLink {l : Link} :
    Mirrors ((net.withFlows F).addLink l) (net.addLink l) := by
  have htargets : (net.withFlows F).targets l.source = net.targets l.source := rfl
  simp only [addLink, htargets]
  split
  · exact mirrors_done hH
  rename_i hnew
  refine mirrors_change hH fun event budget ↦ ?_
  refine safe_bind (safe_updateRest (fun _ ↦ rfl) rfl rfl (fun hfit ↦ hfit.nodes)
    (fun hfit ↦ hfit.pipes) fun hfit ↦ hfit.influences) fun _ mid hl ↦ ?_
  obtain rfl := leads_update.1 hl
  have hbegin := (hfirm.quiet (quiet_begin net event budget)).lax
  have hlinked : Upheld { net with
      lastEvent := event
      budget := budget
      topology := net.topology.join l } Set.univ ∅ (fun _ _ _ ↦ True) fun _ _ ↦ True :=
    hbegin.relink
      (hfirm.inv.layout.mirrored.join (mt Topology.mem_links.1 (mt List.contains_iff_mem.2 hnew)))
      (fun fwd w hw ↦ Topology.mem_links_join.2 (.inl (hbegin.inv.layout.link hw)))
      fun _ _ _ _ hnot ↦ absurd trivial hnot
  exact safe_connectLink hlinked.firm (Topology.mem_links_join.2 (.inr rfl))

theorem mirrors_removeLink {l : Link} :
    Mirrors ((net.withFlows F).removeLink l) (net.removeLink l) := by
  have htargets : (net.withFlows F).targets l.source = net.targets l.source := rfl
  simp only [removeLink, htargets]
  split
  · exact mirrors_refused hfirm hH fun _ ↦ by simp
  refine mirrors_change hH fun event budget ↦ ?_
  refine safe_bind (safe_disconnectLink (hfirm.quiet (quiet_begin net event budget))) fun _ _ _ ↦ ?_
  exact safe_updateRest (fun _ ↦ rfl) rfl rfl (fun hfit ↦ hfit.nodes) (fun hfit ↦ hfit.pipes)
    fun hfit ↦ hfit.influences

end

/-! ### Rules -/

theorem unbroken_checkLength (net : Network) (p : Pattern) : Unbroken (net.checkLength p) := by
  rw [checkLength]
  split
  · exact unbroken_ok
  · rintro e ⟨⟩
    simp

theorem unbroken_checkOverwrite (net : Network) (mask value : Option Pattern) :
    Unbroken (net.checkOverwrite mask value) := by
  cases mask with
  | none =>
    cases value with
    | none => exact unbroken_ok
    | some v =>
      rintro e ⟨⟩
      simp
  | some m =>
    cases value with
    | none =>
      rintro e ⟨⟩
      simp
    | some v =>
      exact (unbroken_checkLength net m).bind fun _ ↦ (unbroken_checkLength net v).bind fun _ ↦
        unbroken_ok

/-- **A description of a rule that does not fit is refused.** -/
theorem unbroken_ruleNode (net : Network) (spec : RuleSpec) : Unbroken (net.ruleNode spec) := by
  rw [ruleNode]
  split
  · dsimp only
    split
    · rintro e ⟨⟩
      simp
    · exact (unbroken_checkLength net _).bind fun _ ↦
        (unbroken_checkOverwrite net _ _).bind fun _ ↦ unbroken_ok
  · rintro e ⟨⟩
    simp

/-- A rule whose description fits has the length of the headers. -/
theorem RuleFits.fit {spec : RuleSpec} {t : Table} {w : Option Overwrite}
    (hfits : net.RuleFits spec t w) (key : NodeKey) : (nodeOf spec t w key).Fit net.bytes where
  accepts := by
    rintro _ ⟨⟩
    exact hfits.accepts
  sends := by
    cases w with
    | none => exact hfits.accepts
    | some o => exact Pattern.bytes_replaceMasked.trans hfits.accepts
  role := hfits.overwrite

/-- **Adding a rule**, step by step; the rule that was at its place goes first. -/
theorem mirrors_addRule {spec : RuleSpec} (hfirm : net.Firm) (hH : net.Hides n G F) :
    Mirrors ((net.withFlows F).addRule spec) (net.addRule spec) := by
  have hsame : (net.withFlows F).ruleNode spec = net.ruleNode spec := rfl
  simp only [addRule, hsame]
  cases hnode : net.ruleNode spec with
  | error e => exact mirrors_refused hfirm hH ((unbroken_ruleNode net spec).faultless hnode)
  | ok node =>
    obtain ⟨t, w, hfits, rfl⟩ := of_ruleNode hnode
    refine mirrors_change hH fun event budget ↦ ?_
    have hbegin := hfirm.quiet (quiet_begin net event budget)
    refine safe_bind (safe_removeOld hbegin) fun _ net₁ hold ↦ ?_
    obtain ⟨hU₁, hplace, htables, -⟩ := removeOld_upheld hold rfl hbegin.lax
    refine safe_bind (safe_addNode fun k ↦ hH.bytes ▸ hfits.fit k) fun key net₂ hadd ↦ ?_
    obtain ⟨hU₂, -, -, -, hm₂, hfree₂⟩ := upheld_addNode hadd hU₁ (fun _ ↦ rfl)
      (fun _ ↦ ⟨rfl, rfl, rfl, rfl, rfl⟩) hfits.proper (hfits.admits htables hplace _)
    refine safe_bind (safe_relate hU₂.firm hm₂) fun _ net₃ hrelate ↦ ?_
    have hcore₂ := Layout.core?_of_nodeAt? hm₂
    obtain ⟨hU₃, hflows₃, hcores₃⟩ := upheld_relate hrelate hU₂ hcore₂ ⟨_, _, _, rfl⟩ hfree₂
    have hcore₃ : net₃.layout.core? key = some (nodeOf spec t w key).core := by
      rw [Layout.core?, hcores₃]
      exact hcore₂
    obtain ⟨m₃, hm₃, -⟩ := exists_nodeAt? hcore₃
    refine safe_bind (safe_connect hU₃.firm hm₃) fun _ net₄ hconnect ↦ ?_
    obtain ⟨hfirm₄, hplan⟩ := hconnect.firm_connect hU₃.firm (hflows₃ ▸ hfree₂)
    obtain ⟨m₄, hm₄, -⟩ := exists_nodeAt? (hplan.core?.trans (Layout.core?_of_nodeAt? hm₃))
    refine safe_bind (safe_takeWon hfirm₄ hm₄) fun _ net₅ htake ↦ ?_
    obtain ⟨hU₅, hframe⟩ := upheld_takeWon (D := Set.univ) htake
      { hfirm₄.lax with inv := hfirm₄.inv.mono fun _ _ ↦ .inl trivial }
    obtain ⟨m₅, hm₅, -⟩ := node_of_layout hframe.layout hm₄
    exact safe_bind (safe_pull hU₅.firm hm₅) fun _ _ _ ↦ safe_pure

/-- A node that is not there is asked for in vain, and one that is there is found. -/
theorem unbroken_require (hL : net.layout.WellFormed) (id : NodeId) :
    Unbroken (net.require id) := by
  rw [require_eq hL]
  split
  · exact unbroken_ok
  · rintro e ⟨⟩
    simp

/-- Looking up a node refuses the change or finds the node. -/
theorem unbroken_expect (hL : net.layout.WellFormed) (id : NodeId) (type : NodeType)
    (expected : ExpectedRole) : Unbroken (net.expect id type expected) := by
  refine (unbroken_require hL id).bind fun m ↦ ?_
  split
  · exact unbroken_ok
  · rintro e ⟨⟩
    simp

/-- **A change of a node that must be of a certain type** is refused, or the node is there. -/
theorem mirrors_expect {id : NodeId} {type : NodeType} {expected : ExpectedRole}
    {k : Node → Outcome α} {k' : Node → Outcome α} (hfirm : net.Firm) (hH : net.Hides n G F)
    (hk : ∀ m ∈ net.nodes, net.nodeAt? m.key = some m → Mirrors (k m) (k' m)) :
    Mirrors
      (match (net.withFlows F).expect id type expected with
        | .error e => .refused (net.withFlows F) e
        | .ok m => k m)
      (match net.expect id type expected with
        | .error e => .refused net e
        | .ok m => k' m) := by
  have hsame : (net.withFlows F).expect id type expected = net.expect id type expected := rfl
  rw [hsame]
  cases hm : net.expect id type expected with
  | error e =>
    exact mirrors_refused hfirm hH
      ((unbroken_expect hfirm.inv.layout id type expected).faultless hm)
  | ok m =>
    have hmem := (of_expect hm).1
    exact hk m hmem (nodeAt?_of_mem (map_key_cores net ▸ hfirm.inv.layout.nodup) hmem)

theorem mirrors_removeRule {id : NodeId} (hfirm : net.Firm) (hH : net.Hides n G F) :
    Mirrors ((net.withFlows F).removeRule id) (net.removeRule id) :=
  mirrors_expect hfirm hH fun _ _ hm ↦ mirrors_change hH fun event budget ↦
    safe_removeRuleNode (hfirm.quiet (quiet_begin net event budget)) hm

/-! ### Sources and probes

Only here something is asked of the arguments beyond what the change checks, and only here is there
an identifier to run out of. -/

/-- The patterns of the space have one length, at most that of the headers. -/
def Askable (net : Network) (s : Space) : Prop := s.Uniform ∧ s.bytes ≤ net.bytes

/-- The spaces that come with a change have patterns of one length each, and a probe asks about no
headers longer than those of the network. Everything else is checked by the change itself. -/
def Coherent (net : Network) : Mutation → Prop
  | .addSource space _ => space.Uniform
  | .addProbe spec => spec.filter.Spaces net.Askable ∧ spec.test.Spaces net.Askable
  | _ => True

/-- There is an identifier for what the change adds. **There is none only once 2⁶⁴ - 1 have been
given to sources and probes**, all of which would have taken a place among the nodes before. -/
def Identifies (net : Network) : Mutation → Prop
  | .addSource .. | .addSourcePattern .. | .addProbe _ => net.nextId.toNat + 1 ≠ UInt64.size
  | _ => True

theorem freshId_of_identifies (hid : net.nextId.toNat + 1 ≠ UInt64.size) :
    net.freshId = .ok net.nextId :=
  freshId_eq_ok.2 ⟨hid, rfl⟩

theorem mirrors_removeSource {id : NodeId} (hfirm : net.Firm) (hH : net.Hides n G F) :
    Mirrors ((net.withFlows F).removeSource id) (net.removeSource id) :=
  mirrors_expect hfirm hH fun _ _ hm ↦ mirrors_change hH fun event budget ↦
    safe_removePlainNode (hfirm.quiet (quiet_begin net event budget)) hm

/-- A probe is stopped first, which is quiet. -/
theorem mirrors_stopProbe {id : NodeId} {k : NodeKey → Engine Unit} (hfirm : net.Firm)
    (hH : net.Hides n G F)
    (hk : ∀ mid key m, mid.Firm → mid.nodeAt? key = some m → Safe n (k key) mid) :
    Mirrors
      (match (net.withFlows F).expect id .sourceProbe .probe with
        | .error e => .refused (net.withFlows F) e
        | .ok m => (net.withFlows F).carryOut do stopProbe m.key; k m.key)
      (match net.expect id .sourceProbe .probe with
        | .error e => .refused net e
        | .ok m => net.carryOut do stopProbe m.key; k m.key) := by
  refine mirrors_expect hfirm hH fun m _ hm ↦ mirrors_carryOut hH ?_
  have hbegin := hfirm.quiet (Quiet.budget net net.budget.reset)
  refine safe_bind (safe_stopProbe hm) fun _ mid hstop ↦ ?_
  have hquiet := quiet_stopProbe hstop (map_key_cores net ▸ hfirm.inv.layout.nodup)
  obtain ⟨m', hm', -⟩ := node_of_layout hquiet.layout hm
  exact hk mid m.key m' (hbegin.quiet hquiet) hm'

theorem mirrors_removeProbe {id : NodeId} (hfirm : net.Firm) (hH : net.Hides n G F) :
    Mirrors ((net.withFlows F).removeProbe id) (net.removeProbe id) :=
  mirrors_stopProbe hfirm hH fun _ _ _ hmid hm ↦ safe_removePlainNode hmid hm

theorem mirrors_restartProbe {id : NodeId} (hfirm : net.Firm) (hH : net.Hides n G F) :
    Mirrors ((net.withFlows F).restartProbe id) (net.restartProbe id) :=
  mirrors_stopProbe hfirm hH fun _ _ _ hmid hm ↦ safe_startProbe hmid hm

/-- **Adding a source.** Its space has patterns of one length, and a longer or shorter one is
refused. -/
theorem mirrors_addSource {space : Space} {ports : List Port} (hfirm : net.Firm)
    (hH : net.Hides n G F) (hspace : space.Uniform) (hid : net.nextId.toNat + 1 ≠ UInt64.size) :
    Mirrors ((net.withFlows F).addSource space ports) (net.addSource space ports) := by
  have hfresh : (net.withFlows F).freshId = .ok net.nextId := freshId_of_identifies hid
  simp only [addSource, hfresh, freshId_of_identifies hid]
  split
  · exact mirrors_refused hfirm hH fun _ ↦ by simp
  rename_i hbytes
  have hover : space.Over n := ⟨(not_not.1 hbytes).trans hH.bytes, hspace⟩
  have hH' : Network.Hides { net with nextId := net.nextId + 1 } n G F :=
    hH.quiet rfl rfl rfl rfl rfl
  refine mirrors_change hH' fun event budget ↦ ?_
  refine safe_addPlain (hfirm.quiet ⟨rfl, rfl, rfl⟩) (fun _ ↦ rfl)
    (fun _ ↦ ⟨rfl, rfl, rfl, rfl, rfl⟩) (fun _ ↦ ⟨rfl, rfl, fun x ↦ Pattern.matches_allWild _ x⟩)
    (fun _ ↦ by rintro ⟨_, _, _, ⟨⟩⟩) (fun _ ↦ ⟨by rintro _ ⟨⟩, hH.bytes, trivial⟩)
    fun key mid m hmid hm hcore ↦ safe_of_fit ?_
  rintro rfl -
  have hrole := role_of_kind (congrArg Core.kind hcore)
  refine safe_bind (safe_insertFlow ⟨hover, by rintro _ ⟨⟩; exact hover⟩) fun root mid₁ hinsert ↦ ?_
  obtain ⟨rfl, rfl⟩ := leads_insertFlow.1 hinsert
  refine safe_bind (safe_alterNode hm (safe_updateNode_of_eq fun _ ↦ ⟨rfl, rfl, rfl⟩))
    fun _ mid₂ hlist ↦ ?_
  obtain ⟨-, rfl⟩ := leads_alterNode.1 hlist
  have hroot : (withRoot mid key space).Firm := hmid.propagate
    ((inv_insertRoot space hmid.inv hm hrole).mono fun _ _ ↦ trivial) (layout_withRoot space)
  refine safe_bind (safe_arriveRoot (f := .root key mid.flows.nextHandle space) hroot
    (Arena.find?_insert_self hmid.inv.valid) (nodeAt?_withRoot hm) hrole) fun _ _ _ ↦ safe_pure

theorem unbroken_accepts (net : Network) (spec : ProbeSpec) :
    Unbroken (spec.accepts.elim (.ok ()) net.checkLength) := by
  cases spec.accepts with
  | none => exact unbroken_ok
  | some p => exact unbroken_checkLength net p

/-- **Adding a probe.** What it asks about has to be no longer than the headers, which is not
checked. -/
theorem mirrors_addProbe {spec : ProbeSpec} (hfirm : net.Firm) (hH : net.Hides n G F)
    (hfilter : spec.filter.Spaces net.Askable) (htest : spec.test.Spaces net.Askable)
    (hid : net.nextId.toNat + 1 ≠ UInt64.size) :
    Mirrors ((net.withFlows F).addProbe spec) (net.addProbe spec) := by
  have hsame : (net.withFlows F).checkLength = net.checkLength := rfl
  have hfresh : (net.withFlows F).freshId = .ok net.nextId := freshId_of_identifies hid
  simp only [addProbe, hsame, hfresh, freshId_of_identifies hid]
  split
  · rename_i e he
    exact mirrors_refused hfirm hH ((unbroken_accepts net spec).faultless he)
  · rename_i hok
    have haccepts : (spec.accepts.getD (.allWild net.bytes)).bytes = net.bytes := by
      cases hp : spec.accepts with
      | none => rfl
      | some p => exact of_checkLength (by simpa [hp] using hok)
    have hprobe : ((Probe.new spec.mode spec.filter spec.test).enlarge net.bytes).Fit net.bytes :=
      ⟨hfilter.enlarge fun _ hs ↦ Space.Over.enlarge ⟨rfl, hs.1⟩ hs.2,
        htest.enlarge fun _ hs ↦ Space.Over.enlarge ⟨rfl, hs.1⟩ hs.2, Nat.zero_le _⟩
    have hH' : Network.Hides { net with nextId := net.nextId + 1 } n G F :=
      hH.quiet rfl rfl rfl rfl rfl
    refine mirrors_carryOut hH' (safe_addPlain (hfirm.quiet ⟨rfl, rfl, rfl⟩) (fun _ ↦ rfl)
      (fun _ ↦ ⟨rfl, rfl, rfl, rfl, rfl⟩) (fun _ ↦ ⟨rfl, rfl⟩) (fun _ ↦ by rintro ⟨_, _, _, ⟨⟩⟩)
      (fun _ ↦ hH.bytes ▸ ⟨by rintro _ ⟨⟩; exact haccepts, haccepts, hprobe⟩)
      fun key mid m hmid hm _ ↦ ?_)
    refine safe_bind (safe_pull hmid hm) fun _ mid₁ hpull ↦ ?_
    obtain ⟨hI, hframe⟩ := inv_pull (D := Set.univ) hpull (hmid.inv.mono fun _ _ ↦ .inl trivial)
    obtain ⟨m', hm', -⟩ := node_of_layout hframe.layout hm
    exact safe_bind (safe_startProbe (hmid.propagate hI hframe.layout) hm') fun _ _ _ ↦ safe_pure

/-! ### All changes -/

theorem mirrors_expand {bytes : Nat} (hH : net.Hides n G F) :
    Mirrors ((net.withFlows F).expand bytes) (net.expand bytes) := by
  have hfit := hH.fit.expand bytes
  simp only [expand] at hfit ⊢
  split
  · exact mirrors_done hH
  · rw [if_neg ‹_›] at hfit
    have hH' : Network.Hides { net with
        bytes := bytes
        nodes := net.nodes.map (Node.enlarge bytes)
        pipes := net.pipes.map fun _ p ↦ { p with pattern := p.pattern.enlarge bytes }
        influences := net.influences.map fun _ i ↦ { i with common := i.common.enlarge bytes }
        flows := net.flows.map fun _ f ↦ enlargeFlow bytes f
        lastEvent := some { kind := .expand, first := bytes } } bytes G
        (F.map fun _ f ↦ enlargeFlow bytes f) := ⟨rfl, hH.flows.map _, hfit⟩
    exact mirrors_done hH'

/-- Every change is mirrored, apart from audits, which change nothing. -/
theorem apply_mirrors {m : Mutation} (hfirm : net.Firm) (hH : net.Hides n G F) (hm : net.Coherent m)
    (hid : net.Identifies m) (hne : ∀ table, m ≠ .audit table) :
    Mirrors ((net.withFlows F).apply m) (net.apply m) := by
  cases m with
  | addTable id ports => exact (mirrors_addTable hfirm hH).map
  | removeTable id => exact (mirrors_removeTable hfirm hH).map
  | addRule spec => exact (mirrors_addRule hfirm hH).map
  | removeRule id => exact (mirrors_removeRule hfirm hH).map
  | addLink l => exact (mirrors_addLink hfirm hH).map
  | removeLink l => exact (mirrors_removeLink hfirm hH).map
  | addSource space ports => exact (mirrors_addSource hfirm hH hm hid).map
  | addSourcePattern p ports =>
    exact (mirrors_addSource hfirm hH (Space.uniform_ofPattern p) hid).map
  | removeSource id => exact (mirrors_removeSource hfirm hH).map
  | addProbe spec => exact (mirrors_addProbe hfirm hH hm.1 hm.2 hid).map
  | removeProbe id => exact (mirrors_removeProbe hfirm hH).map
  | restartProbe id => exact (mirrors_restartProbe hfirm hH).map
  | expand bytes => exact (mirrors_expand hH).map
  | audit table => exact absurd rfl (hne table)

/-- An audit has no fault. -/
theorem faultless_audit {table : Option TableId} (hL : net.layout.WellFormed) (hfit : net.Fit) :
    Faultless (net.audit table).result := by
  unfold audit
  dsimp only
  split
  · rename_i e he
    intro f hf
    obtain rfl := Except.error.inj hf
    cases table with
    | none => cases he
    | some t =>
      dsimp only at he
      split_ifs at he
      cases he
  · rename_i ts _
    obtain ⟨found, hfound, -⟩ := gives_auditTables hL hfit ts
    rw [hfound]
    exact faultless_ok

theorem Stands.fit (hs : net.Stands) : net.Fit := by
  obtain ⟨G, core, -, hH, hnet⟩ := hs
  exact hnet ▸ hH.fit

theorem Stands.wellFormed (hs : net.Stands) : net.layout.WellFormed := by
  obtain ⟨G, core, hfirm, -, hnet⟩ := hs
  exact hnet ▸ hfirm.inv.layout

/-- **A change that is given what it may be given has no fault**, and the network stands after it,
whether it came to its end or not. -/
theorem apply_stands {m : Mutation} (hs : net.Stands) (hm : net.Coherent m)
    (hid : net.Identifies m) : (net.apply m).network.Stands ∧ Faultless (net.apply m).result := by
  by_cases haudit : ∃ table, m = .audit table
  · obtain ⟨table, rfl⟩ := haudit
    refine ⟨?_, (faultless_audit hs.wellFormed hs.fit).bind fun _ ↦ faultless_ok⟩
    exact audit_network.symm ▸ hs
  · obtain ⟨G, core, hfirm, hH, hnet⟩ := hs
    rw [hnet] at hm hid ⊢
    have hM := apply_mirrors hfirm hH hm hid fun table he ↦ haudit ⟨table, he⟩
    refine ⟨?_, hM.faultless⟩
    cases hresult : ((core.withFlows net.flows).apply m).result with
    | error e => exact hM.stands e hresult
    | ok reply =>
      obtain ⟨hcore, n, G', F', hH', hnetwork⟩ := hM.done reply hresult
      rw [hnetwork]
      exact (apply_upheld hcore hfirm.lax).1.firm.stands hH'

/-- **What has a fault can only lack an identifier.** -/
def Unidentified (r : Except NetworkError α) : Prop :=
  ∀ f, r = .error (.fault f) → f = .identifiersExhausted

theorem Unidentified.map {r : Except NetworkError α} {β : Type} {k : α → β} (hr : Unidentified r) :
    Unidentified (r.map k) := fun f hf ↦ by
  cases r with
  | error e => exact hr f (congrArg Except.error (Except.error.inj hf))
  | ok a => cases hf

/-- Without an identifier nothing is added. -/
theorem addSource_of_exhausted {space : Space} {ports : List Port}
    (hid : net.nextId.toNat + 1 = UInt64.size) :
    (net.addSource space ports).network = net ∧
    Unidentified (net.addSource space ports).result := by
  rw [addSource, freshId, if_pos hid]
  split
  · exact ⟨rfl, by rintro f ⟨⟩⟩
  · exact ⟨rfl, by rintro f ⟨⟩; rfl⟩

/-- Without an identifier nothing is added. -/
theorem addProbe_of_exhausted {spec : ProbeSpec} (hid : net.nextId.toNat + 1 = UInt64.size) :
    (net.addProbe spec).network = net ∧ Unidentified (net.addProbe spec).result := by
  rw [addProbe, freshId, if_pos hid]
  split
  · rename_i e he
    exact ⟨rfl, fun f hf ↦ absurd (Except.error.inj hf) ((unbroken_accepts net spec e he).1 f)⟩
  · exact ⟨rfl, by rintro f ⟨⟩; rfl⟩

/-- **Nothing is added for which there is no identifier**, and the fault is no other. -/
theorem apply_of_exhausted {m : Mutation} (hid : ¬ net.Identifies m) :
    (net.apply m).network = net ∧ Unidentified (net.apply m).result := by
  cases m with
  | addSource space ports => exact (addSource_of_exhausted (not_not.1 hid)).imp_right .map
  | addSourcePattern p ports => exact (addSource_of_exhausted (not_not.1 hid)).imp_right .map
  | addProbe spec => exact (addProbe_of_exhausted (not_not.1 hid)).imp_right .map
  | _ => exact absurd trivial hid

end Network

end HeaderFlow
