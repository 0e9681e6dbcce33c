import HeaderFlow.Proofs.Network.Accounts
import HeaderFlow.Proofs.Network.ProbeChanges

/-!
# The books through all changes

Every change keeps the books. Wiring and influences are of no account, a new node lists nothing, and
the root of a source is the one flow that is listed before it arrives. So **in every network that
can be attained, flows that have something to send are listed, and no change is halted because a
probe counted too few of them** (`Network.Attained.books`, `Network.balances_apply`).

Together with what probes know (`Network.Watched`), this says what their notes are about: each is
about a flow on the list of the node, and this flow has headers.

## What a probe counts

A probe keeps a count beside its notes, and its verdict goes by the count. The theorem about probes,
`Network.Attained.probes_faithful`, has three parts:

* the notes are borne out by the network (`Network.BearsOut`): each is about a flow of its own that
  is listed and has headers, and the count is the number of notes that say yes;
* no change is halted because it would have to count below zero;
* whenever a running probe is told of something, it takes it into account, and reports a change of
  its verdict exactly once (`told_of_notify`).

None of this says that the notes are up to date: what a probe was told of a flow may be outdated by
now.
-/

namespace HeaderFlow

open Engine Checked

variable {α : Type} {net : Network} {R : Set Handle} {h : Handle} {f : Flow} {n : Node}
  {key : NodeKey} {p : Progress}

namespace Engine

/-! ### Wiring -/

/-- Connecting makes pipes and sends what was listed already. -/
theorem accounts_connectLink (l : Link) : Accounts R (connectLink l) := by
  refine accounts_network.bind fun net ↦ accounts_forM fun s _ ↦ accounts_forM fun r _ ↦ ?_
  refine (accounts_node _).bind fun _ ↦ (accounts_node _).bind fun _ ↦
    (accounts_check (Node.faults_overlap _ _)).bind fun o ↦ ?_
  split
  · exact (aside_addPipe _).accounts.bind fun _ ↦ accounts_sendFlows _ _
  · exact accounts_pure

theorem accounts_cutPipe (l : Link) (fwd : Handle) : Accounts R (cutPipe l fwd) := by
  refine (accounts_pipe fwd).bind fun side ↦ ?_
  split
  · exact accounts_pure
  · refine (accounts_pipe _).bind fun back ↦ ?_
    split
    · exact accounts_pure
    · refine (accounts_node _).bind fun n ↦ (accounts_forM fun h _ ↦ ?_).bind fun _ ↦
        (aside_removePipe fwd).accounts
      refine (accounts_flow? h).bind fun o ↦ ?_
      split
      · exact accounts_removeFlow h
      · exact accounts_pure

/-- Disconnecting drops the flows that came by a pipe before it drops the pipe. -/
theorem accounts_disconnectLink (l : Link) : Accounts R (disconnectLink l) :=
  accounts_network.bind fun _ ↦ accounts_forM fun _ _ ↦ (accounts_node _).bind fun _ ↦
    accounts_forM fun fwd _ ↦ accounts_cutPipe l fwd

/-! ### Influences -/

theorem accounts_takeWon (key : NodeKey) : Accounts R (takeWon key) := by
  refine (accounts_node key).bind fun n ↦ ?_
  split
  · refine accounts_forM fun k _ ↦ accounts_network.bind fun net ↦ ?_
    split
    · exact accounts_refreshFlows _ _ _
    · exact accounts_pure
  · exact accounts_pure

/-- Influences are of no account, and the flows that are refreshed are those that a node lists. -/
theorem accounts_release (key : NodeKey) : Accounts R (release key) := by
  refine (accounts_node key).bind fun n ↦ ?_
  split
  · exact (aside_mapRule _ (by exact fun _ ↦ ⟨rfl, rfl, rfl⟩)).accounts.bind fun _ ↦
      (Aside.forM aside_dropLost _).accounts.bind fun _ ↦ (aside_dropWon _).accounts.bind fun _ ↦
        accounts_forM fun _ _ ↦ accounts_refreshFlows _ _ _
  · exact accounts_pure

/-! ### Nodes and probes -/

/-- **A new node is there**, and is on the books. -/
theorem stops_addNode {node : NodeKey → Node} (hB : p.network.Books R)
    (hkey : ∀ k, (node k).key = k) (hflows : ∀ k, (node k).flows = [])
    (hsolvent : ∀ k q, (node k).probe? = some q → q.Solvent) :
    Stops (addNode node) p (Balanced R) fun _ p' ↦ p'.network.Books R := by
  rw [addNode, stops_network_bind, stops_update_bind, stops_pure]
  exact hB.addNode (hkey _) (hflows _) (hsolvent _)

/-- **A new node lists nothing**, so it is on the books as long as it is solvent if it is a
probe. -/
theorem accounts_addNode {node : NodeKey → Node} (hkey : ∀ k, (node k).key = k)
    (hflows : ∀ k, (node k).flows = []) (hsolvent : ∀ k q, (node k).probe? = some q → q.Solvent) :
    Accounts R (addNode node) := fun _ hB ↦ stops_addNode hB hkey hflows hsolvent

theorem accounts_eraseNode (key : NodeKey) : Accounts R (eraseNode key) :=
  (accounts_node key).bind fun _ ↦ accounts_update fun _ hB ↦ hB.eraseNode _

theorem accounts_removeFlows (key : NodeKey) : Accounts R (removeFlows key) :=
  (accounts_node key).bind fun _ ↦ accounts_forM fun h _ ↦ accounts_removeFlow h

/-- A rule goes with its flows first, so no flow is left whose node is gone. -/
theorem accounts_removeRuleNode (key : NodeKey) : Accounts R (removeRuleNode key) :=
  (accounts_removeFlows key).bind fun _ ↦ (aside_disconnect key).accounts.bind fun _ ↦
    (accounts_release key).bind fun _ ↦ accounts_eraseNode key

theorem accounts_removePlainNode (key : NodeKey) : Accounts R (removePlainNode key) :=
  (accounts_removeFlows key).bind fun _ ↦
    (aside_disconnect key).accounts.bind fun _ ↦ accounts_eraseNode key

/-- A probe may be put in the place of another as long as it is solvent. -/
theorem accounts_setProbe (key : NodeKey) {q : Probe} (hq : q.Solvent) :
    Accounts R (updateNode key fun n ↦ { n with role := .probe q }) :=
  accounts_update fun _ hB ↦ hB.setProbe hq

/-- **A probe that is started stays solvent.** -/
theorem accounts_startProbe (key : NodeKey) : Accounts R (startProbe key) := by
  intro p hB
  rw [startProbe]
  refine Accounts.node_bind fun n hn _ ↦ ?_
  rw [stops_setEvent_bind]
  refine Stops.ask_bind (fun f hf ↦ Network.faults_liveChains _ _ f hf) fun flows _ ↦ ?_
  have hbegin : Network.Books R { p.network with
      lastEvent := some { kind := .startProbe, first := n.id.toNat } } := hB.of_face rfl
  split
  · rename_i q hq
    have hpays := Probe.Solvent.start (hB.solvent n hn q hq) flows
    refine Stops.ask_bind (fun f hf ↦ hpays.faults f hf) fun a ha ↦ ?_
    obtain ⟨q', ts⟩ := a
    exact ((accounts_setProbe key (hpays.solvent q' ts ha)).bind fun _ ↦ accounts_forM fun _ _ ↦
      accounts_event.bind fun _ ↦ accounts_report _) _ hbegin
  · exact hbegin

/-- A probe that is stopped has forgotten everything, and is solvent for that reason. -/
theorem accounts_stopProbe (key : NodeKey) : Accounts R (stopProbe key) := by
  refine (accounts_node key).bind fun n ↦ (aside_setEvent _).accounts.bind fun _ ↦ ?_
  split
  · exact accounts_setProbe key (Probe.solvent_stop _)
  · exact accounts_pure

end Engine

/-! ### Changes -/

/-- **No count was short**, and unless a precondition was broken, the books are kept after the
change. -/
structure Outcome.Balances (o : Outcome α) : Prop where
  result : o.result ≠ .error (.fault .countUnderflow)
  books : Faultless o.result → o.network.Books ∅

/-- A change of the answer does not matter. -/
theorem Outcome.Balances.map {β : Type} {o : Outcome α} {k : α → β} (ho : o.Balances) :
    (o.map k).Balances := by
  have hsame : ∀ e, (o.map k).result = .error e ↔ o.result = .error e := by
    intro e
    cases hr : o.result <;> simp [Outcome.map, Except.map, hr]
  exact ⟨fun hcount ↦ ho.result ((hsame _).1 hcount), fun hfaultless ↦
    ho.books fun f hf ↦ hfaultless f ((hsame _).2 hf)⟩

namespace Network

open Outcome

/-- A change that is refused leaves the books as they are. -/
theorem balances_refused {e : NetworkError} (hB : net.Books ∅) (he : e ≠ .fault .countUnderflow) :
    Balances (refused net e : Outcome α) := ⟨fun heq ↦ he (Except.error.inj heq), fun _ ↦ hB⟩

theorem balances_done {a : α} (hB : net.Books ∅) : Balances (done net a) :=
  ⟨by rintro ⟨⟩, fun _ ↦ hB⟩

/-- **A change that keeps the books balances**, however it ends. -/
theorem balances_carryOut {change : Engine α} (hB : net.Books ∅) (hchange : Accounts ∅ change) :
    Balances (net.carryOut change) := by
  have hbegin : Books ∅ { net with budget := net.budget.reset } := hB.of_face rfl
  have hrun := hchange ⟨_, []⟩ hbegin
  simp only [Stops] at hrun
  rw [carryOut]
  simp only [EStateM.run]
  cases hout : change ⟨{ net with budget := net.budget.reset }, []⟩ with
  | ok a p =>
    rw [hout] at hrun
    exact ⟨by rintro ⟨⟩, fun _ ↦ hrun⟩
  | error e p =>
    rw [hout] at hrun
    cases e with
    | overrun o => exact ⟨by rintro ⟨⟩, fun _ ↦ Books.of_face hrun rfl⟩
    | fault f =>
      refine ⟨fun heq ↦ hrun ?_, fun hfaultless ↦ absurd rfl (hfaultless f)⟩
      exact NetworkError.fault.inj (Except.error.inj heq)

theorem balances_addTable {id : TableId} {ports : List Port} (hB : net.Books ∅) :
    Balances (net.addTable id ports) := by
  rw [addTable]
  split
  · exact balances_refused hB (by rintro ⟨⟩)
  · split
    · exact balances_refused hB (by rintro ⟨⟩)
    · exact balances_done (hB.of_face rfl)

theorem balances_removeTable {id : TableId} (hB : net.Books ∅) : Balances (net.removeTable id) := by
  rw [removeTable]
  split
  · exact balances_refused hB (by rintro ⟨⟩)
  · exact balances_carryOut hB <| (aside_setEvent _).accounts.bind fun _ ↦
      (accounts_forM fun key _ ↦ accounts_removeRuleNode key).bind fun _ ↦
        (aside_update (by exact fun _ ↦ rfl)).accounts

theorem balances_addRule {spec : RuleSpec} (hB : net.Books ∅) : Balances (net.addRule spec) := by
  rw [addRule]
  cases hnode : net.ruleNode spec with
  | error e => exact balances_refused hB ((unbroken_ruleNode net spec e hnode).1 _)
  | ok node =>
    obtain ⟨t, w, -, rfl⟩ := of_ruleNode hnode
    refine balances_carryOut hB <| (aside_setEvent _).accounts.bind fun _ ↦
      (accounts_forM fun _ _ ↦ accounts_removeRuleNode _).bind fun _ ↦
        (accounts_addNode (fun _ ↦ rfl) (fun _ ↦ rfl) (by rintro k q ⟨⟩)).bind fun key ↦ ?_
    exact (aside_relate key).accounts.bind fun _ ↦ (aside_connect key).accounts.bind fun _ ↦
      (accounts_takeWon key).bind fun _ ↦ (accounts_pull key).bind fun _ ↦ accounts_pure

/-- A change of a node that must be of a certain type. -/
theorem balances_expect {id : NodeId} {type : NodeType} {expected : ExpectedRole}
    {k : Node → Outcome α} (hB : net.Books ∅) (hk : ∀ m, Balances (k m)) :
    Balances (match net.expect id type expected with
      | .error e => .refused net e
      | .ok m => k m) := by
  split
  · rename_i e he
    refine balances_refused hB ?_
    obtain ⟨key, rfl⟩ | rfl | rfl := expect_eq_error he <;> simp
  · exact hk _

theorem balances_removeRule {id : NodeId} (hB : net.Books ∅) : Balances (net.removeRule id) :=
  balances_expect hB fun _ ↦ balances_carryOut hB <| (aside_setEvent _).accounts.bind fun _ ↦
    accounts_removeRuleNode _

theorem balances_addLink {l : Link} (hB : net.Books ∅) : Balances (net.addLink l) := by
  rw [addLink]
  split
  · exact balances_done hB
  · exact balances_carryOut hB <| (aside_setEvent _).accounts.bind fun _ ↦
      (aside_update (by exact fun _ ↦ rfl)).accounts.bind fun _ ↦ accounts_connectLink l

theorem balances_removeLink {l : Link} (hB : net.Books ∅) : Balances (net.removeLink l) := by
  rw [removeLink]
  split
  · exact balances_refused hB (by rintro ⟨⟩)
  · exact balances_carryOut hB <| (aside_setEvent _).accounts.bind fun _ ↦
      (accounts_disconnectLink l).bind fun _ ↦
      (aside_update (by exact fun _ ↦ rfl)).accounts

/-- **The root is off the books for one step**: it has headers to send before it is listed. -/
theorem balances_addSource {space : Space} {ports : List Port} (hB : net.Books ∅) :
    Balances (net.addSource space ports) := by
  rw [addSource]
  split
  · exact balances_refused hB (by rintro ⟨⟩)
  split
  · rename_i f hf
    exact balances_refused hB fun he ↦ net.faults_freshId f hf (NetworkError.fault.inj he)
  · refine balances_carryOut (hB.of_face rfl) <| (aside_setEvent _).accounts.bind fun _ ↦
      (accounts_addNode (fun _ ↦ rfl) (fun _ ↦ rfl) (by rintro k q ⟨⟩)).bind fun key ↦
        (aside_connect key).accounts.bind fun _ p hB' ↦ ?_
    -- if the node were not there, the books would be wrong, but then the change is halted
    rw [stops_insertFlow_bind, alterNode, bind_assoc]
    refine Accounts.node_bind fun n hn hkey ↦ ?_
    rw [updateNode, stops_update_bind]
    have hself :=
      Arena.find?_insert_self (v := .root key p.network.flows.nextHandle space) hB'.valid
    exact (receives_arrive ∅ key _ _ _ (hB'.addRoot hn hkey rfl rfl) hself rfl).bind
      fun _ _ hend ↦ hend

theorem balances_removeSource {id : NodeId} (hB : net.Books ∅) : Balances (net.removeSource id) :=
  balances_expect hB fun _ ↦ balances_carryOut hB <| (aside_setEvent _).accounts.bind fun _ ↦
    accounts_removePlainNode _

/-- A new probe pulls what arrives before it is started, and is told of nothing until then. -/
theorem balances_addProbe {spec : ProbeSpec} (hB : net.Books ∅) : Balances (net.addProbe spec) := by
  rw [addProbe]
  split
  · rename_i e he
    exact balances_refused hB ((unbroken_accepts net spec e he).1 _)
  split
  · rename_i f hf
    exact balances_refused hB fun he ↦ net.faults_freshId f hf (NetworkError.fault.inj he)
  · refine balances_carryOut (hB.of_face rfl) <|
      (accounts_addNode (fun _ ↦ rfl) (fun _ ↦ rfl) ?_).bind fun key ↦
        (aside_connect key).accounts.bind fun _ ↦
        (accounts_pull key).bind fun _ ↦ (accounts_startProbe key).bind fun _ ↦ accounts_pure
    rintro k q ⟨⟩
    exact Probe.Solvent.enlarge (Probe.solvent_new _ _ _) _

theorem balances_removeProbe {id : NodeId} (hB : net.Books ∅) : Balances (net.removeProbe id) :=
  balances_expect hB fun _ ↦ balances_carryOut hB <| (accounts_stopProbe _).bind fun _ ↦
    accounts_removePlainNode _

theorem balances_restartProbe {id : NodeId} (hB : net.Books ∅) : Balances (net.restartProbe id) :=
  balances_expect hB fun _ ↦ balances_carryOut hB <| (accounts_stopProbe _).bind fun _ ↦
    accounts_startProbe _

/-- Widening leaves all lists and counts what they are. -/
theorem balances_expand {bytes : Nat} (hB : net.Books ∅) : Balances (net.expand bytes) := by
  rw [expand]
  split
  · exact balances_done hB
  refine balances_done ?_
  -- first the nodes, with the flows as they were, and then the flows
  have hnodes : Books ∅ { net with
      bytes := bytes
      nodes := net.nodes.map (Node.enlarge bytes)
      pipes := net.pipes.map fun _ p ↦ { p with pattern := p.pattern.enlarge bytes }
      influences := net.influences.map fun _ i ↦ { i with common := i.common.enlarge bytes }
      lastEvent := some { kind := .expand, first := bytes } } := by
    refine hB.of_map rfl rfl rfl (fun _ ↦ rfl) (fun _ _ _ ↦ .inl) (fun _ _ _ ↦ .inl)
      fun n hn q hq ↦ ?_
    cases hrole : n.role with
    | rule r => simp [Node.enlarge, Node.probe?, hrole] at hq
    | source => simp [Node.enlarge, Node.probe?, hrole] at hq
    | probe p =>
      obtain rfl : p.enlarge bytes = q := by simpa [Node.enlarge, Node.probe?, hrole] using hq
      exact (hB.solvent n hn p (by rw [Node.probe?, hrole])).enlarge bytes
  refine hnodes.withFlows (Arena.valid_map (k := fun _ f ↦ enlargeFlow bytes f) hB.valid)
    (fun h hh ↦ hh.withFlows Arena.past_map.2 fun f hf ↦ .inr ⟨enlargeFlow bytes f, ?_, rfl⟩)
      fun h f' hf' ↦ ?_
  · rw [Arena.find?_map, hf]
    rfl
  · rw [Arena.find?_map] at hf'
    obtain ⟨f, hf, rfl⟩ := Option.map_eq_some_iff.1 hf'
    exact ⟨hnodes.children h f hf, fun hs ↦ hnodes.processed h f hf fun hnone ↦ hs (by
      rw [enlargeFlow, hnone]
      rfl)⟩

theorem balances_audit {table : Option TableId} (hB : net.Books ∅) :
    Balances (net.audit table) := by
  refine ⟨?_, fun _ ↦ audit_network ▸ hB⟩
  unfold audit
  dsimp only
  split
  · rename_i e he
    intro heq
    obtain rfl := Except.error.inj heq
    cases table with
    | none => cases he
    | some t =>
      dsimp only at he
      split_ifs at he
      cases he
  · split
    · rename_i f hf
      exact fun heq ↦ net.faults_auditTables _ f hf (NetworkError.fault.inj (Except.error.inj heq))
    · rintro ⟨⟩

/-- **No change is halted because a count is short, and the books are kept.** -/
theorem balances_apply (hB : net.Books ∅) (m : Mutation) : Balances (net.apply m) := by
  cases m with
  | addTable id ports => exact (balances_addTable hB).map
  | removeTable id => exact (balances_removeTable hB).map
  | addRule spec => exact (balances_addRule hB).map
  | removeRule id => exact (balances_removeRule hB).map
  | addLink l => exact (balances_addLink hB).map
  | removeLink l => exact (balances_removeLink hB).map
  | addSource space ports => exact (balances_addSource hB).map
  | addSourcePattern p ports => exact (balances_addSource hB).map
  | removeSource id => exact (balances_removeSource hB).map
  | addProbe spec => exact (balances_addProbe hB).map
  | removeProbe id => exact (balances_removeProbe hB).map
  | restartProbe id => exact (balances_restartProbe hB).map
  | expand bytes => exact (balances_expand hB).map
  | audit table => exact (balances_audit hB).map

/-- **In every network that can be attained, flows that have something to send are listed.** -/
theorem Attained.books (ha : Attained net) : net.Books ∅ := by
  induction ha with
  | new bytes settings clock =>
    exact ⟨(by rintro n ⟨⟩), Arena.valid_empty, (by rintro n ⟨⟩),
      fun h f hf ↦ absurd hf (Arena.find?_empty_ne h f),
      fun h f hf ↦ absurd hf (Arena.find?_empty_ne h f), (by rintro n ⟨⟩), (by rintro h ⟨⟩)⟩
  | apply m _ hfaultless ih => exact (balances_apply ih m).books hfaultless

/-! ### What a probe has noted -/

/-- **The network bears out what the probe at a node has noted**: each note is about a flow of its
own, which is listed at the node and has headers, and the notes that decide are counted. -/
structure BearsOut (net : Network) (n : Node) (p : Probe) : Prop where
  count : p.deciding = p.results.countP fun e ↦ p.decides e.2
  once : (p.results.map Prod.fst).Nodup
  noted : ∀ e ∈ p.results, e.1 ∈ n.flows ∧ ∃ f s, net.flows.find? e.1 = some f ∧ f.node = n.key ∧
    f.processed = some s ∧ s.isEmpty = false
  /-- The count suffices for whatever the probe is told next. -/
  enough : ∀ flow change, p.update flow change ≠ .error .countUnderflow

/-- **What a probe knows of is listed**, because it has headers. -/
theorem Attained.bearsOut (ha : Attained net) (hn : n ∈ net.nodes) {q : Probe}
    (hq : n.probe? = some q) : net.BearsOut n q := by
  have hB := ha.books
  have hknows := (ha.watched.nodes n hn).probe q hq
  refine ⟨hknows.count, hknows.once, fun e he ↦ ?_, fun flow change hcount ↦
    ((hB.solvent n hn q hq).update flow change).faults _ hcount rfl⟩
  obtain ⟨-, f, hf, hnode, hlive⟩ := hknows.known e he
  have halive : f.processed.any (fun s ↦ !s.isEmpty) = true :=
    hlive.resolve_left (Set.notMem_empty _)
  obtain ⟨s, hs, hheaders⟩ := (Option.any_eq_true _ _).1 halive
  -- a flow that has headers has been listed, and it is there
  have henrolled := hB.processed e.1 f hf (by rw [hs]; exact Option.some_ne_none s)
  exact ⟨henrolled.mem hf hn hnode.symm, f, s, hf, hnode, hs, by simpa using hheaders⟩

/-- **Telling a running probe**: it takes the change into account, and what it says of it is
reported, once. -/
theorem told_of_notify {change : Network → Checked FlowChange} {p' : Progress} {q : Probe}
    (hn : p.network.nodeAt? key = some n) (hq : n.probe? = some q) (hrunning : q.isRunning = true)
    (hrun : notify key h change p = .ok () p') : ∃ c q' t, change p.network = .ok c ∧
      q.update h c = .ok (q', t) ∧
      p'.network = withNode p.network key (fun n ↦ { n with role := .probe q' }) ∧
      p'.reports = (t.map fun t ↦ Report.probe n.id (some h) t p.network.lastEvent).toList ++
        p.reports := by
  suffices hstops : Stops (notify key h change) p (fun _ _ ↦ True) fun _ p' ↦ ∃ c q' t,
      change p.network = .ok c ∧ q.update h c = .ok (q', t) ∧
      p'.network = withNode p.network key (fun n ↦ { n with role := .probe q' }) ∧
      p'.reports = (t.map fun t ↦ Report.probe n.id (some h) t p.network.lastEvent).toList ++
        p.reports by
    rwa [Stops, hrun] at hstops
  refine Stops.node_bind (fun _ ↦ trivial) fun m hm ↦ ?_
  obtain rfl := Option.some.inj (hm.symm.trans hn)
  simp only [hq, hrunning, Bool.not_true, Bool.false_eq_true, if_false]
  refine Stops.ask_bind (fun _ _ ↦ trivial) fun c hc ↦
    Stops.ask_bind (fun _ _ ↦ trivial) fun a hq' ↦ ?_
  obtain ⟨q', t⟩ := a
  cases t with
  | none => exact ⟨c, q', none, hc, hq', rfl, rfl⟩
  | some t => exact ⟨c, q', some t, hc, hq', rfl, rfl⟩

/-- **A probe counts and reports faithfully.** In every network that can be attained, its notes are
borne out, and no change is halted because it counted too few flows. Whatever a probe is told, what
it says tells whether its verdict changed, and otherwise whether its count went up or down, and it
is silent if the count stays. What a running probe says is reported, once, and nothing else is. -/
theorem Attained.probes_faithful (ha : Attained net) :
    (∀ n ∈ net.nodes, ∀ p, n.probe? = some p → net.BearsOut n p) ∧
    (∀ m, (net.apply m).result ≠ .error (.fault .countUnderflow)) ∧
    (∀ (p q : Probe) (flow : Handle) (change : FlowChange) (t : Option Transition),
      p.update flow change = .ok (q, t) → p.Announces q t) ∧
    ∀ (a b : Progress) (key : NodeKey) (n : Node) (p : Probe) (flow : Handle)
      (change : Network → Checked FlowChange), a.network.nodeAt? key = some n → n.probe? = some p →
      p.isRunning = true → notify key flow change a = .ok () b → ∃ c q t, change a.network = .ok c ∧
        p.update flow c = .ok (q, t) ∧
        b.network = withNode a.network key (fun n ↦ { n with role := .probe q }) ∧
        b.reports = (t.map fun t ↦ Report.probe n.id (some flow) t a.network.lastEvent).toList ++
          a.reports :=
  ⟨fun _ hn _ hp ↦ ha.bearsOut hn hp, fun m ↦ (balances_apply ha.books m).result,
    fun _ _ _ _ _ h ↦ (Probe.turns_of_update h).announces, fun _ _ _ _ _ _ _ ↦ told_of_notify⟩

/-- A source before a rule with two ways to a probe that asks that no flow come. -/
def twoWays : Network :=
  [.addTable 1 [11, 12, 13], .addLink ⟨1, 11⟩, .addLink ⟨12, 21⟩, .addLink ⟨13, 22⟩,
    .addRule
      { table := 1, index := 1, inPorts := [11], outPorts := [12, 13], accepts := .allWild 1 },
    .addProbe { mode := .universal, filter := .always, test := .never, ports := [21, 22] },
    .addSourcePattern (.allWild 1) [1]].foldl (fun net m ↦ (net.apply m).network) (.new 1 .default)

/-- Two flows are noted and counted, and the probe says so when one of the ways is cut. -/
theorem probes_faithful_twoWays : ∃ n p, twoWays.node? 1 = some n ∧
    n.probe? = some p ∧ p.deciding = 2 ∧
    twoWays.BearsOut n p ∧
    (twoWays.apply (.removeLink ⟨12, 21⟩)).result ≠ .error (.fault .countUnderflow) ∧
    (twoWays.apply (.removeLink ⟨12, 21⟩)).reports.map (fun
      | .probe id _ t _ => some (id, t)
      | _ => none) = [some (1, .lessFalse)] := by
  have harises : Arises twoWays := by
    refine .apply _ (.apply _ ?_ ⟨trivial, trivial⟩) trivial
    repeat refine .apply _ ?_ trivial
    exact .new _ _
  obtain ⟨hborne, hcounts, -⟩ := harises.attained.probes_faithful
  have htwo : ((twoWays.node? 1).bind Node.probe?).map Probe.deciding = some 2 := by decide +kernel
  obtain ⟨p, hp, hdeciding⟩ := Option.map_eq_some_iff.1 htwo
  obtain ⟨n, hn, hp⟩ := Option.bind_eq_some_iff.1 hp
  exact ⟨n, p, hn, hp, hdeciding,
    hborne n (mem_of_node? hn) p hp, hcounts (.removeLink ⟨12, 21⟩), by decide +kernel⟩

end Network

end HeaderFlow
