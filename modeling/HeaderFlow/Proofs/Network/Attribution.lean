import HeaderFlow.Proofs.Network.Reporting
import HeaderFlow.Proofs.Network.Signing

/-!
# Which change a report names

A report names the change during which it was made, so that it tells what caused it, with one
exception (`Network.Arises.reports_name`). **A probe is joined to the network before it is
started**, and only its start is recorded. Headers that get lost on the way to the new probe are
reported before that: such a report names the change before, or none.

Every other change says what it is before it does anything else, and all that follows signs with it.
That nothing but lost headers is reported while a probe is joined is due to where flows go. Along
the pipes that lead to a node they arrive at this node and nowhere else (`Engine.Waiting`), a probe
that waits for its start says nothing, and nothing leaves it.

## How it is shown

`All P` says of the reports so far that each of them has `P`, and `Confined I P` of a computation
that it keeps `I` and makes no reports but such with `P`, wherever it stops. For a change that
records itself first, `I` is that the record is still there and `P` that a report names it
(`names_carryOut`); that covers all changes but those of probes.

A change of a probe is taken apart: the record is written by `startProbe` and `stopProbe`, and what
stands at the node of the probe (`Engine.Houses`) has to be known up to that point, because the
record has the identifier of the node.
-/

namespace HeaderFlow

open Engine

variable {α : Type} {net : Network} {I : Network → Prop} {P : Report → Prop} {e : Option Event}
  {ev : Event} {x : Engine α} {p p' : Progress} {key : NodeKey} {id : NodeId} {n : Node} {q : Probe}
  {F : Arena Pipe}

/-! ### What a change is called -/

/-- What is recorded of a change. An audit is not recorded. -/
def Mutation.event? (net : Network) : Mutation → Option Event
  | .addTable id _ => some { kind := .addTable, first := id.toNat }
  | .removeTable id => some { kind := .removeTable, first := id.toNat }
  | .addRule spec => some { kind := .addRule, first := (ruleId spec.table spec.index).toNat }
  | .removeRule id => some { kind := .removeRule, first := id.toNat }
  | .addLink l => some { kind := .addLink, first := l.source.toNat, second := l.target.toNat }
  | .removeLink l => some { kind := .removeLink, first := l.source.toNat, second := l.target.toNat }
  | .addSource .. | .addSourcePattern .. => some { kind := .addSource, first := net.nextId.toNat }
  | .removeSource id => some { kind := .removeSource, first := id.toNat }
  | .addProbe _ => some { kind := .startProbe, first := net.nextId.toNat }
  | .removeProbe id => some { kind := .stopProbe, first := id.toNat }
  | .restartProbe id => some { kind := .startProbe, first := id.toNat }
  | .expand bytes => some { kind := .expand, first := bytes }
  | .audit _ => none

/-- The change that a report names which is made during a change. Headers that get lost on the way
to a new probe are put down to the change before. -/
def Network.blamed (net : Network) : Mutation → Report → Option Event
  | .addProbe _, .blackhole .. => net.lastEvent
  | m, _ => m.event? net

/-- The pipes that are listed at a node lead to it. -/
theorem Layout.WellFormed.leads {L : Layout} (hL : L.WellFormed) {back : Handle} {a b b' : Pipe}
    (hback : back ∈ L.prev key) (hb : L.pipes.find? back = some b)
    (ha : L.pipes.find? b.reverse = some a) (hb' : L.pipes.find? a.reverse = some b') :
    b'.node = key := by
  obtain ⟨fwd, a₁, b₁, n, m, hj, hkey⟩ := hL.prev key back hback
  obtain rfl := Option.some.inj (hj.rear.symm.trans hb)
  obtain rfl := Option.some.inj ((hj.obverse ▸ hj.front).symm.trans ha)
  obtain rfl := Option.some.inj ((hj.reverse ▸ hj.rear).symm.trans hb')
  exact hkey

namespace Engine

/-! ### Recording -/

/-- The reports so far have `P`. -/
def All (P : Report → Prop) (p : Progress) : Prop := ∀ r ∈ p.reports, P r

theorem all_nil (net : Network) : All P ⟨net, []⟩ := by
  rintro _ ⟨⟩

/-- What was said of the reports before is true of them still. -/
theorem Within.all (h : Within I P p p') (hp : All P p) : All P p' := fun r hr ↦
  (h.reports r hr).elim (hp r) id

/-- A confined computation makes no reports of another kind, wherever it stops. -/
theorem Confined.all (hx : Confined I P x) (hI : I p.network) (hp : All P p) :
    Stops x p (fun _ ↦ All P) fun _ ↦ All P :=
  (hx p hI).mono (fun _ _ h ↦ h.all hp) fun _ _ h ↦ h.all hp

/-! ### Starting and stopping -/

/-- The report says that a started probe changed its count. -/
def TellsStart (id : NodeId) (r : Report) : Prop :=
  ∃ flow t, r = .probe id flow t (some { kind := .startProbe, first := id.toNat })

/-- A report about the start names the start. -/
theorem TellsStart.names {r : Report} (hr : TellsStart id r) :
    r.Names (some { kind := .startProbe, first := id.toNat }) := by
  obtain ⟨flow, t, rfl⟩ := hr
  exact rfl

/-- **A start is reported as such**, and nothing else is reported along with it. -/
theorem stops_startProbe (hn : p.network.nodeAt? key = some n) (hP : ∀ r, TellsStart n.id r → P r)
    (hp : All P p) : Stops (startProbe key) p (fun _ ↦ All P) fun _ ↦ All P := by
  refine Stops.node_bind (fun _ ↦ hp) fun m hm ↦ ?_
  obtain rfl := Option.some.inj (hn.symm.trans hm)
  rw [stops_setEvent_bind]
  refine Confined.all
    (I := fun net ↦ net.lastEvent = some { kind := .startProbe, first := n.id.toNat })
    ((confined_ask _).bind fun flows ↦ ?_) rfl hp
  split
  · refine (confined_check _).bind fun ⟨p, ts⟩ ↦ Confined.bind ?_ fun _ ↦ .forM fun ⟨flow, t⟩ _ ↦
      .event_bind fun net hI ↦ confined_report (hP _ ⟨flow, t, hI ▸ rfl⟩)
    exact confined_update fun _ hI ↦ hI
  · exact confined_pure

/-- The record is `e`, and at `key` is a node called `id` with the role `role`. -/
structure Houses (e : Option Event) (key : NodeKey) (id : NodeId) (role : Role) (net : Network) :
    Prop where
  record : net.lastEvent = e
  node : ∃ n, net.nodeAt? key = some n ∧ n.id = id ∧ n.role = role

/-- **Stopping a probe reports nothing.** -/
theorem stops_stopProbe (hn : p.network.nodeAt? key = some n) (hp : All P p) :
    Stops (stopProbe key) p (fun _ ↦ All P) fun _ p' ↦ All P p' ∧
      ∃ role, Houses (some { kind := .stopProbe, first := n.id.toNat }) key n.id role
        p'.network := by
  refine Stops.node_bind (fun _ ↦ hp) fun m hm ↦ ?_
  obtain rfl := Option.some.inj (hn.symm.trans hm)
  rw [stops_setEvent_bind]
  split
  · rename_i q _
    have hnew : (withNode p.network key fun n ↦ { n with role := .probe q.stop }).nodeAt? key =
        some { n with role := .probe q.stop } := by
      rw [nodeAt?_withNode (by exact fun _ _ hkey ↦ hkey), hn, Option.map_some, if_pos rfl]
    exact ⟨hp, .probe q.stop, rfl, _, hnew, rfl, rfl⟩
  · exact ⟨hp, n.role, rfl, n, hn, rfl, rfl⟩

/-- A computation that comes to its end leads there. -/
theorem Stops.leads {B : Halt → Progress → Prop} {Q : α → Progress → Prop} (hx : Stops x p B Q) :
    Stops x p B fun a p' ↦ Q a p' ∧ Leads x p.network a p'.network := by
  simp only [Stops] at hx ⊢
  cases hrun : x p with
  | ok a p' => exact ⟨by simpa only [hrun] using hx, p.reports, p'.reports, hrun⟩
  | error e p' => simpa only [hrun] using hx

/-! ### A probe that waits for its start -/

variable {role : Role} {key' : NodeKey}

/-- A change of some node that keeps its name and its role leaves the probe where it is. -/
theorem Houses.withNode {f : Node → Node} (hs : Houses e key id role net)
    (hf : ∀ n, (f n).key = n.key ∧ (f n).id = n.id ∧ (f n).role = n.role) :
    Houses e key id role (withNode net key' f) := by
  obtain ⟨hrecord, n, hn, rfl, rfl⟩ := hs
  refine ⟨hrecord, _, (nodeAt?_withNode fun n _ h ↦ (hf n).1.trans h).trans (congrArg _ hn), ?_⟩
  split
  · exact (hf n).2
  · exact ⟨rfl, rfl⟩

/-- What a node lists may change. -/
theorem confined_alterNode {f : Node → Node}
    (hf : ∀ n, (f n).key = n.key ∧ (f n).id = n.id ∧ (f n).role = n.role) :
    Confined (Houses e key id role) P (alterNode key' f) :=
  (confined_node _).bind fun _ ↦ confined_update fun _ hs ↦ hs.withNode hf

theorem confined_addPipe (w : Wire) : Confined (Houses e key id role) P (addPipe w) := by
  have hpipes : ∀ F : Network → Arena Pipe, Confined (Houses e key id role) P
      (update fun net ↦ { net with pipes := F net }) := fun _ ↦
    confined_update fun _ hs ↦ ⟨hs.record, hs.node⟩
  refine confined_network.bind fun _ ↦ (hpipes _).bind fun _ ↦ confined_network.bind fun _ ↦
    (hpipes _).bind fun _ ↦ Confined.bind ?_ fun _ ↦ Confined.bind ?_ fun _ ↦ confined_pure
  · exact confined_alterNode fun _ ↦ ⟨rfl, rfl, rfl⟩
  · exact confined_alterNode fun _ ↦ ⟨rfl, rfl, rfl⟩

/-- **Connecting leaves nodes what they are**, and reports nothing. -/
theorem confined_connect (key' : NodeKey) : Confined (Houses e key id role) P (connect key') :=
  (confined_node key').bind fun _ ↦ (confined_ask _).bind fun _ ↦ .forM fun w _ ↦
    (confined_addPipe w).discard

/-- The record is `e`, there are the pipes `F`, and `n` is there, apart from the flows that it
lists. -/
structure Waiting (e : Option Event) (F : Arena Pipe) (n : Node) (net : Network) : Prop where
  record : net.lastEvent = e
  pipes : net.pipes = F
  node : ∃ l, net.nodeAt? n.key = some { n with flows := l }

/-- Steps that change flows and what nodes list of them keep the scene. -/
theorem scenic_waiting : Scenic (Waiting e F n) := by
  intro net net' hs hI
  obtain ⟨hrecord, hpipes, l, hl⟩ := hI
  simp only [scenery, Prod.mk.injEq] at hs
  obtain ⟨hevent, hsame, hnodes⟩ := hs
  refine ⟨hevent.trans hrecord, hsame.trans hpipes, ?_⟩
  have hfind : ∀ net : Network, (net.nodes.map fun n ↦ { n with flows := [] }).find?
      (·.key == n.key) =
      (net.nodeAt? n.key).map fun n ↦ { n with flows := [] } := fun net ↦ List.find?_map ..
  have hmap := (hfind net').symm.trans ((congrArg _ hnodes).trans (hfind net))
  rw [hl, Option.map_some, Option.map_eq_some_iff] at hmap
  obtain ⟨n', hn', heq⟩ := hmap
  refine ⟨n'.flows, hn'.trans (congrArg some ?_)⟩
  cases n'
  simp only [Node.mk.injEq] at heq ⊢
  tauto

/-- The report says that headers got lost, and names `e`. -/
def TellsLoss (e : Option Event) (r : Report) : Prop := ∃ h n m q, r = .blackhole h n m q e

/-- **What arrives at a probe that does not run goes unreported.** -/
theorem confined_arrive (hrole : n.role = .probe q) (hq : q.isRunning = false) (h : Handle) :
    Confined (Waiting e F n) P (Engine.arrive n.key h) := by
  refine confined_room.bind fun room ↦ ?_
  cases room with
  | zero => exact confined_tooDeep scenic_waiting
  | succ room =>
    refine Confined.visit scenic_waiting (.node_bind fun net m hI hm ↦ ?_)
    obtain ⟨l, hl⟩ := hI.node
    obtain rfl := Option.some.inj (hm.symm.trans hl)
    dsimp only
    rw [hrole]
    refine (confined_register scenic_waiting _ _).bind fun _ ↦
      (confined_updateFlow scenic_waiting _ _).bind fun _ ↦ .node_bind fun net' m' hI' hm' ↦ ?_
    obtain ⟨l', hl'⟩ := hI'.node
    obtain rfl := Option.some.inj (hm'.symm.trans hl')
    simp only [Node.probe?, hrole, hq]
    exact confined_pure

/-- **A probe that waits pulls without reporting anything but lost headers**, if the pipes that are
listed at it lead to it. -/
theorem confined_pull (hrole : n.role = .probe q) (hq : q.isRunning = false)
    (hleads : ∀ back ∈ n.prev, ∀ b a b', F.find? back = some b → F.find? b.reverse = some a →
      F.find? a.reverse = some b' → b'.node = n.key) :
    Confined (Waiting e F n) (TellsLoss e) (pull n.key) := by
  refine .node_bind fun net m hI hm ↦ ?_
  obtain ⟨l, hl⟩ := hI.node
  obtain rfl := Option.some.inj (hm.symm.trans hl)
  refine .forM fun back hback ↦ .pipe?_bind fun net₁ hI₁ ↦ ?_
  split
  · rename_i b hb
    refine .pipe_bind fun net₂ a hI₂ ha ↦ confined_sendFlows scenic_waiting
      (fun net hI h n m q ↦ ⟨h, n, m, q, hI.record ▸ rfl⟩)
        (fun net₃ net₄ a' b' hI₃ hI₄ ha' hb' h ↦ ?_) _
    have hkey : b'.node = n.key :=
      hleads back hback b a' b' (hI₁.pipes ▸ hb) (hI₃.pipes ▸ ha') (hI₄.pipes ▸ hb')
    exact hkey ▸ confined_arrive hrole hq h
  · exact confined_pure

/-- **A probe that stands and waits pulls**, and stands after that. -/
theorem Houses.pull (hs : Houses e key id (.probe q) p.network) (hq : q.isRunning = false)
    (hL : p.network.layout.WellFormed) :
    Stops (Engine.pull key) p (fun _ ↦ Within (Houses e key id (.probe q)) (TellsLoss e) p)
      fun _ ↦ Within (Houses e key id (.probe q)) (TellsLoss e) p := by
  obtain ⟨hrecord, n, hn, rfl, hrole⟩ := hs
  obtain ⟨-, rfl⟩ := nodeAt?_eq_some hn
  have hback : ∀ net, Waiting e p.network.pipes n net → Houses e n.key n.id (.probe q) net :=
    fun net hI ↦ ⟨hI.record, hI.node.elim fun l hl ↦ ⟨_, hl, rfl, hrole⟩⟩
  have hprev : p.network.layout.prev n.key = n.prev := Network.tied_of_nodeAt? hn
  exact (confined_pull hrole hq
    (fun back hmem b a b' hb ha hb' ↦ hL.leads (hprev ▸ hmem) hb ha hb') p
    ⟨hrecord, rfl, n.flows, hn⟩).mono (fun _ _ h ↦ ⟨hback _ h.network, h.reports⟩)
    fun _ _ h ↦ ⟨hback _ h.network, h.reports⟩

/-- The report says that headers got lost, and names `e`, or tells of the start of the probe. -/
def TellsAddition (e : Option Event) (id : NodeId) (r : Report) : Prop :=
  TellsLoss e r ∨ TellsStart id r

/-- **Adding a probe**: what is reported before its start is that headers got lost. -/
theorem stops_addProbe {s : Settings} {node : NodeKey → Node} (hP : Poised s p.network)
    (hrecord : p.network.lastEvent = e) (hkey : ∀ key, (node key).key = key)
    (hbare : ∀ key, (node key).Bare) (hproper : ∀ key, (node key).core.Proper)
    (hid : ∀ key, (node key).id = id) (hrole : ∀ key, (node key).role = .probe q)
    (hq : q.isRunning = false) (hp : All (TellsAddition e id) p) :
    Stops (do
        let key ← addNode node
        connect key
        pull key
        startProbe key
        return id) p (fun _ ↦ All (TellsAddition e id)) fun _ ↦ All (TellsAddition e id) := by
  -- the node is there
  refine Stops.bind
    ((confined_addNode node p hrecord).leads.mono (fun _ _ h ↦ h.all hp) fun _ _ h ↦ h)
    fun key p₁ h₁ ↦ ?_
  obtain ⟨hadded, hl⟩ := h₁
  obtain ⟨hP₁, hn, -⟩ := hP.addNode hl hkey hbare hproper <| Registry.admits_of_plain <| by
    rintro ⟨table, index, w, hkind⟩
    simp [Node.core, hrole, Role.kind] at hkind
  have hi := (hbare key).isolated hn
  have hs₁ : Houses e key id (.probe q) p₁.network := ⟨hadded.network, _, hn, hid _, hrole _⟩
  -- it is connected
  refine Stops.bind ((confined_connect key p₁ hs₁).leads.mono (fun _ _ h ↦ h.all (hadded.all hp))
    fun _ _ h ↦ h) fun _ p₂ h₂ ↦ ?_
  obtain ⟨hconnected, hl⟩ := h₂
  have hL := (hP₁.connect hl hi.next hi.prev).1.exact.toWellFormed
  have hp₂ := hconnected.all (hadded.all hp)
  -- it pulls what comes its way
  have hlost : ∀ {p'}, Within (Houses e key id (.probe q)) (TellsLoss e) p₂ p' →
      All (TellsAddition e id) p' := fun h r hr ↦ (h.reports r hr).elim (hp₂ r) .inl
  refine Stops.bind ((hconnected.network.pull hq hL).mono (fun _ _ h ↦ hlost h) fun _ _ h ↦ h)
    fun _ p₃ hpulled ↦ ?_
  -- only then it is started
  obtain ⟨-, n, hn, rfl, -⟩ := hpulled.network
  exact Stops.bind (stops_startProbe hn (fun _ ↦ .inr) (hlost hpulled)) fun _ _ h ↦ h

end Engine

/-! ### Each change -/

namespace Network

/-- What is known of the reports wherever a change stops is known of the reports that it leaves. -/
theorem reports_carryOut {change : Engine α}
    (hx : Stops change ⟨{ net with budget := net.budget.reset }, []⟩
      (fun _ ↦ All P) fun _ ↦ All P) :
    ∀ r ∈ (net.carryOut change).reports, P r := by
  rw [carryOut]
  simp only [Stops, EStateM.run] at hx ⊢
  cases hrun : change ⟨{ net with budget := net.budget.reset }, []⟩ with
  | ok a p =>
    rw [hrun] at hx
    exact fun r hr ↦ hx r (List.mem_reverse.1 hr)
  | error halt p =>
    rw [hrun] at hx
    cases halt with
    | overrun o => exact fun r hr ↦ hx r (List.mem_reverse.1 hr)
    | fault f => exact fun r hr ↦ hx r (List.mem_reverse.1 hr)

/-- **A change that says first what it is** is named in all reports. -/
theorem names_carryOut (hx : Signs (some ev) x) :
    ∀ r ∈ (net.carryOut do setEvent ev; x).reports, r.Names (some ev) :=
  reports_carryOut (stops_setEvent_bind.2 (hx.all rfl (all_nil _)))

theorem names_removeTable (net : Network) (id : TableId) :
    ∀ r ∈ (net.removeTable id).reports, r.Names (Mutation.event? net (.removeTable id)) := by
  rw [removeTable]
  split
  · rintro _ ⟨⟩
  · exact names_carryOut ((signs_removeRuleNodes _ fun key ↦ key).bind fun _ ↦
      signs_update fun _ ↦ rfl)

theorem names_addRule (net : Network) (spec : RuleSpec) :
    ∀ r ∈ (net.addRule spec).reports, r.Names (Mutation.event? net (.addRule spec)) := by
  rw [addRule]
  split
  · rintro _ ⟨⟩
  · exact names_carryOut ((signs_removeRuleNodes _ fun key ↦ key).bind fun _ ↦
      (confined_addNode _).bind fun key ↦
      (signs_relate key).bind fun _ ↦ (signs_connect key).bind fun _ ↦
      (signs_takeWon key).bind fun _ ↦ (signs_pull key).bind fun _ ↦ confined_pure)

theorem names_removeRule (net : Network) (id : NodeId) :
    ∀ r ∈ (net.removeRule id).reports, r.Names (Mutation.event? net (.removeRule id)) := by
  rw [removeRule]
  split
  · rintro _ ⟨⟩
  · exact names_carryOut (signs_removeRuleNode _)

theorem names_addLink (net : Network) (l : Link) :
    ∀ r ∈ (net.addLink l).reports, r.Names (Mutation.event? net (.addLink l)) := by
  rw [addLink]
  split
  · rintro _ ⟨⟩
  · exact names_carryOut (signs_update_bind (fun _ ↦ rfl) (signs_connectLink l))

theorem names_removeLink (net : Network) (l : Link) :
    ∀ r ∈ (net.removeLink l).reports, r.Names (Mutation.event? net (.removeLink l)) := by
  rw [removeLink]
  split
  · rintro _ ⟨⟩
  · exact names_carryOut ((signs_disconnectLink l).bind fun _ ↦ signs_update fun _ ↦ rfl)

theorem names_addSource (net : Network) (space : Space) (ports : List Port) :
    ∀ r ∈ (net.addSource space ports).reports,
    r.Names (Mutation.event? net (.addSource space ports)) := by
  rw [addSource]
  split
  · rintro _ ⟨⟩
  split
  · rintro _ ⟨⟩
  · rename_i id hid
    obtain rfl := eq_nextId_of_freshId hid
    exact names_carryOut ((confined_addNode _).bind fun key ↦ (signs_connect key).bind fun _ ↦
      (confined_insertFlow scenic_lastEvent _).bind fun root ↦ (signs_alterNode _ _).bind fun _ ↦
      (signs_arrive key root).bind fun _ ↦ confined_pure)

theorem names_removeSource (net : Network) (id : NodeId) :
    ∀ r ∈ (net.removeSource id).reports, r.Names (Mutation.event? net (.removeSource id)) := by
  rw [removeSource]
  split
  · rintro _ ⟨⟩
  · exact names_carryOut (signs_removePlainNode _)

/-! ### Probes -/

/-- The probe that is looked up by its identifier is called so, and is the node with its key. -/
theorem Arises.node_of_expect (ha : Arises net) {type : NodeType} {expected : ExpectedRole}
    (hn : net.expect id type expected = .ok n) : n.id = id ∧ net.nodeAt? n.key = some n := by
  obtain ⟨hfind, -⟩ := expect_eq_ok.1 hn
  exact ⟨id_of_node? ha.stands.wellFormed hfind,
    nodeAt?_of_mem (map_key_cores net ▸ ha.catalogued.nodup) (mem_of_node? hfind)⟩

/-- The stop of the probe is recorded, and then its node goes without a report. -/
theorem Arises.names_removeProbe (ha : Arises net) (id : NodeId) :
    ∀ r ∈ (net.removeProbe id).reports, r.Names (Mutation.event? net (.removeProbe id)) := by
  rw [removeProbe]
  split
  · rintro _ ⟨⟩
  · rename_i n hn
    obtain ⟨rfl, hat⟩ := ha.node_of_expect hn
    refine reports_carryOut ((stops_stopProbe hat (all_nil _)).bind fun _ p' h ↦ ?_)
    obtain ⟨hp', role, hhouses⟩ := h
    exact Confined.all (signs_removePlainNode n.key) hhouses.record hp'

/-- **A restart is recorded as a start.** Stopping reports nothing, so all reports are made after
that. -/
theorem Arises.names_restartProbe (ha : Arises net) (id : NodeId) :
    ∀ r ∈ (net.restartProbe id).reports, r.Names (Mutation.event? net (.restartProbe id)) := by
  rw [restartProbe]
  split
  · rintro _ ⟨⟩
  · rename_i n hn
    obtain ⟨rfl, hat⟩ := ha.node_of_expect hn
    refine reports_carryOut ((stops_stopProbe hat (all_nil _)).bind fun _ p' h ↦ ?_)
    obtain ⟨hp', role, -, n', hn', hid, -⟩ := h
    exact stops_startProbe hn' (fun r hr ↦ hid ▸ hr.names) hp'

/-- **What is reported when a probe is added**: lost headers, under what was recorded before, and
then what the start tells. -/
theorem Arises.names_addProbe (ha : Arises net) (spec : ProbeSpec) :
    ∀ r ∈ (net.addProbe spec).reports, TellsAddition net.lastEvent net.nextId r := by
  rw [addProbe]
  split
  · rintro _ ⟨⟩
  split
  · rintro _ ⟨⟩
  rename_i id hid
  obtain rfl := eq_nextId_of_freshId hid
  refine reports_carryOut ?_
  have hO := ha.attained.orderly
  have hP : Poised net.settings { net with nextId := net.nextId + 1, budget := net.budget.reset } :=
    ⟨hO.quiet (hO.toLimited.reset.congr rfl rfl) ⟨rfl, rfl, rfl⟩, rfl⟩
  exact stops_addProbe (p := ⟨_, []⟩) hP rfl (fun _ ↦ rfl) (fun _ ↦ ⟨rfl, rfl, rfl, rfl, rfl⟩)
    (fun _ ↦ ⟨rfl, rfl⟩) (fun _ ↦ rfl) (fun _ ↦ rfl) rfl (all_nil _)

/-- **Every report names the change during which it was made**, except for those that say that
headers got lost on the way to a new probe: these name the change before. -/
theorem Arises.reports_name (ha : Arises net) (m : Mutation) :
    ∀ r ∈ (net.apply m).reports, r.Names (net.blamed m r) := by
  cases m with
  | addTable id ports =>
    rw [Network.apply, addTable]
    split
    · rintro _ ⟨⟩
    · split <;> rintro _ ⟨⟩
  | removeTable id => exact names_removeTable net id
  | addRule spec => exact names_addRule net spec
  | removeRule id => exact names_removeRule net id
  | addLink l => exact names_addLink net l
  | removeLink l => exact names_removeLink net l
  | addSource space ports => exact names_addSource net space ports
  | addSourcePattern p ports => exact names_addSource net _ ports
  | removeSource id => exact names_removeSource net id
  | addProbe spec =>
    intro r hr
    rcases ha.names_addProbe spec r hr with ⟨h, n, m, q, rfl⟩ | ⟨flow, t, rfl⟩
    · exact rfl
    · exact rfl
  | removeProbe id => exact ha.names_removeProbe id
  | restartProbe id => exact ha.names_restartProbe id
  | expand bytes =>
    rw [Network.apply, expand]
    split <;> rintro _ ⟨⟩
  | audit table =>
    have hfound : ∀ found : List Anomaly, ∀ r ∈ found.map Report.anomaly, r.Names none := by
      intro found r hr
      obtain ⟨a, -, rfl⟩ := List.mem_map.1 hr
      exact trivial
    simp only [Network.apply, audit]
    split
    · rintro _ ⟨⟩
    · split
      · rintro _ ⟨⟩
      · exact hfound _

/-- A source that is linked to port 21. -/
def oneSource : Network :=
  [.addLink ⟨1, 21⟩,
    .addSourcePattern (.ofTrits [.one, .one, .wild, .wild, .wild, .wild, .wild, .wild]) [1]].foldl
      (fun net m ↦ (net.apply m).network) (.new 1 { Settings.default with checkBlackholes := true })

/-- A probe at this port that accepts more than what comes from the source. -/
def wideProbe : ProbeSpec where
  mode := .existential
  filter := .always
  test := .always
  ports := [21]
  accepts := some (.ofTrits [.one, .wild, .wild, .wild, .wild, .wild, .wild, .wild])

/-- That the headers do not fill the pipe to the new probe is put down to the addition of the
source. -/
example : (oneSource.addProbe wideProbe).reports =
    [.blackhole ⟨0, 0⟩ 1 2 1 (some { kind := .addSource, first := 1 }),
      .probe 2 (some ⟨1, 0⟩) .startedTrue (some { kind := .startProbe, first := 2 })] := by
  decide +kernel

end Network

end HeaderFlow
