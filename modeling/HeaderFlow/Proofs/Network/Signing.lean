import HeaderFlow.Proofs.Network.Upkeep

/-!
# Signed reports

A report names the change that is recorded in the network at the moment at which it is made. A
computation *signs* with `e` if it leaves the record `e` alone and names `e` in all reports
(`Engine.Signs`). **Everything that is done with flows, pipes and influences signs with what is
recorded**, whatever comes of it; the record is changed only where a change says what it is, and
where a probe is started or stopped.

`Engine.Confined` is the general form: a computation that keeps a condition on networks and makes
only reports of one sort, wherever it stops. What happens on the way of a flow down a pipe is stated
in this form, with the condition left open, because more is known of the reports if it is known
where the pipe leads.

## The order of the module

First the rules of `Confined`, for sequences, loops and elementary steps. Then sending, with an open
condition that speaks of the *scenery* only: what stays the same for as long as flows just go along
pipes. Then one lemma for each function of propagation, wiring and priority that says that it signs,
in the order of the engine; most of them say no more than how the function is composed.
-/

namespace HeaderFlow

/-- The report names `e` as the change that caused it. A finding of an audit names no change. -/
def Report.Names (e : Option Event) : Report → Prop
  | .loop _ _ _ e' | .blackhole _ _ _ _ e' | .shadow _ _ e' | .unreachable _ e' | .probe _ _ _ e' =>
    e' = e
  | .anomaly _ => True

namespace Engine

variable {α β : Type} {I : Network → Prop} {P : Report → Prop} {e : Option Event} {x : Engine α}
  {k : α → Engine β} {p p' p'' : Progress} {key : NodeKey} {h fwd : Handle}
  {arrive : NodeKey → Handle → Engine Unit} {refresh : Handle → Option Pattern → Engine Unit}

/-! ### Confined computations -/

/-- The network has `I`, and all reports made since `p` have `P`. -/
structure Within (I : Network → Prop) (P : Report → Prop) (p p' : Progress) : Prop where
  network : I p'.network
  reports : ∀ r ∈ p'.reports, r ∈ p.reports ∨ P r

theorem Within.refl (hI : I p.network) : Within I P p p := ⟨hI, fun _ ↦ .inl⟩

/-- What was kept in two stretches was kept. -/
theorem Within.trans (h : Within I P p p') (h' : Within I P p' p'') : Within I P p p'' :=
  ⟨h'.network, fun r hr ↦ (h'.reports r hr).elim (h.reports r) .inr⟩

/-- Started where `I` holds, the computation keeps `I` and makes only reports with `P`, wherever it
stops. -/
def Confined (I : Network → Prop) (P : Report → Prop) (x : Engine α) : Prop :=
  ∀ p, I p.network → Stops x p (fun _ ↦ Within I P p) fun _ ↦ Within I P p

theorem confined_pure {a : α} : Confined I P (pure a) := fun _ hI ↦ .refl hI

/-- A sequence is confined if its parts are. -/
theorem Confined.bind (hx : Confined I P x) (hk : ∀ a, Confined I P (k a)) :
    Confined I P (x >>= k) :=
  fun p hI ↦ (hx p hI).bind fun a p' h ↦
    (hk a p' h.network).mono (fun _ _ h' ↦ h.trans h') fun _ _ h' ↦ h.trans h'

theorem Confined.discard (hx : Confined I P x) : Confined I P (discard x) := by
  change Confined I P ((fun _ ↦ ()) <$> x)
  rw [map_eq_pure_bind]
  exact hx.bind fun _ ↦ confined_pure

/-- A walk along a list is confined if its steps are. -/
theorem Confined.forM {f : α → Engine Unit} {l : List α} (hf : ∀ a ∈ l, Confined I P (f a)) :
    Confined I P (l.forM f) := fun _ hI ↦
  Stops.forM (.refl hI) fun a ha p' h ↦
    (hf a ha p' h.network).mono (fun _ _ h' ↦ h.trans h') fun _ _ h' ↦ h.trans h'

/-- What is read is what a network with `I` has. -/
theorem Confined.network_bind {k : Network → Engine β} (hk : ∀ net, I net → Confined I P (k net)) :
    Confined I P (network >>= k) := fun p hI ↦ hk p.network hI p hI

/-- What is asked is asked of a network with `I`. -/
theorem Confined.ask_bind {q : Network → Checked α}
    (hk : ∀ net a, I net → q net = .ok a → Confined I P (k a)) :
    Confined I P (ask q >>= k) := fun p hI ↦
  Stops.ask_bind (fun _ _ ↦ .refl hI) fun a ha ↦ hk p.network a hI ha p hI

theorem Confined.node_bind {k : Node → Engine β}
    (hk : ∀ net n, I net → net.nodeAt? key = some n → Confined I P (k n)) :
    Confined I P (node key >>= k) := fun p hI ↦
  Stops.node_bind (fun _ ↦ .refl hI) fun n hn ↦ hk p.network n hI hn p hI

theorem Confined.pipe_bind {k : Pipe → Engine β}
    (hk : ∀ net a, I net → net.pipes.find? h = some a → Confined I P (k a)) :
    Confined I P (pipe h >>= k) := .ask_bind fun net a hI ha ↦ hk net a hI (get_eq_ok.1 ha)

theorem Confined.pipe?_bind {k : Option Pipe → Engine β}
    (hk : ∀ net, I net → Confined I P (k (net.pipes.find? h))) : Confined I P (pipe? h >>= k) :=
  fun p hI ↦ hk p.network hI p hI

theorem Confined.event_bind {k : Option Event → Engine β}
    (hk : ∀ net, I net → Confined I P (k net.lastEvent)) : Confined I P (event >>= k) :=
  fun p hI ↦ hk p.network hI p hI

theorem confined_network : Confined I P network := fun _ hI ↦ .refl hI

theorem confined_ask (q : Network → Checked α) : Confined I P (ask q) := by
  rw [← bind_pure (ask q)]
  exact .ask_bind fun _ _ _ _ ↦ confined_pure

theorem confined_check (c : Checked α) : Confined I P (check c) := confined_ask _

theorem confined_node (key : NodeKey) : Confined I P (node key) := confined_ask _

theorem confined_flow (h : Handle) : Confined I P (flow h) := confined_ask _

theorem confined_pipe (h : Handle) : Confined I P (pipe h) := confined_ask _

theorem confined_flow? (h : Handle) : Confined I P (flow? h) :=
  confined_network.bind fun _ ↦ confined_pure

theorem confined_pipe? (h : Handle) : Confined I P (pipe? h) :=
  confined_network.bind fun _ ↦ confined_pure

/-- An update is confined if it keeps `I`. -/
theorem confined_update {f : Network → Network} (hf : ∀ net, I net → I (f net)) :
    Confined I P (update f) := fun p hI ↦ ⟨hf p.network hI, fun _ ↦ .inl⟩

/-- A report is confined if it has `P`. -/
theorem confined_report {r : Report} (hr : P r) : Confined I P (report r) := fun _ hI ↦
  ⟨hI, fun _ hmem ↦ (List.mem_cons.1 hmem).elim (fun he ↦ .inr (he ▸ hr)) .inl⟩

/-! ### Along a pipe -/

/-- What is the same for as long as flows only go along pipes. -/
def scenery (net : Network) : Option Event × Arena Pipe × List Node :=
  (net.lastEvent, net.pipes, net.nodes.map fun n ↦ { n with flows := [] })

/-- The condition speaks of the scenery only. -/
def Scenic (I : Network → Prop) : Prop := ∀ net net', scenery net' = scenery net → I net → I net'

theorem scenic_lastEvent : Scenic fun net ↦ net.lastEvent = e := fun _ _ hs hI ↦
  (congrArg Prod.fst hs).trans hI

theorem confined_blocked (key : NodeKey) (h : Handle) (port : Port) :
    Confined I P (blocked key h port) := by
  refine (confined_node key).bind fun n ↦ ?_
  split
  · exact confined_pure
  · exact confined_ask _

/-- **Lost headers are reported under the record.** -/
theorem confined_reportLost (hP : ∀ net, I net → ∀ h n m q, P (.blackhole h n m q net.lastEvent))
    (key : NodeKey) (h : Handle) (side back : Pipe) (processed out : Space) (measure : Measure) :
    Confined I P (reportLost key h side back processed out measure) := by
  refine confined_network.bind fun net ↦ ?_
  split
  · exact confined_pure
  · refine (confined_check _).bind fun lost ↦ ?_
    split
    · exact (confined_node _).bind fun _ ↦ (confined_node _).bind fun _ ↦
        .event_bind fun net hI ↦ confined_report (hP net hI _ _ _ _)
    · exact confined_pure

section

variable (hs : Scenic I)
include hs

theorem confined_updateFlow (h : Handle) (f : Flow → Flow) : Confined I P (updateFlow h f) :=
  confined_update fun _ ↦ hs _ _ rfl

theorem confined_insertFlow (f : Handle → Flow) : Confined I P (insertFlow f) := by
  refine confined_network.bind fun _ ↦ Confined.bind ?_ fun _ ↦ confined_pure
  exact confined_update fun _ ↦ hs _ _ rfl

/-- The flows of a node may change. -/
theorem confined_enlist (key : NodeKey) (f : List Handle → List Handle) :
    Confined I P (updateNode key fun n ↦ { n with flows := f n.flows }) := by
  refine confined_update fun net ↦ hs _ _ ?_
  refine congrArg (fun ns ↦ (net.lastEvent, net.pipes, ns)) ?_
  rw [List.map_map]
  refine List.map_congr_left fun n _ ↦ ?_
  simp only [Function.comp_apply]
  split <;> rfl

theorem confined_register (key : NodeKey) (h : Handle) : Confined I P (register key h) := by
  refine (confined_enlist hs key (· ++ [h])).bind fun _ ↦ (confined_flow h).bind fun f ↦ ?_
  split
  · exact confined_updateFlow hs _ _
  · exact confined_pure

theorem confined_enter : Confined I P enter := by
  refine confined_network.bind fun net ↦ Confined.bind ?_ fun _ ↦ ?_
  · exact confined_update fun _ ↦ hs _ _ rfl
  · split
    · exact fun _ hI ↦ .refl hI
    · exact confined_pure

/-- A visit is confined if its body is. -/
theorem Confined.visit {body : Engine Unit} (hbody : Confined I P body) :
    Confined I P (visit body) :=
  (confined_enter hs).bind fun _ ↦ hbody.bind fun _ ↦ confined_update fun _ ↦ hs _ _ rfl

/-- Visits that are nested too deep are not made. -/
theorem confined_tooDeep : Confined I P (do enter; tooDeep) :=
  (confined_enter hs).bind fun _ ↦ .network_bind fun _ _ _ hI ↦ .refl hI

/-- **Sending a flow down a pipe**, if it may arrive where the pipe leads. -/
theorem confined_send (hP : ∀ net, I net → ∀ h n m q, P (.blackhole h n m q net.lastEvent))
    (harrive : ∀ net net' a b, I net → I net' → net.pipes.find? fwd = some a →
      net'.pipes.find? a.reverse = some b → ∀ h, Confined I P (arrive b.node h))
    (key : NodeKey) (h : Handle) (measure : Measure) :
    Confined I P (send arrive key h fwd measure) := by
  refine .pipe?_bind fun net hI ↦ ?_
  split
  · rename_i a ha
    refine (confined_blocked _ _ _).bind fun blocked ↦ ?_
    split
    · exact confined_pure
    refine (confined_flow h).bind fun f ↦ ?_
    split
    · refine (confined_check _).bind fun out ↦ ?_
      split
      · exact confined_pure
      · exact .pipe_bind fun net' b hI' hb ↦ (confined_reportLost hP _ _ _ _ _ _ _).bind fun _ ↦
          (confined_insertFlow hs _).bind fun child ↦ harrive net net' a b hI hI' ha hb child
    · exact confined_pure
  · exact confined_pure

/-- Sending all flows of a node down a pipe. -/
theorem confined_sendFlows (hP : ∀ net, I net → ∀ h n m q, P (.blackhole h n m q net.lastEvent))
    (harrive : ∀ net net' a b, I net → I net' → net.pipes.find? fwd = some a →
      net'.pipes.find? a.reverse = some b → ∀ h, Confined I P (Engine.arrive b.node h))
      (key : NodeKey) :
    Confined I P (sendFlows key fwd) := by
  refine (confined_node key).bind fun n ↦ .forM fun h _ ↦ (confined_flow? h).bind fun o ↦ ?_
  split
  · exact confined_send hs hP harrive _ _ _
  · exact confined_pure

end

/-! ### Signing -/

/-- The computation leaves the record `e` alone, and names `e` in all reports. -/
def Signs (e : Option Event) (x : Engine α) : Prop :=
  Confined (fun net ↦ net.lastEvent = e) (Report.Names e) x

/-- A report under the record. -/
theorem signs_report {r : Option Event → Report} (hr : (r e).Names e) :
    Signs e (event >>= fun e ↦ report (r e)) :=
  .event_bind fun _ hI ↦ confined_report (hI ▸ hr)

/-- An update that leaves the record alone makes no report. -/
theorem signs_update {f : Network → Network} (hf : ∀ net, (f net).lastEvent = net.lastEvent) :
    Signs e (update f) := confined_update fun net hI ↦ (hf net).trans hI

theorem signs_update_bind {f : Network → Network} {k : Unit → Engine β}
    (hf : ∀ net, (f net).lastEvent = net.lastEvent) (hk : Signs e (k ())) :
    Signs e (update f >>= k) :=
  (signs_update hf).bind fun _ ↦ hk

/-! ### Propagation signs -/

theorem signs_updateNode (key : NodeKey) (f : Node → Node) : Signs e (updateNode key f) :=
  signs_update fun _ ↦ rfl

theorem signs_alterNode (key : NodeKey) (f : Node → Node) : Signs e (alterNode key f) :=
  (confined_node key).bind fun _ ↦ signs_updateNode key f

theorem signs_updateFlow (h : Handle) (f : Flow → Flow) : Signs e (updateFlow h f) :=
  confined_updateFlow scenic_lastEvent h f

theorem signs_alterFlow (h : Handle) (f : Flow → Flow) : Signs e (alterFlow h f) :=
  (confined_flow h).bind fun _ ↦ signs_updateFlow h f

/-- **What a probe says is reported under the record.** -/
theorem signs_notify (key : NodeKey) (h : Handle) (change : Network → Checked FlowChange) :
    Signs e (notify key h change) := by
  refine (confined_node key).bind fun n ↦ ?_
  split
  · split
    · exact confined_pure
    refine (confined_ask _).bind fun c ↦ (confined_check _).bind fun ⟨p, t⟩ ↦
      (signs_updateNode _ _).bind fun _ ↦ ?_
    split
    · exact signs_report rfl
    · exact confined_pure
  · exact confined_pure

/-! ### Dropping flows -/

theorem signs_detachChildren (h : Handle) (f : Flow) : Signs e (detachChildren h f) := by
  refine (signs_updateFlow _ _).bind fun _ ↦ confined_network.bind fun net ↦ ?_
  dsimp only
  split
  · exact signs_notify _ _ _
  · exact confined_pure

theorem signs_discardFlow (h : Handle) (key : NodeKey) : Signs e (discardFlow h key) :=
  signs_update_bind (fun _ ↦ rfl) (signs_updateNode _ _)

/-- Dropping a tree tells the probes of it. -/
theorem signs_dropTree : ∀ (fuel : Nat) (h : Handle), Signs e (dropTree fuel h)
  | 0, _ => confined_pure
  | fuel + 1, h => by
    refine (confined_flow? h).bind fun o ↦ ?_
    split
    · exact (signs_detachChildren _ _).bind fun _ ↦
        (Confined.forM fun c _ ↦ signs_dropTree fuel c).bind fun _ ↦ signs_discardFlow _ _
    · exact confined_pure

theorem signs_dropSubtree (h : Handle) : Signs e (dropSubtree h) :=
  confined_network.bind fun _ ↦ signs_dropTree _ h

theorem signs_dropBelow (h : Handle) : Signs e (dropBelow h) := by
  refine (confined_flow? h).bind fun o ↦ ?_
  split
  · exact (signs_detachChildren _ _).bind fun _ ↦ .forM fun c _ ↦ signs_dropSubtree c
  · exact confined_pure

theorem signs_removeFlow (h : Handle) : Signs e (removeFlow h) := by
  refine (confined_flow? h).bind fun o ↦ ?_
  split
  · refine Confined.bind ?_ fun _ ↦ signs_dropSubtree h
    rw [unlink]
    split
    · exact signs_updateFlow _ _
    · exact confined_pure
  · exact confined_pure

/-! ### Arriving -/

theorem signs_subtractInfluences (port : Port) :
    ∀ (ks : List Handle) (s : Space), Signs e (subtractInfluences port ks s)
  | [], _ => confined_pure
  | k :: ks, s => by
    refine (confined_ask _).bind fun i ↦ ?_
    split
    · exact (confined_check _).bind fun s' ↦ signs_subtractInfluences port ks s'
    · exact signs_subtractInfluences port ks s

theorem signs_recompute (key : NodeKey) (h : Handle) : Signs e (recompute key h) := by
  refine (confined_node key).bind fun n ↦ ?_
  split
  · refine (confined_flow h).bind fun f ↦ (signs_subtractInfluences _ _ _).bind fun left ↦
      (confined_check _).bind fun left ↦ ?_
    split
    · exact (signs_updateFlow _ _).bind fun _ ↦ confined_pure
    · exact (confined_check _).bind fun _ ↦ (signs_updateFlow _ _).bind fun _ ↦ confined_pure
  · exact confined_pure

theorem signs_markLooped (key : NodeKey) (h : Handle) (first : NodeId) :
    Signs e (markLooped key h first) :=
  (signs_updateFlow _ _).bind fun _ ↦ (confined_node key).bind fun _ ↦ signs_report rfl

/-- Lost headers are reported under the record. -/
theorem names_blackhole (net : Network) (hI : net.lastEvent = e) (h : Handle) (n m : NodeId)
    (q : Port) :
    (Report.blackhole h n m q net.lastEvent).Names e := hI

theorem signs_send (harrive : ∀ key h, Signs e (arrive key h)) (key : NodeKey) (h fwd : Handle)
    (measure : Measure) : Signs e (send arrive key h fwd measure) :=
  confined_send scenic_lastEvent names_blackhole
    (fun _ _ _ b _ _ _ _ ↦ harrive b.node) key h measure

theorem signs_sendAll (harrive : ∀ key h, Signs e (arrive key h)) (key : NodeKey) (h : Handle) :
    Signs e (sendAll arrive key h) :=
  (confined_node key).bind fun _ ↦ .forM fun fwd _ ↦ signs_send harrive key h fwd .flow

theorem signs_takeIn (harrive : ∀ key h, Signs e (arrive key h)) (key : NodeKey) (h : Handle) :
    Signs e (takeIn arrive key h) := by
  have hregister : Signs e (register key h) := confined_register scenic_lastEvent key h
  refine (confined_node key).bind fun n ↦ ?_
  split
  · refine hregister.bind fun _ ↦ (confined_ask _).bind fun back ↦ ?_
    split
    · exact signs_markLooped _ _ _
    · refine (signs_recompute key h).bind fun alive ↦ ?_
      split
      · exact signs_sendAll harrive key h
      · exact confined_pure
  · exact hregister.bind fun _ ↦ (signs_updateFlow _ _).bind fun _ ↦ signs_notify _ _ _
  · exact signs_sendAll harrive key h

/-- **However much room there is for visits, arriving signs.** -/
theorem signs_arriveWithin : ∀ (room : Nat) (key : NodeKey) (h : Handle),
    Signs e (arriveWithin room key h)
  | 0, _, _ => confined_tooDeep scenic_lastEvent
  | room + 1, key, h =>
    Confined.visit scenic_lastEvent (signs_takeIn (signs_arriveWithin room) key h)

/-! ### Refreshing -/

theorem signs_lose (h : Handle) (s : Space) (loss : Pattern) : Signs e (lose h s loss) :=
  (confined_check _).bind fun _ ↦ (signs_updateFlow _ _).bind fun _ ↦ confined_pure

theorem signs_reconsiderAtProbe (h : Handle) (f : Flow) (loss : Option Pattern) :
    Signs e (reconsiderAtProbe h f loss) := by
  unfold reconsiderAtProbe
  split
  · exact (signs_lose _ _ _).discard
  · exact confined_pure
  · exact signs_updateFlow _ _

section

variable (harrive : ∀ key h, Signs e (arrive key h)) (hrefresh : ∀ h loss, Signs e (refresh h loss))
include hrefresh

theorem signs_pushLoss (loss : Pattern) (child : Handle) :
    Signs e (pushLoss refresh loss child) := by
  refine (confined_flow? child).bind fun o ↦ ?_
  split
  · split
    · refine (confined_pipe? _).bind fun o ↦ ?_
      split
      · refine (confined_check _).bind fun o ↦ ?_
        split
        · exact (confined_check _).bind fun _ ↦ (signs_updateFlow _ _).bind fun _ ↦ hrefresh _ _
        · exact confined_pure
      · exact confined_pure
    · exact confined_pure
  · exact confined_pure

theorem signs_renewChild (processed : Space) (child : Handle) :
    Signs e (renewChild refresh processed child) := by
  refine (confined_flow? child).bind fun o ↦ ?_
  split
  · split
    · refine (confined_pipe? _).bind fun o ↦ ?_
      split
      · refine (confined_check _).bind fun out ↦ ?_
        split
        · exact (signs_removeFlow _).bind fun _ ↦ confined_pure
        · exact (signs_updateFlow _ _).bind fun _ ↦ (hrefresh _ _).bind fun _ ↦ confined_pure
      · exact (signs_removeFlow _).bind fun _ ↦ confined_pure
    · exact confined_pure
  · exact confined_pure

theorem signs_renewChildren (processed : Space) :
    ∀ cs : List Handle, Signs e (renewChildren refresh processed cs)
  | [] => confined_pure
  | c :: cs => (signs_renewChild hrefresh processed c).bind fun _ ↦
      (signs_renewChildren processed cs).bind fun _ ↦ confined_pure

include harrive

theorem signs_passOn (h : Handle) (loss : Option Pattern) :
    Signs e (passOn arrive refresh h loss) := by
  refine (confined_flow h).bind fun f ↦ ?_
  split
  · exact .forM fun c _ ↦ signs_pushLoss hrefresh _ c
  · split
    · refine (signs_renewChildren hrefresh _ _).bind fun used ↦ (confined_node _).bind fun n ↦
        .forM fun fwd _ ↦ ?_
      split
      · exact signs_send harrive _ _ _ _
      · exact confined_pure
    · exact confined_pure

theorem signs_goOn (h : Handle) (loss : Option Pattern) (alive : Bool) :
    Signs e (goOn arrive refresh h loss alive) := by
  rw [goOn]
  split
  · exact signs_passOn harrive hrefresh h loss
  · exact (signs_dropBelow h).bind fun _ ↦ signs_alterFlow _ _

theorem signs_reconsiderAtRule (h : Handle) (f : Flow) (r : Rule) (loss : Option Pattern) :
    Signs e (reconsiderAtRule arrive refresh h f r loss) := by
  unfold reconsiderAtRule
  split
  · exact confined_pure
  · split
    · exact (signs_recompute _ _).bind fun _ ↦ signs_goOn harrive hrefresh _ _ _
    · split
      · exact (signs_lose _ _ _).bind fun _ ↦ signs_goOn harrive hrefresh _ _ _
      · exact confined_pure

theorem signs_reconsider (h : Handle) (loss : Option Pattern) :
    Signs e (reconsider arrive refresh h loss) := by
  refine (confined_flow? h).bind fun o ↦ ?_
  split
  · refine (confined_node _).bind fun n ↦ ?_
    split
    · exact signs_reconsiderAtRule harrive hrefresh _ _ _ _
    · exact (signs_reconsiderAtProbe _ _ _).bind fun _ ↦ signs_notify _ _ _
    · exact confined_pure
  · exact confined_pure

end

/-- **However much room there is for visits, refreshing signs.** -/
theorem signs_refreshWithin : ∀ (room : Nat) (h : Handle) (loss : Option Pattern),
    Signs e (refreshWithin room h loss)
  | 0, _, _ => confined_tooDeep scenic_lastEvent
  | room + 1, h, loss => Confined.visit scenic_lastEvent
      (signs_reconsider (signs_arriveWithin room) (signs_refreshWithin room) h loss)

/-! ### Entry points -/

theorem confined_room : Confined I P room := confined_network.bind fun _ ↦ confined_pure

theorem signs_arrive (key : NodeKey) (h : Handle) : Signs e (Engine.arrive key h) :=
  confined_room.bind fun _ ↦ signs_arriveWithin _ key h

theorem signs_refresh (h : Handle) (loss : Option Pattern) : Signs e (Engine.refresh h loss) :=
  confined_room.bind fun _ ↦ signs_refreshWithin _ h loss

theorem signs_sendFlows (key : NodeKey) (fwd : Handle) : Signs e (sendFlows key fwd) :=
  confined_sendFlows scenic_lastEvent names_blackhole
    (fun _ _ _ b _ _ _ _ ↦ signs_arrive b.node) key

/-- **What a node pulls is reported under the record.** -/
theorem signs_pull (key : NodeKey) : Signs e (pull key) := by
  refine (confined_node key).bind fun n ↦ .forM fun back _ ↦ (confined_pipe? back).bind fun o ↦ ?_
  split
  · exact (confined_pipe _).bind fun _ ↦ signs_sendFlows _ _
  · exact confined_pure

theorem signs_refreshFlows (key : NodeKey) (ports : PortSet) (loss : Option Pattern) :
    Signs e (refreshFlows key ports loss) := by
  refine (confined_node key).bind fun n ↦ .forM fun h _ ↦ (confined_flow? h).bind fun o ↦ ?_
  split
  · exact signs_refresh h loss
  · exact confined_pure

/-! ### Pipes -/

/-! ### Wiring and priority sign -/

theorem signs_addPipe (w : Wire) : Signs e (addPipe w) :=
  confined_network.bind fun _ ↦ signs_update_bind (fun _ ↦ rfl) <|
    confined_network.bind fun _ ↦ signs_update_bind (fun _ ↦ rfl) <|
      (signs_alterNode _ _).bind fun _ ↦ (signs_alterNode _ _).bind fun _ ↦ confined_pure

theorem signs_removeSide (h : Handle) (side : Pipe) : Signs e (removeSide h side) :=
  signs_update_bind (fun _ ↦ rfl) (signs_updateNode _ _)

theorem signs_removePipe (h : Handle) : Signs e (removePipe h) := by
  refine (confined_pipe? h).bind fun o ↦ ?_
  split
  · refine (signs_removeSide _ _).bind fun _ ↦ (confined_pipe? _).bind fun o ↦ ?_
    split
    · exact signs_removeSide _ _
    · exact confined_pure
  · exact confined_pure

theorem signs_connect (key : NodeKey) : Signs e (connect key) :=
  (confined_node key).bind fun _ ↦ (confined_ask _).bind fun _ ↦
    .forM fun w _ ↦ (signs_addPipe w).discard

theorem signs_disconnect (key : NodeKey) : Signs e (disconnect key) :=
  (confined_node key).bind fun _ ↦ .forM fun h _ ↦ signs_removePipe h

theorem signs_connectLink (l : Link) : Signs e (connectLink l) := by
  refine confined_network.bind fun net ↦
    .forM fun s _ ↦ .forM fun r _ ↦ (confined_node _).bind fun _ ↦
    (confined_node _).bind fun _ ↦ (confined_check _).bind fun o ↦ ?_
  split
  · exact (signs_addPipe _).bind fun _ ↦ signs_sendFlows _ _
  · exact confined_pure

theorem signs_cutPipe (l : Link) (fwd : Handle) : Signs e (cutPipe l fwd) := by
  refine (confined_pipe fwd).bind fun side ↦ ?_
  split
  · exact confined_pure
  refine (confined_pipe _).bind fun back ↦ ?_
  split
  · exact confined_pure
  refine (confined_node _).bind fun n ↦
    Confined.bind (.forM fun h _ ↦ ?_) fun _ ↦ signs_removePipe fwd
  refine (confined_flow? h).bind fun o ↦ ?_
  split
  · exact signs_removeFlow h
  · exact confined_pure

theorem signs_disconnectLink (l : Link) : Signs e (disconnectLink l) :=
  confined_network.bind fun _ ↦ .forM fun _ _ ↦ (confined_node _).bind fun _ ↦
    .forM fun fwd _ ↦ signs_cutPipe l fwd

/-! ### Influences -/

theorem signs_addInfluence (i : Influence) : Signs e (addInfluence i) :=
  confined_network.bind fun _ ↦ signs_update_bind (fun _ ↦ rfl) <|
    (signs_alterNode _ _).bind fun _ ↦ signs_alterNode _ _

theorem signs_reportCoverage (id : NodeId) (c : Coverage) : Signs e (reportCoverage id c) := by
  rw [reportCoverage]
  split
  · exact signs_report rfl
  · split
    · exact signs_report rfl
    · exact confined_pure

theorem signs_relate (key : NodeKey) : Signs e (relate key) := by
  refine (confined_node key).bind fun n ↦ ?_
  split
  · split
    · exact (confined_ask _).bind fun _ ↦
        (confined_check _).bind fun _ ↦ (confined_ask _).bind fun _ ↦
        (Confined.forM fun i _ ↦ signs_addInfluence i).bind fun _ ↦ signs_reportCoverage _ _
    · exact confined_pure
  · exact confined_pure

theorem signs_takeWon (key : NodeKey) : Signs e (takeWon key) := by
  refine (confined_node key).bind fun n ↦ ?_
  split
  · refine .forM fun k _ ↦ confined_network.bind fun net ↦ ?_
    split
    · exact signs_refreshFlows _ _ _
    · exact confined_pure
  · exact confined_pure

theorem signs_removeInfluence (k : Handle) : Signs e (removeInfluence k) :=
  confined_network.bind fun _ ↦ signs_update_bind (fun _ ↦ rfl) confined_pure

theorem signs_dropLost (k : Handle) : Signs e (dropLost k) := by
  refine (signs_removeInfluence k).bind fun o ↦ ?_
  split
  · exact (confined_node _).bind fun _ ↦ signs_updateNode _ _
  · exact confined_pure

theorem signs_dropWon : ∀ ks : List Handle, Signs e (dropWon ks)
  | [] => confined_pure
  | k :: ks => by
    refine (signs_removeInfluence k).bind fun o ↦ ?_
    split
    · exact signs_dropWon ks
    · exact (confined_node _).bind fun _ ↦ (signs_updateNode _ _).bind fun _ ↦
        (signs_dropWon ks).bind fun _ ↦ confined_pure

theorem signs_release (key : NodeKey) : Signs e (release key) := by
  refine (confined_node key).bind fun n ↦ ?_
  split
  · exact (signs_updateNode _ _).bind fun _ ↦
      (Confined.forM fun k _ ↦ signs_dropLost k).bind fun _ ↦
      (signs_dropWon _).bind fun _ ↦ .forM fun _ _ ↦ signs_refreshFlows _ _ _
  · exact confined_pure

/-! ### Nodes -/

/-- A new node is entered without a report. -/
theorem confined_addNode (n : NodeKey → Node) :
    Confined (fun net ↦ net.lastEvent = e) P (addNode n) := by
  refine confined_network.bind fun _ ↦ Confined.bind ?_ fun _ ↦ confined_pure
  exact confined_update fun _ hI ↦ hI

theorem signs_eraseNode (key : NodeKey) : Signs e (eraseNode key) :=
  (confined_node key).bind fun _ ↦ signs_update fun _ ↦ rfl

theorem signs_removeFlows (key : NodeKey) : Signs e (removeFlows key) :=
  (confined_node key).bind fun _ ↦ .forM fun h _ ↦ signs_removeFlow h

/-- **Removing a rule**, with what is refreshed on that account. -/
theorem signs_removeRuleNode (key : NodeKey) : Signs e (removeRuleNode key) :=
  (signs_removeFlows key).bind fun _ ↦ (signs_disconnect key).bind fun _ ↦
    (signs_release key).bind fun _ ↦ signs_eraseNode key

theorem signs_removeRuleNodes (l : List α) (key : α → NodeKey) :
    Signs e (l.forM fun a ↦ removeRuleNode (key a)) := .forM fun a _ ↦ signs_removeRuleNode (key a)

theorem signs_removePlainNode (key : NodeKey) : Signs e (removePlainNode key) :=
  (signs_removeFlows key).bind fun _ ↦ (signs_disconnect key).bind fun _ ↦ signs_eraseNode key

end Engine

end HeaderFlow
