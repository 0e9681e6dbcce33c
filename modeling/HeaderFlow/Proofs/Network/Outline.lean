import HeaderFlow.Proofs.Network.Ending
import HeaderFlow.Proofs.Network.Invariant

/-!
# Computations that leave everything in its place

Most of what a change does is done to flows, pipes and influences, and to what nodes list of them.
The rest, the *outline* of the network, is changed in a few places only: where a node comes or goes,
and where the change says what it is. `Engine.Tame` says of a computation that it keeps to the
former, and reports nothing about how rules cover each other. **However such a computation ends, the
outline is as before**, as long as no two nodes have one key (`Tame.stops`).

A tame computation is composed of reading, of updates that keep the outline, of reports and of
visits. Telling a probe is an elementary step here: it changes the role of a node, which keeps the
outline only because the node was found to be a probe.

`Engine.Stops` says of a computation on what progress it stops, whether it was halted or came to
its end. In contrast to `Leads` and `Ends`, it tells the reports and nothing is left out.

## Three ways to speak of a computation

* `Leads x net a net'`: it came to its end. Used for everything about flows.
* `Ends x net B Q`: it came to its end or overran the budget. Used for what holds of networks after
  changes that were broken off.
* `Stops x p B Q`: it stopped, for whatever reason, on some progress. Used for reports and for
  faults, and where it has to be shown that a fault does not occur.

Being tame is a property of the text of a computation, as it were: an inductive predicate with one
constructor for each way of composing steps. The consequences are then drawn once, by one induction
(`Tame.stops`, `Tame.steady`), and what is left for each function of the engine is to say how it is
composed.
-/

namespace HeaderFlow

/-- The report says how rules cover a new rule. -/
def Report.isCoverage : Report → Bool
  | .shadow .. | .unreachable .. => true
  | _ => false

namespace Engine

variable {α β : Type} {v : Bool} {net : Network} {a : α} {x : Engine α} {k : α → Engine β}
  {key : NodeKey} {p p' p'' : Progress} {B B' : Halt → Progress → Prop} {Q Q' : α → Progress → Prop}
  {P : β → Progress → Prop}

/-! ### Where a computation stops -/

/-- Started on `p`, the computation leaves a progress with `B` if it is halted, and an answer and a
progress with `Q` if it comes to its end. -/
def Stops (x : Engine α) (p : Progress) (B : Halt → Progress → Prop)
    (Q : α → Progress → Prop) : Prop :=
  match x p with
  | .ok a p' => Q a p'
  | .error e p' => B e p'

/-- An answer that is known stops at once. -/
@[simp] theorem stops_pure : Stops (pure a) p B Q ↔ Q a p := Iff.rfl

/-- **A sequence stops where its first part is halted**, or where its second part stops. -/
theorem Stops.bind (hx : Stops x p B Q) (hk : ∀ a p', Q a p' → Stops (k a) p' B P) :
    Stops (x >>= k) p B P := by
  simp only [Stops, Bind.bind, EStateM.bind] at hx ⊢
  cases hrun : x p with
  | ok a p' => exact hk a p' (by simpa only [hrun] using hx)
  | error e p' => simpa only [hrun] using hx

/-- Both conditions may be weakened. -/
theorem Stops.mono (hx : Stops x p B Q) (hB : ∀ e p', B e p' → B' e p')
    (hQ : ∀ a p', Q a p' → Q' a p') : Stops x p B' Q' := by
  simp only [Stops] at hx ⊢
  cases hrun : x p with
  | ok a p' => exact hQ a p' (by simpa only [hrun] using hx)
  | error e p' => exact hB e p' (by simpa only [hrun] using hx)

/-- A walk along a list keeps what each of its steps keeps, wherever it stops. -/
theorem Stops.forM {l : List α} {f : α → Engine Unit} {I : Progress → Prop} (hI : I p)
    (hstep : ∀ a ∈ l, ∀ p, I p → Stops (f a) p (fun _ ↦ I) fun _ ↦ I) :
    Stops (l.forM f) p (fun _ ↦ I) fun _ ↦ I := by
  induction l generalizing p with
  | nil => exact hI
  | cons a l ih =>
    exact Stops.bind (k := fun _ ↦ l.forM f) (hstep a List.mem_cons_self p hI) fun _ p' hI' ↦
      ih hI' fun b hb ↦ hstep b (List.mem_cons_of_mem _ hb)

@[simp] theorem stops_network_bind {k : Network → Engine β} :
    Stops (network >>= k) p B P ↔ Stops (k p.network) p B P := Iff.rfl

@[simp] theorem stops_event_bind {k : Option Event → Engine β} :
    Stops (event >>= k) p B P ↔ Stops (k p.network.lastEvent) p B P := Iff.rfl

@[simp] theorem stops_update_bind {f : Network → Network} {k : Unit → Engine β} :
    Stops (update f >>= k) p B P ↔ Stops (k ()) { p with network := f p.network } B P := Iff.rfl

@[simp] theorem stops_update {f : Network → Network} {Q : Unit → Progress → Prop} :
    Stops (update f) p B Q ↔ Q () { p with network := f p.network } := Iff.rfl

@[simp] theorem stops_setEvent_bind {e : Event} {k : Unit → Engine β} :
    Stops (setEvent e >>= k) p B P ↔
      Stops (k ()) { p with network := { p.network with lastEvent := some e } } B P := Iff.rfl

/-- A question is answered, or halts the computation by its fault. -/
@[simp] theorem stops_ask_bind {q : Network → Checked α} :
    Stops (ask q >>= k) p B P ↔ match q p.network with
      | .ok a => Stops (k a) p B P
      | .error f => B (.fault f) p := by
  simp only [Stops, ask_bind_run]
  cases q p.network <;> rfl

/-- A question that has no answer halts the computation. -/
theorem Stops.ask_bind {q : Network → Checked α} (hB : ∀ f, q p.network = .error f → B (.fault f) p)
    (hk : ∀ a, q p.network = .ok a → Stops (k a) p B P) : Stops (ask q >>= k) p B P := by
  rw [stops_ask_bind]
  cases hq : q p.network with
  | ok a => exact hk a hq
  | error f => exact hB f hq

/-- A node is there, or there is a fault. -/
theorem Stops.node_bind {k : Node → Engine β} (hB : ∀ f, B (.fault f) p)
    (hk : ∀ n, p.network.nodeAt? key = some n → Stops (k n) p B P) :
    Stops (node key >>= k) p B P := by
  refine Stops.ask_bind (fun f _ ↦ hB f) fun n hn ↦ hk n ?_
  rw [Network.node] at hn
  split at hn
  · rename_i m hm
    rw [hm, Except.ok.inj hn]
  · cases hn

/-! ### The outline -/

/-- What there is, apart from what flows through it. -/
def outline (net : Network) : List Core × Registry × NodeKey × Option Event :=
  (net.layout.cores, net.registry, net.nextKey, net.lastEvent)

/-- Nothing but flows, pipes and influences has changed, and nothing was reported about how rules
cover others. -/
structure Mild (p p' : Progress) : Prop where
  frame : frame p'.network = frame p.network
  outline : outline p'.network = outline p.network
  reports : p'.reports.filter Report.isCoverage = p.reports.filter Report.isCoverage

namespace Mild

/-- Nothing changed. -/
theorem refl (p : Progress) : Mild p p := ⟨rfl, rfl, rfl⟩

/-- Mild changes one after the other are mild. -/
theorem trans (h : Mild p p') (h' : Mild p' p'') : Mild p p'' :=
  ⟨h'.frame.trans h.frame, h'.outline.trans h.outline, h'.reports.trans h.reports⟩

/-- The nodes are what they were. -/
theorem cores (h : Mild p p') : p'.network.layout.cores = p.network.layout.cores :=
  congrArg Prod.fst h.outline

theorem nodup (h : Mild p p') (hp : (p.network.layout.cores.map Core.key).Nodup) :
    (p'.network.layout.cores.map Core.key).Nodup := h.cores ▸ hp

/-- A report that is not about how rules cover others. -/
theorem report {r : Report} (hr : r.isCoverage = false) (p : Progress) :
    Mild p { p with reports := r :: p.reports } :=
  ⟨rfl, rfl, by simp [hr]⟩

/-- What a probe remembers is of no account. -/
theorem setProbe {n : Node} {q q' : Probe} (hp : (p.network.layout.cores.map Core.key).Nodup)
    (hn : p.network.nodeAt? key = some n) (hq : n.probe? = some q) :
    Mild p { p with network := withNode p.network key fun n ↦ { n with role := .probe q' } } := by
  have hquiet := quiet_setProbe (q := q') (map_key_cores p.network ▸ hp) hn hq
  exact ⟨rfl, Prod.ext (congrArg Layout.cores hquiet.layout) rfl, rfl⟩

end Mild

/-- **Telling a probe is mild**, because it was found to be one. -/
theorem stops_notify {h : Handle} {change : Network → Checked FlowChange}
    (hp : (p.network.layout.cores.map Core.key).Nodup) :
    Stops (notify key h change) p (fun _ ↦ Mild p) fun _ ↦ Mild p := by
  refine Stops.node_bind (fun _ ↦ .refl p) fun n hn ↦ ?_
  split
  · rename_i q hq
    split
    · exact Mild.refl p
    refine Stops.ask_bind (fun _ _ ↦ .refl p) fun c _ ↦
      Stops.ask_bind (fun _ _ ↦ .refl p) fun a _ ↦ ?_
    obtain ⟨q', t⟩ := a
    cases t with
    | none => exact .setProbe hp hn hq
    | some t => exact (Mild.setProbe hp hn hq).trans (.report rfl _)
  · exact Mild.refl p

/-! ### Tame computations -/

/-- The computation keeps the outline, and reports nothing about how rules cover others. If `v` is
true, it may make visits. -/
inductive Tame (v : Bool) : {α : Type} → Engine α → Prop
  | pure {α : Type} (a : α) : Tame v (pure a)
  | bind {α β : Type} {x : Engine α} {k : α → Engine β} :
    Tame v x → (∀ a, Tame v (k a)) → Tame v (x >>= k)
  | network : Tame v network
  | ask {α : Type} (q : Network → Checked α) : Tame v (ask q)
  | update {f : Network → Network} (hf : ∀ net, (f net).budget = net.budget ∧
      frame (f net) = frame net ∧ outline (f net) = outline net) : Tame v (update f)
  | report {r : Report} (hr : r.isCoverage = false) : Tame v (report r)
  | notify (key : NodeKey) (h : Handle) (change : Network → Checked FlowChange) :
    Tame v (notify key h change)
  | visit {body : Engine Unit} (hv : v = true) : Tame v body → Tame v (visit body)
  | tooDeep (hv : v = true) : Tame v (enter >>= fun _ ↦ tooDeep)

/-- Entering a visit changes the budget only. -/
theorem stops_enter : Stops enter p (fun _ ↦ Mild p) fun _ ↦ Mild p := by
  rw [enter, stops_network_bind, Budget.enter]
  change Stops (update _ >>= _) _ _ _
  rw [stops_update_bind]
  cases p.network.budget.count.overrun? <;> exact ⟨rfl, rfl, rfl⟩

/-- **Wherever a tame computation stops, the outline is as before.** -/
theorem Tame.stops (hx : Tame v x) (hp : (p.network.layout.cores.map Core.key).Nodup) :
    Stops x p (fun _ ↦ Mild p) fun _ ↦ Mild p := by
  induction hx generalizing p with
  | pure a => exact Mild.refl p
  | network => exact Mild.refl p
  | report hr => exact Mild.report hr p
  | notify key h change => exact stops_notify hp
  | update hf => exact ⟨(hf _).2.1, (hf _).2.2, rfl⟩
  | ask q =>
    rw [← bind_pure (Engine.ask q)]
    exact Stops.ask_bind (fun _ _ ↦ .refl p) fun _ _ ↦ Mild.refl p
  | bind _ _ ihx ihk =>
    refine (ihx hp).bind fun a p' hmild ↦ ?_
    exact (ihk a (hmild.nodup hp)).mono (fun _ _ h ↦ hmild.trans h) fun _ _ h ↦ hmild.trans h
  | visit _ _ ih =>
    refine stops_enter.bind fun _ p' hmild ↦ ?_
    refine ((ih (hmild.nodup hp)).mono (fun _ _ h ↦ hmild.trans h) fun _ _ h ↦ hmild.trans h).bind
      fun _ p'' hmild' ↦ ?_
    exact hmild'.trans ⟨rfl, rfl, rfl⟩
  | tooDeep => exact stops_enter.bind fun _ p' hmild ↦ hmild

/-- Telling a probe makes no visit. -/
theorem steady_notify (key : NodeKey) (h : Handle) (change : Network → Checked FlowChange) :
    Steady (notify key h change) := by
  refine (steady_node key).bind fun n ↦ ?_
  split
  · split
    · exact steady_pure
    · refine (steady_ask _).bind fun c ↦ (steady_check _).bind fun ⟨p, t⟩ ↦ ?_
      refine (steady_updateNode _ _).bind fun _ ↦ ?_
      split
      · exact steady_event.bind fun _ ↦ steady_report _
      · exact steady_pure
  · exact steady_pure

/-- A tame computation without visits is steady. -/
theorem Tame.steady (hx : Tame false x) : Steady x := by
  induction hx with
  | pure a => exact .pure a
  | network => exact .network
  | report _ => exact .report _
  | notify key h change => exact steady_notify key h change
  | update hf => exact .update fun net ↦ ⟨(hf net).1, (hf net).2.1⟩
  | ask q => exact .ask q
  | bind _ _ ihx ihk => exact ihx.bind ihk
  | visit hv => cases hv
  | tooDeep hv => cases hv

/-! ### Elementary steps -/

theorem tame_pure : Tame v (pure a : Engine α) := .pure a

theorem Tame.discard (hx : Tame v x) : Tame v (discard x) := by
  change Tame v ((fun _ ↦ ()) <$> x)
  rw [map_eq_pure_bind]
  exact hx.bind fun _ ↦ tame_pure

/-- A walk along a list is tame if its steps are. -/
theorem Tame.forM {f : α → Engine Unit} (hf : ∀ a, Tame v (f a)) : ∀ l : List α, Tame v (l.forM f)
  | [] => tame_pure
  | a :: l => Tame.bind (k := fun _ ↦ l.forM f) (hf a) fun _ ↦ Tame.forM hf l

/-! ### Elementary steps -/

theorem tame_network : Tame v network := .network

theorem tame_ask (q : Network → Checked α) : Tame v (ask q) := .ask q

theorem tame_check (c : Checked α) : Tame v (check c) := tame_ask _

theorem tame_node (key : NodeKey) : Tame v (node key) := tame_ask _

theorem tame_flow (h : Handle) : Tame v (flow h) := tame_ask _

theorem tame_pipe (h : Handle) : Tame v (pipe h) := tame_ask _

theorem tame_flow? (h : Handle) : Tame v (flow? h) := tame_network.bind fun _ ↦ tame_pure

theorem tame_pipe? (h : Handle) : Tame v (pipe? h) := tame_network.bind fun _ ↦ tame_pure

theorem tame_event : Tame v event := tame_network.bind fun _ ↦ tame_pure

theorem tame_room : Tame v room := tame_network.bind fun _ ↦ tame_pure

/-- An update is tame if it keeps budget, frame and outline. -/
theorem tame_update {f : Network → Network} (hf : ∀ net, (f net).budget = net.budget ∧
    frame (f net) = frame net ∧ outline (f net) = outline net) : Tame v (update f) := .update hf

theorem tame_update_bind {f : Network → Network} {k : Unit → Engine β}
    (hf : ∀ net, (f net).budget = net.budget ∧ frame (f net) = frame net ∧
      outline (f net) = outline net)
    (hk : Tame v (k ())) : Tame v (update f >>= k) :=
  (tame_update hf).bind fun _ ↦ hk

/-- The lists of a node may change. -/
theorem tame_updateNode (key : NodeKey) {f : Node → Node} (hf : ∀ n, (f n).core = n.core) :
    Tame v (updateNode key f) :=
  tame_update fun net ↦ ⟨rfl, rfl, Prod.ext (cores_withNode fun n (_ : n ∈ net.nodes) _ ↦ hf n) rfl⟩

theorem tame_updateFlow (h : Handle) (f : Flow → Flow) : Tame v (updateFlow h f) :=
  tame_update fun _ ↦ ⟨rfl, rfl, rfl⟩

theorem tame_insertFlow (f : Handle → Flow) : Tame v (insertFlow f) :=
  tame_network.bind fun _ ↦ tame_update_bind (fun _ ↦ ⟨rfl, rfl, rfl⟩) tame_pure

/-- A node may be altered as long as its core stays. -/
theorem tame_alterNode (key : NodeKey) {f : Node → Node} (hf : ∀ n, (f n).core = n.core) :
    Tame v (alterNode key f) :=
  (tame_node key).bind fun _ ↦ tame_updateNode key hf

theorem tame_alterFlow (h : Handle) (f : Flow → Flow) : Tame v (alterFlow h f) :=
  (tame_flow h).bind fun _ ↦ tame_updateFlow h f

/-- Reports are tame unless they are about how rules cover others. -/
theorem tame_report {r : Report} (hr : r.isCoverage = false) : Tame v (report r) := .report hr

theorem tame_notify (key : NodeKey) (h : Handle) (change : Network → Checked FlowChange) :
    Tame v (notify key h change) := .notify key h change

end Engine

end HeaderFlow
