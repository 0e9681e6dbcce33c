import HeaderFlow.Network.Mutation

/-!
# What a successful computation has done

`Engine.Leads` relates the network before a computation to the network after it and to its answer,
where the computation was not halted; reports are forgotten. A computation is read backwards through
this relation: **if it leads somewhere, then so did each of its steps**, and every elementary step
says which network it led to. A computation that halts leads nowhere, so nothing is asked of
networks that a change was broken off in.

## Reading a computation

A hypothesis `Leads x net a net'` is taken apart by `Leads.bind`, which gives the network in the
middle, and by the simplification rules of this module, one for each elementary step followed by
anything (`…_bind`) and one for the step by itself where it may come last. Reading a node, a flow or
a pipe gives the fact that it is there. Loops are read by `Leads.forM`, whose invariant is told the
rest of the list.

The module is about the engine only, so that the later ones need not unfold it: whatever a change
does is stated as an equation between networks, or between parts of them.
-/

namespace HeaderFlow.Engine

variable {α β : Type} {net net' : Network} {a : α} {b : β}

/-- Started on `net`, the computation comes to its end with the answer `a` and the network
`net'`. -/
def Leads (x : Engine α) (net : Network) (a : α) (net' : Network) : Prop :=
  ∃ reports reports', x ⟨net, reports⟩ = .ok a ⟨net', reports'⟩

/-! ### Sequencing -/

/-- An answer that is known leads where it started. -/
@[simp] theorem leads_pure {a' : α} : Leads (pure a) net a' net' ↔ a' = a ∧ net' = net := by
  simp [Leads, pure, EStateM.pure, eq_comm]

/-- What halts leads nowhere. -/
@[simp] theorem leads_throw {e : Halt} : ¬ Leads (throw e : Engine α) net a net' := by
  rintro ⟨_, _, h⟩
  cases h

/-- If a sequence leads somewhere, so does its first part, and the rest from there. -/
theorem Leads.bind {x : Engine α} {k : α → Engine β} (h : Leads (x >>= k) net b net') :
    ∃ a mid, Leads x net a mid ∧ Leads (k a) mid b net' := by
  obtain ⟨rs, rs', h⟩ := h
  simp only [Bind.bind, EStateM.bind] at h
  split at h
  · rename_i a s hx
    exact ⟨a, s.network, ⟨rs, s.reports, hx⟩, ⟨s.reports, rs', h⟩⟩
  · exact absurd h (by simp)

/-- An answer that is changed afterwards was there before. -/
theorem Leads.map {x : Engine α} {k : α → β} (h : Leads (k <$> x) net b net') :
    ∃ a, Leads x net a net' ∧ b = k a := by
  obtain ⟨rs, rs', h⟩ := h
  simp only [Functor.map, EStateM.map] at h
  split at h
  · rename_i a s hx
    simp only [EStateM.Result.ok.injEq] at h
    obtain ⟨rfl, rfl⟩ := h
    exact ⟨a, ⟨rs, rs', hx⟩, rfl⟩
  · exact absurd h (by simp)

/-- An answer that is not needed was there. -/
theorem Leads.discard {x : Engine α} {u : Unit} (h : Leads (discard x) net u net') :
    ∃ a, Leads x net a net' := by
  obtain ⟨a, ha, -⟩ := Leads.map (k := fun _ ↦ ()) h
  exact ⟨a, ha⟩

/-- A condition that was asked first. -/
theorem Leads.ite {c : Prop} [Decidable c] {x y : Engine α}
    (h : Leads (if c then x else y) net a net') :
    (c ∧ Leads x net a net') ∨ (¬ c ∧ Leads y net a net') := by
  split at h
  · exact .inl ⟨‹_›, h⟩
  · exact .inr ⟨‹_›, h⟩

/-- A walk along a list keeps what each of its steps keeps. The invariant is told what part of the
list is still to come. -/
theorem Leads.forM {l : List α} {f : α → Engine Unit} {u : Unit} {I : List α → Network → Prop}
    (h : Leads (l.forM f) net u net') (hI : I l net)
    (hstep : ∀ a rest net net', a ∈ l → I (a :: rest) net → Leads (f a) net () net' →
      I rest net') : I [] net' := by
  induction l generalizing net with
  | nil =>
    obtain ⟨-, rfl⟩ := leads_pure.1 h
    exact hI
  | cons a l ih =>
    obtain ⟨⟨⟩, mid, ha, hl⟩ := Leads.bind (k := fun _ ↦ l.forM f) h
    exact ih hl (hstep a l net mid List.mem_cons_self hI ha) fun a' rest n n' hmem ↦
      hstep a' rest n n' (List.mem_cons_of_mem _ hmem)

/-! ### Elementary steps

Reading leaves everything as it is, so what follows is run on the same network. -/

/-! ### Elementary steps

What a step reads is there, and what it writes is a record update. -/

@[simp] theorem leads_network_bind {k : Network → Engine β} :
    Leads (network >>= k) net b net' ↔ Leads (k net) net b net' := Iff.rfl

/-- Reading the network, as it is run. -/
theorem network_bind_run {k : Network → Engine β} {p : Progress} :
    (network >>= k) p = k p.network p := rfl

/-- A question, as it is run: it is answered, or its fault halts the computation. -/
theorem ask_bind_run {q : Network → Checked α} {k : α → Engine β} {p : Progress} :
    (ask q >>= k) p = match q p.network with
      | .ok a => k a p
      | .error f => .error (.fault f) p := by
  rw [ask, bind_assoc, network_bind_run]
  cases q p.network <;> rfl

/-- A question was answered. -/
@[simp] theorem leads_ask_bind {q : Network → Checked α} {k : α → Engine β} :
    Leads (ask q >>= k) net b net' ↔ ∃ a, q net = .ok a ∧ Leads (k a) net b net' := by
  simp only [Leads, ask_bind_run]
  cases q net <;> simp

@[simp] theorem leads_check_bind {c : Checked α} {k : α → Engine β} :
    Leads (check c >>= k) net b net' ↔ ∃ a, c = .ok a ∧ Leads (k a) net b net' := leads_ask_bind

/-- What a handle names can be got. -/
theorem get_eq_ok {arena : Arena α} {h : Handle} :
    arena.get h = .ok a ↔ arena.find? h = some a := by
  rw [Arena.get]
  cases arena.find? h <;> simp

@[simp] theorem leads_node_bind {key : NodeKey} {k : Node → Engine β} :
    Leads (node key >>= k) net b net' ↔
      ∃ n, net.nodeAt? key = some n ∧ Leads (k n) net b net' := by
  rw [node, leads_ask_bind]
  simp only [Network.node]
  cases net.nodeAt? key <;> simp

@[simp] theorem leads_flow_bind {h : Handle} {k : Flow → Engine β} :
    Leads (flow h >>= k) net b net' ↔
      ∃ f, net.flows.find? h = some f ∧ Leads (k f) net b net' := by
  simp only [flow, leads_ask_bind, get_eq_ok]

@[simp] theorem leads_pipe_bind {h : Handle} {k : Pipe → Engine β} :
    Leads (pipe h >>= k) net b net' ↔
      ∃ p, net.pipes.find? h = some p ∧ Leads (k p) net b net' := by
  simp only [pipe, leads_ask_bind, get_eq_ok]

@[simp] theorem leads_flow?_bind {h : Handle} {k : Option Flow → Engine β} :
    Leads (flow? h >>= k) net b net' ↔ Leads (k (net.flows.find? h)) net b net' := Iff.rfl

@[simp] theorem leads_pipe?_bind {h : Handle} {k : Option Pipe → Engine β} :
    Leads (pipe? h >>= k) net b net' ↔ Leads (k (net.pipes.find? h)) net b net' := Iff.rfl

@[simp] theorem leads_event_bind {k : Option Event → Engine β} :
    Leads (event >>= k) net b net' ↔ Leads (k net.lastEvent) net b net' := Iff.rfl

@[simp] theorem leads_room_bind {k : Nat → Engine β} :
    Leads (room >>= k) net b net' ↔ Leads (k net.budget.maxDepth) net b net' := Iff.rfl

@[simp] theorem leads_update_bind {f : Network → Network} {k : Unit → Engine β} :
    Leads (update f >>= k) net b net' ↔ Leads (k ()) (f net) b net' := Iff.rfl

@[simp] theorem leads_update {f : Network → Network} {u : Unit} :
    Leads (update f) net u net' ↔ net' = f net := by
  constructor
  · rintro ⟨_, _, h⟩
    cases h
    rfl
  · rintro rfl
    exact ⟨[], [], rfl⟩

/-- The network with one node changed. -/
abbrev withNode (net : Network) (key : NodeKey) (f : Node → Node) : Network :=
  { net with nodes := net.nodes.map fun n ↦ if n.key == key then f n else n }

/-- The network with one flow changed. -/
abbrev withFlow (net : Network) (h : Handle) (f : Flow → Flow) : Network :=
  { net with flows := net.flows.modify h f }

@[simp] theorem leads_updateNode {key : NodeKey} {f : Node → Node} {u : Unit} :
    Leads (updateNode key f) net u net' ↔ net' = withNode net key f := leads_update

@[simp] theorem leads_updateNode_bind {key : NodeKey} {f : Node → Node} {k : Unit → Engine β} :
    Leads (updateNode key f >>= k) net b net' ↔ Leads (k ()) (withNode net key f) b net' :=
  leads_update_bind

@[simp] theorem leads_updateFlow {h : Handle} {f : Flow → Flow} {u : Unit} :
    Leads (updateFlow h f) net u net' ↔ net' = withFlow net h f := leads_update

@[simp] theorem leads_updateFlow_bind {h : Handle} {f : Flow → Flow} {k : Unit → Engine β} :
    Leads (updateFlow h f >>= k) net b net' ↔ Leads (k ()) (withFlow net h f) b net' :=
  leads_update_bind

/-- A node that is altered was there. -/
@[simp] theorem leads_alterNode_bind {key : NodeKey} {f : Node → Node} {k : Unit → Engine β} :
    Leads (alterNode key f >>= k) net b net' ↔
      (∃ n, net.nodeAt? key = some n) ∧ Leads (k ()) (withNode net key f) b net' := by
  simp only [alterNode, bind_assoc, leads_node_bind, leads_updateNode_bind, exists_and_right]

@[simp] theorem leads_alterNode {key : NodeKey} {f : Node → Node} {u : Unit} :
    Leads (alterNode key f) net u net' ↔
      (∃ n, net.nodeAt? key = some n) ∧ net' = withNode net key f := by
  simp only [alterNode, leads_node_bind, leads_updateNode, exists_and_right]

@[simp] theorem leads_alterFlow {h : Handle} {f : Flow → Flow} {u : Unit} :
    Leads (alterFlow h f) net u net' ↔
      (∃ g, net.flows.find? h = some g) ∧ net' = withFlow net h f := by
  simp only [alterFlow, leads_flow_bind, leads_updateFlow, exists_and_right]

@[simp] theorem leads_setEvent_bind {e : Event} {k : Unit → Engine β} :
    Leads (setEvent e >>= k) net b net' ↔
      Leads (k ()) { net with lastEvent := some e } b net' :=
  leads_update_bind

/-- Reports are forgotten. -/
@[simp] theorem leads_report {r : Report} {u : Unit} :
    Leads (report r) net u net' ↔ net' = net := by
  constructor
  · rintro ⟨_, _, h⟩
    cases h
    rfl
  · rintro rfl
    exact ⟨[], [_], rfl⟩

@[simp] theorem leads_insertFlow_bind {f : Handle → Flow} {k : Handle → Engine β} :
    Leads (insertFlow f >>= k) net b net' ↔
      Leads (k net.flows.nextHandle)
        { net with flows := net.flows.insert (f net.flows.nextHandle) } b net' := Iff.rfl

/-- A new flow gets the next handle. -/
theorem leads_insertFlow {f : Handle → Flow} {h : Handle} :
    Leads (insertFlow f) net h net' ↔ h = net.flows.nextHandle ∧
      net' = { net with flows := net.flows.insert (f net.flows.nextHandle) } := by
  rw [← bind_pure (insertFlow f), leads_insertFlow_bind, leads_pure]

/-! ### Visits -/

/-- Entering a visit changes the budget and nothing else. -/
theorem Leads.enter {u : Unit} (h : Leads Engine.enter net u net') :
    ∃ budget, net' = { net with budget := budget } := by
  rw [Engine.enter, leads_network_bind, leads_update_bind] at h
  split at h
  · exact absurd h leads_throw
  · exact ⟨_, (leads_pure.1 h).2⟩

/-- Being too deep leads nowhere. -/
theorem not_leads_tooDeep {u : Unit} : ¬ Leads tooDeep net u net' := by
  rw [tooDeep, leads_network_bind]
  exact leads_throw

/-- A visit does what its body does, up to the budget. -/
theorem Leads.visit {body : Engine Unit} {u : Unit} (h : Leads (visit body) net u net') :
    ∃ before after mid, Leads body { net with budget := before } () mid ∧
      net' = { mid with budget := after } := by
  obtain ⟨⟨⟩, net₁, henter, h⟩ := h.bind
  obtain ⟨before, rfl⟩ := henter.enter
  obtain ⟨⟨⟩, mid, hbody, h⟩ := h.bind
  exact ⟨before, mid.budget.leave, mid, hbody, leads_update.1 h⟩

end HeaderFlow.Engine

namespace HeaderFlow.Network

open Engine

/-- A change that succeeds has come to its end. -/
theorem leads_of_carryOut {α : Type} {net : Network} {change : Engine α} {a : α}
    (h : (net.carryOut change).result = .ok a) :
    Leads change { net with budget := net.budget.reset } a (net.carryOut change).network := by
  rw [carryOut] at h ⊢
  split at h
  · rename_i a' p hrun
    obtain rfl := Except.ok.inj h
    exact ⟨[], p.reports, by simpa [EStateM.run, hrun] using hrun⟩
  · exact absurd h (by simp)
  · exact absurd h (by simp)

end HeaderFlow.Network
