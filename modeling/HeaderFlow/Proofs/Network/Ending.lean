import HeaderFlow.Proofs.Network.Engine

/-!
# How a computation ends

`Engine.Leads` says what a computation has done that came to its end. A change that is broken off
leaves the network as it was when the budget was overrun, **and the next change starts from there**.
`Engine.Ends` speaks about both: it has one condition for the network that is left if the budget is
overrun, and one for the answer and the network at the end. Nothing is said of a fault.

Only a visit can overrun the budget. A computation without visits is `Steady`, and what `Leads` says
of it is all there is to say (`Steady.ends`).

## How it is used

A change is read from its beginning: `Ends.bind` splits a sequence, the rules for elementary steps
rewrite the first of them away, and `Ends.steady_bind` passes over a steady part at once, by what it
leads to. What is left are the visits, of which `ends_visit` says that they may halt when they are
entered and end as their bodies do otherwise.

Weakest preconditions are not used further than that: the condition for the end is chosen for
each lemma, and `Ends.mono` fits one to the other.
-/

namespace HeaderFlow.Engine

variable {α β : Type} {net : Network} {a : α} {B B' : Network → Prop} {Q Q' : α → Network → Prop}
  {P : β → Network → Prop} {x : Engine α} {k : α → Engine β} {key : NodeKey} {h : Handle}

/-- Started on `net`, the computation leaves a network with `B` if it overruns the budget, and an
answer and a network with `Q` if it comes to its end. -/
def Ends (x : Engine α) (net : Network) (B : Network → Prop) (Q : α → Network → Prop) : Prop :=
  ∀ reports, match x ⟨net, reports⟩ with
    | .ok a p => Q a p.network
    | .error (.overrun _) p => B p.network
    | .error (.fault _) _ => True

/-! ### Sequencing -/

/-- An answer that is known ends at once. -/
@[simp] theorem ends_pure : Ends (pure a) net B Q ↔ Q a net :=
  ⟨fun h ↦ h [], fun h _ ↦ h⟩

/-- **A sequence ends as its second part does**, started where the first part comes to its end. -/
theorem Ends.bind (hx : Ends x net B Q) (hk : ∀ a mid, Q a mid → Ends (k a) mid B P) :
    Ends (x >>= k) net B P := by
  intro reports
  have hfirst := hx reports
  simp only [Bind.bind, EStateM.bind]
  cases hrun : x ⟨net, reports⟩ with
  | error e p =>
    rw [hrun] at hfirst
    cases e with
    | overrun o => exact hfirst
    | fault f => trivial
  | ok a p =>
    rw [hrun] at hfirst
    exact hk a p.network hfirst p.reports

/-- Both conditions may be weakened. -/
theorem Ends.mono (hx : Ends x net B Q) (hB : ∀ mid, B mid → B' mid)
    (hQ : ∀ a mid, Q a mid → Q' a mid) : Ends x net B' Q' := by
  intro reports
  have hrun := hx reports
  split at hrun
  · exact hQ _ _ hrun
  · exact hB _ hrun
  · trivial

/-- The condition at the end may be weakened by itself. -/
theorem Ends.weaken (hx : Ends x net B Q) (hQ : ∀ a mid, Q a mid → Q' a mid) : Ends x net B Q' :=
  hx.mono (fun _ hB ↦ hB) hQ

/-- A walk along a list keeps what each of its steps keeps. The invariant is told what part of the
list is still to come. -/
theorem Ends.forM {l : List α} {f : α → Engine Unit} {I : List α → Network → Prop} (hI : I l net)
    (hstep : ∀ a rest mid, a ∈ l → I (a :: rest) mid → Ends (f a) mid B fun _ ↦ I rest) :
    Ends (l.forM f) net B fun _ ↦ I [] := by
  induction l generalizing net with
  | nil => exact ends_pure.2 hI
  | cons a l ih =>
    exact Ends.bind (k := fun _ ↦ l.forM f) (hstep a l net List.mem_cons_self hI) fun _ mid hmid ↦
      ih hmid fun a' rest mid' hmem ↦ hstep a' rest mid' (List.mem_cons_of_mem _ hmem)

/-- A walk along a list, where the invariant does not depend on how far it has come. -/
theorem Ends.forM_of {l : List α} {f : α → Engine Unit} {I : Network → Prop} (hI : I net)
    (hstep : ∀ a ∈ l, ∀ mid, I mid → Ends (f a) mid B fun _ ↦ I) :
    Ends (l.forM f) net B fun _ ↦ I :=
  Ends.forM (I := fun _ ↦ I) hI fun a _ mid ha hmid ↦ hstep a ha mid hmid

/-! ### Elementary steps -/

/-! ### Elementary steps

One rule for each of them, to be used from left to right: what is read is put into what follows, and
what may be missing is assumed to be there. -/

@[simp] theorem ends_network_bind {k : Network → Engine β} :
    Ends (network >>= k) net B P ↔ Ends (k net) net B P := Iff.rfl

@[simp] theorem ends_ask_bind {q : Network → Checked α} :
    Ends (ask q >>= k) net B P ↔ ∀ a, q net = .ok a → Ends (k a) net B P := by
  simp only [Ends, ask_bind_run]
  cases q net <;> simp

@[simp] theorem ends_check_bind {c : Checked α} :
    Ends (check c >>= k) net B P ↔ ∀ a, c = .ok a → Ends (k a) net B P := ends_ask_bind

/-- A node that is not there is a fault, of which nothing is said. -/
@[simp] theorem ends_node_bind {k : Node → Engine β} :
    Ends (node key >>= k) net B P ↔ ∀ n, net.nodeAt? key = some n → Ends (k n) net B P := by
  rw [node, ends_ask_bind]
  simp only [Network.node]
  cases net.nodeAt? key <;> simp

@[simp] theorem ends_flow_bind {k : Flow → Engine β} :
    Ends (flow h >>= k) net B P ↔ ∀ f, net.flows.find? h = some f → Ends (k f) net B P := by
  simp only [flow, ends_ask_bind, get_eq_ok]

@[simp] theorem ends_pipe_bind {k : Pipe → Engine β} :
    Ends (pipe h >>= k) net B P ↔ ∀ p, net.pipes.find? h = some p → Ends (k p) net B P := by
  simp only [pipe, ends_ask_bind, get_eq_ok]

@[simp] theorem ends_flow?_bind {k : Option Flow → Engine β} :
    Ends (flow? h >>= k) net B P ↔ Ends (k (net.flows.find? h)) net B P := Iff.rfl

@[simp] theorem ends_pipe?_bind {k : Option Pipe → Engine β} :
    Ends (pipe? h >>= k) net B P ↔ Ends (k (net.pipes.find? h)) net B P := Iff.rfl

@[simp] theorem ends_room_bind {k : Nat → Engine β} :
    Ends (room >>= k) net B P ↔ Ends (k net.budget.maxDepth) net B P := Iff.rfl

/-- An update cannot halt. -/
@[simp] theorem ends_update_bind {f : Network → Network} {k : Unit → Engine β} :
    Ends (update f >>= k) net B P ↔ Ends (k ()) (f net) B P := by
  constructor
  · exact fun h reports ↦ h reports
  · exact fun h reports ↦ h reports

@[simp] theorem ends_update {f : Network → Network} {Q : Unit → Network → Prop} :
    Ends (update f) net B Q ↔ Q () (f net) :=
  ⟨fun h ↦ h [], fun h _ ↦ h⟩

@[simp] theorem ends_updateFlow_bind {f : Flow → Flow} {k : Unit → Engine β} :
    Ends (updateFlow h f >>= k) net B P ↔ Ends (k ()) (withFlow net h f) B P := ends_update_bind

@[simp] theorem ends_setEvent_bind {e : Event} {k : Unit → Engine β} :
    Ends (setEvent e >>= k) net B P ↔ Ends (k ()) { net with lastEvent := some e } B P :=
  ends_update_bind

@[simp] theorem ends_insertFlow_bind {f : Handle → Flow} {k : Handle → Engine β} :
    Ends (insertFlow f >>= k) net B P ↔
      Ends (k net.flows.nextHandle)
        { net with flows := net.flows.insert (f net.flows.nextHandle) } B P := Iff.rfl

/-! ### Visits -/

/-- Without room the budget is overrun, and the network stays what it is. -/
theorem ends_tooDeep {Q : Unit → Network → Prop} (hB : B net) : Ends tooDeep net B Q :=
  fun _ ↦ hB

/-- Entering a visit counts it, and halts if a limit is passed. -/
theorem ends_enter {Q : Unit → Network → Prop}
    (hB : net.budget.count.overrun? ≠ none → B { net with budget := net.budget.count })
    (hQ : net.budget.count.overrun? = none → Q () { net with budget := net.budget.count }) :
    Ends enter net B Q := by
  rw [enter, ends_network_bind, Budget.enter]
  change Ends (update _ >>= _) _ _ _
  rw [ends_update_bind]
  cases ho : net.budget.count.overrun? with
  | none => exact ends_pure.2 (hQ ho)
  | some o => exact fun _ ↦ hB (by simp [ho])

/-- **A visit ends as its body does**, unless entering it passes a limit. -/
theorem ends_visit {body : Engine Unit} {Q : Unit → Network → Prop}
    (hB : net.budget.count.overrun? ≠ none → B { net with budget := net.budget.count })
    (hbody : net.budget.count.overrun? = none →
      Ends body { net with budget := net.budget.count } B fun _ mid ↦
        Q () { mid with budget := mid.budget.leave }) : Ends (visit body) net B Q :=
  Ends.bind (ends_enter hB hbody) fun _ _ hmid ↦ Ends.bind hmid fun _ _ hend _ ↦ hend

/-! ### Computations without visits -/

/-- What no step of a change touches, visits apart. -/
def frame (net : Network) : Nat × Settings × NodeId × Bool :=
  (net.bytes, net.settings, net.nextId, net.consistent)

/-- The computation counts no visits: it reads, updates what is not in the frame, makes reports and
has faults, but leaves the budget as it is. -/
inductive Steady : {α : Type} → Engine α → Prop
  | pure {α : Type} (a : α) : Steady (pure a)
  | bind {α β : Type} {x : Engine α} {k : α → Engine β} :
    Steady x → (∀ a, Steady (k a)) → Steady (x >>= k)
  | network : Steady network
  | ask {α : Type} (q : Network → Checked α) : Steady (ask q)
  | update {f : Network → Network}
    (hf : ∀ net, (f net).budget = net.budget ∧ frame (f net) = frame net) : Steady (update f)
  | report (r : Report) : Steady (report r)

/-- **A steady computation never overruns the budget**, and keeps it with the frame. -/
theorem Steady.run (hs : Steady x) : ∀ p, match x p with
    | .ok _ p' | .error (.fault _) p' =>
      p'.network.budget = p.network.budget ∧ frame p'.network = frame p.network
    | .error (.overrun _) _ => False := by
  induction hs with
  | pure a => exact fun _ ↦ ⟨rfl, rfl⟩
  | network => exact fun _ ↦ ⟨rfl, rfl⟩
  | update hf => exact fun p ↦ hf p.network
  | report r => exact fun _ ↦ ⟨rfl, rfl⟩
  | ask q =>
    intro p
    rw [← bind_pure (Engine.ask q), ask_bind_run]
    cases q p.network <;> exact ⟨rfl, rfl⟩
  | @bind _ _ x k _ _ ihx ihk =>
    intro p
    have hfirst := ihx p
    simp only [Bind.bind, EStateM.bind]
    cases hrun : x p with
    | ok a s =>
      rw [hrun] at hfirst
      have hrest := ihk a s
      dsimp only
      split at hrest
      · exact ⟨hrest.1.trans hfirst.1, hrest.2.trans hfirst.2⟩
      · exact ⟨hrest.1.trans hfirst.1, hrest.2.trans hfirst.2⟩
      · exact hrest
    | error e s =>
      rw [hrun] at hfirst
      cases e <;> exact hfirst

/-- The budget after a steady computation is the one before. -/
theorem Steady.budget {net' : Network} (hs : Steady x) (hl : Leads x net a net') :
    net'.budget = net.budget ∧ net'.settings = net.settings := by
  obtain ⟨reports, reports', hrun⟩ := hl
  have hend := hs.run ⟨net, reports⟩
  rw [hrun] at hend
  simp only [frame, Prod.mk.injEq] at hend
  exact ⟨hend.1, hend.2.2.1⟩

/-- **A steady computation ends where it leads.** -/
theorem Steady.ends (hs : Steady x) (hQ : ∀ a net', Leads x net a net' → Q a net') :
    Ends x net B Q := by
  intro reports
  have hend := hs.run ⟨net, reports⟩
  cases hrun : x ⟨net, reports⟩ with
  | ok a p => exact hQ a p.network ⟨reports, p.reports, hrun⟩
  | error e p =>
    cases e with
    | overrun o =>
      rw [hrun] at hend
      exact hend.elim
    | fault f => trivial

/-- **A steady part is passed over by what it leads to.** -/
theorem Ends.steady_bind (hs : Steady x)
    (hk : ∀ a mid, Leads x net a mid → Ends (k a) mid B P) : Ends (x >>= k) net B P :=
  (hs.ends fun _ _ hl ↦ hl).bind hk

theorem steady_pure : Steady (pure a : Engine α) := .pure a

/-- A walk along a list is steady if its steps are. -/
theorem Steady.forM {f : α → Engine Unit} (hf : ∀ a, Steady (f a)) :
    ∀ l : List α, Steady (l.forM f)
  | [] => steady_pure
  | a :: l => Steady.bind (k := fun _ ↦ l.forM f) (hf a) fun _ ↦ Steady.forM hf l

theorem steady_network : Steady network := .network

theorem steady_ask (q : Network → Checked α) : Steady (ask q) := .ask q

theorem steady_check (c : Checked α) : Steady (check c) := steady_ask _

theorem steady_node (key : NodeKey) : Steady (node key) := steady_ask _

theorem steady_event : Steady event := steady_network.bind fun _ ↦ steady_pure

/-- An update is steady if it touches neither the budget nor the frame. -/
theorem steady_update {f : Network → Network}
    (hf : ∀ net, (f net).budget = net.budget ∧ frame (f net) = frame net) : Steady (update f) :=
  .update hf

theorem steady_update_bind {f : Network → Network} {k : Unit → Engine β}
    (hf : ∀ net, (f net).budget = net.budget ∧ frame (f net) = frame net)
    (hk : Steady (k ())) : Steady (update f >>= k) :=
  (steady_update hf).bind fun _ ↦ hk

theorem steady_updateNode (key : NodeKey) (f : Node → Node) : Steady (updateNode key f) :=
  steady_update fun _ ↦ ⟨rfl, rfl⟩

theorem steady_setEvent (e : Event) : Steady (setEvent e) := steady_update fun _ ↦ ⟨rfl, rfl⟩

theorem steady_report (r : Report) : Steady (report r) := .report r

end HeaderFlow.Engine
