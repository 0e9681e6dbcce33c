import HeaderFlow.Network.Report

/-!
# Carrying out a change

A change is a computation that reads and updates a network, makes reports, and can be halted, by an
overrun of its budget or by a fault. **A halted computation keeps what it has done so far.** This
module has the elementary steps from which changes are built: looking up and updating parts of the
network, counting visits, and reporting.
-/

namespace HeaderFlow

/-- Why a computation was halted. -/
inductive Halt where
  | overrun (overrun : Overrun)
  | fault (fault : Fault)
  deriving DecidableEq

/-- The network so far and the reports so far, the latest first. -/
structure Progress where
  network : Network
  reports : List Report

/-- A computation on a network. -/
abbrev Engine (α : Type) : Type := EStateM Halt Progress α

namespace Engine

/-! ### Reading -/

/-- The network so far. -/
def network : Engine Network := return (← get).network

/-- Asks a question with a precondition about the network. -/
def ask {α : Type} (question : Network → Checked α) : Engine α := do
  match question (← network) with
  | .ok a => return a
  | .error f => throw (.fault f)

/-- The answer of an operation with a precondition. -/
def check {α : Type} (c : Checked α) : Engine α := ask fun _ ↦ c

/-- The node with a key, which must be there. -/
def node (key : NodeKey) : Engine Node := ask fun net ↦ net.node key

/-- The flow with a handle, which must be live. -/
def flow (h : Handle) : Engine Flow := ask fun net ↦ net.flows.get h

/-- The flow with a handle, if it is live. -/
def flow? (h : Handle) : Engine (Option Flow) := return (← network).flows.find? h

/-- The pipe with a handle, which must be live. -/
def pipe (h : Handle) : Engine Pipe := ask fun net ↦ net.pipes.get h

/-- The pipe with a handle, if it is live. -/
def pipe? (h : Handle) : Engine (Option Pipe) := return (← network).pipes.find? h

/-! ### Updating -/

/-- Changes the network. -/
def update (f : Network → Network) : Engine Unit :=
  modify fun p ↦ { p with network := f p.network }

/-- Changes a node; does nothing if it is not there. -/
def updateNode (key : NodeKey) (f : Node → Node) : Engine Unit :=
  update fun net ↦ { net with nodes := net.nodes.map fun n ↦ if n.key == key then f n else n }

/-- Changes a flow; does nothing if the handle is stale. -/
def updateFlow (h : Handle) (f : Flow → Flow) : Engine Unit :=
  update fun net ↦ { net with flows := net.flows.modify h f }

/-- Changes a node, which must be there. -/
def alterNode (key : NodeKey) (f : Node → Node) : Engine Unit := do
  let _ ← node key
  updateNode key f

/-- Changes a flow, which must be live. -/
def alterFlow (h : Handle) (f : Flow → Flow) : Engine Unit := do
  let _ ← flow h
  updateFlow h f

/-- Stores a flow. -/
def insertFlow (f : Handle → Flow) : Engine Handle := do
  let h := (← network).flows.nextHandle
  update fun net ↦ { net with flows := net.flows.insert (f h) }
  return h

/-- Records the change that is being carried out. -/
def setEvent (e : Event) : Engine Unit := update fun net ↦ { net with lastEvent := some e }

/-- The change that is being carried out. -/
def event : Engine (Option Event) := return (← network).lastEvent

/-- Makes a report. -/
def report (r : Report) : Engine Unit := modify fun p ↦ { p with reports := r :: p.reports }

/-! ### Counting visits -/

/-- Enters a visit and halts if that passes a limit. -/
def enter : Engine Unit := do
  let (b, o) := (← network).budget.enter
  update fun net ↦ { net with budget := b }
  match o with
  | some o => throw (.overrun o)
  | none => return ()

/-- Leaves a visit. -/
def leave : Engine Unit := update fun net ↦ { net with budget := net.budget.leave }

/-- Halts because visits are nested too deep. -/
def tooDeep : Engine Unit := do
  let b := (← network).budget
  throw (.overrun ⟨.depth, b.depth, b.visits⟩)

/-- Carries out a visit. -/
def visit (body : Engine Unit) : Engine Unit := do
  enter
  body
  leave

end Engine

/-- Carries out a change under a fresh budget. -/
def Network.carryOut {α : Type} (net : Network) (change : Engine α) : Outcome α :=
  match change.run ⟨{ net with budget := net.budget.reset }, []⟩ with
  | .ok a p => ⟨.ok a, p.network, p.reports.reverse⟩
  | .error (.overrun o) p =>
    ⟨.error (.tooComplex o), { p.network with consistent := false }, p.reports.reverse⟩
  | .error (.fault f) p => ⟨.error (.fault f), p.network, p.reports.reverse⟩

end HeaderFlow
