import HeaderFlow.Arena
import HeaderFlow.Probe.Condition

/-!
# Probes

A probe watches the flows that arrive at it and keeps a verdict. An *existential* probe holds while
some flow that passes the filter also passes the test, a *universal* one while all of them do. A
flow *decides* if it passes the test of an existential probe or fails that of a universal one, and
**the verdict rests on the number of deciding flows alone**. While the probe runs, every change of
that number is a transition.
-/

namespace HeaderFlow

/-- What a probe asks of the flows that pass its filter. -/
inductive ProbeMode where
  /-- That some pass the test. -/
  | existential
  /-- That all pass the test. -/
  | universal
  deriving DecidableEq, Repr

/-- The written form of a mode. -/
def ProbeMode.name : ProbeMode → String
  | .existential => "existential"
  | .universal => "universal"

/-- How far a probe is. -/
inductive ProbeState where
  /-- It does not follow changes. -/
  | stopped
  /-- It looks at the flows that are there already. -/
  | started
  /-- It follows changes. -/
  | running
  deriving DecidableEq, Repr

/-- The written form of a state. -/
def ProbeState.name : ProbeState → String
  | .stopped => "stopped"
  | .started => "started"
  | .running => "running"

/-- How the number of deciding flows changed. -/
inductive Transition where
  | startedTrue
  | startedFalse
  | trueToFalse
  | falseToTrue
  | moreTrue
  | moreFalse
  | lessTrue
  | lessFalse
  deriving DecidableEq, Repr

/-- The written form of a transition. -/
def Transition.name : Transition → String
  | .startedTrue => "STARTED_TRUE"
  | .startedFalse => "STARTED_FALSE"
  | .trueToFalse => "TRUE_TO_FALSE"
  | .falseToTrue => "FALSE_TO_TRUE"
  | .moreTrue => "MORE_TRUE"
  | .moreFalse => "MORE_FALSE"
  | .lessTrue => "LESS_TRUE"
  | .lessFalse => "LESS_FALSE"

/-- What happened to a flow at a probe. -/
inductive FlowChange where
  /-- It arrived, and came by this chain. -/
  | added (chain : Chain)
  /-- Its headers changed. -/
  | modified (chain : Chain)
  /-- It is gone. -/
  | deleted

/-- A watch on arriving flows. -/
structure Probe where
  mode : ProbeMode
  state : ProbeState
  /-- Which flows count. -/
  filter : Condition
  /-- What is asked of them. -/
  test : Condition
  /-- The last answer of the test for each flow that counts. -/
  results : List (Handle × Bool)
  /-- The number of flows that decide. -/
  deciding : Nat

namespace Probe

/-- A probe that has not been started. -/
def new (mode : ProbeMode) (filter test : Condition) : Probe :=
  ⟨mode, .stopped, filter, test, [], 0⟩

/-- The probe follows changes. -/
def isRunning (p : Probe) : Bool := p.state == .running

/-- The verdict. -/
def holds (p : Probe) : Bool :=
  match p.mode with
  | .existential => 0 < p.deciding
  | .universal => p.deciding == 0

/-- The last answer of the test for a flow. -/
def result? (p : Probe) (flow : Handle) : Option Bool := p.results.lookup flow

/-- A flow with this answer of the test decides. -/
def decides (p : Probe) (result : Bool) : Bool :=
  match p.mode with
  | .existential => result
  | .universal => !result

/-- Grows the spaces in the conditions to `bytes` bytes. -/
def enlarge (p : Probe) (bytes : Nat) : Probe :=
  { p with filter := p.filter.enlarge bytes, test := p.test.enlarge bytes }

/-! ### Counting -/

/-- One more flow decides. -/
def countUp (p : Probe) : Probe × Transition :=
  let q := { p with deciding := p.deciding + 1 }
  let t := match p.mode, q.deciding == 1 with
    | .existential, true => .falseToTrue
    | .existential, false => .moreTrue
    | .universal, true => .trueToFalse
    | .universal, false => .moreFalse
  (q, t)

/-- One flow less decides; there has to be one. -/
def countDown (p : Probe) : Checked (Probe × Transition) :=
  if p.deciding = 0 then .error .countUnderflow
  else
    let q := { p with deciding := p.deciding - 1 }
    let t := match p.mode, q.deciding == 0 with
      | .existential, true => .trueToFalse
      | .existential, false => .lessTrue
      | .universal, true => .falseToTrue
      | .universal, false => .lessFalse
    .ok (q, t)

/-- Forgets a flow. -/
def forget (p : Probe) (flow : Handle) : Checked (Probe × Option Transition) :=
  match p.result? flow with
  | none => .ok (p, none)
  | some r =>
    let q := { p with results := p.results.filter fun e ↦ e.1 ≠ flow }
    if p.decides r then q.countDown.map fun (q, t) ↦ (q, some t) else .ok (q, none)

/-- Notes the answer of the test for a flow. -/
def record (p : Probe) (flow : Handle) (r : Bool) : Probe :=
  { p with results := (flow, r) :: p.results.filter fun e ↦ e.1 ≠ flow }

/-- Asks about a flow with headers. A flow that does not pass the filter is left out of account,
**and an earlier answer for it stays noted**. -/
def examine (p : Probe) (flow : Handle) (c : Chain) : Checked (Probe × Option Transition) := do
  if !(← p.filter.check c) then return (p, none)
  let r ← p.test.check c
  let q := p.record flow r
  match p.result? flow with
  | none =>
    if p.decides r then
      let (q, t) := q.countUp
      return (q, some t)
    else return (q, none)
  | some before =>
    if before = r then return (q, none)
    else if p.decides r then
      let (q, t) := q.countUp
      return (q, some t)
    else
      let (q, t) ← q.countDown
      return (q, some t)

/-- The flow has headers. -/
def hasHeaders (c : Chain) : Bool := c.processed.any fun s ↦ !s.isEmpty

/-- Takes a change of a flow into account. A flow whose headers are gone is as good as deleted. -/
def update (p : Probe) (flow : Handle) : FlowChange → Checked (Probe × Option Transition)
  | .deleted => p.forget flow
  | .added c => if hasHeaders c then p.examine flow c else .ok (p, none)
  | .modified c => if hasHeaders c then p.examine flow c else p.forget flow

/-! ### Starting and stopping -/

/-- The transition at the start: for a deciding flow, or, if there is none, for the probe itself. -/
def startTransition (mode : ProbeMode) (deciding : Bool) : Transition :=
  match mode, deciding with
  | .existential, true => .startedTrue
  | .existential, false => .startedFalse
  | .universal, true => .startedFalse
  | .universal, false => .startedTrue

/-- Asks about the flows that are there already, in order. -/
def survey (p : Probe) : List (Handle × Chain) → Checked (Probe × List (Option Handle × Transition))
  | [] => .ok (p, [])
  | (flow, c) :: rest => do
    if !(← p.filter.check c) then survey p rest
    else
      let r ← p.test.check c
      let p := p.record flow r
      if p.decides r then
        let (p, ts) ← survey { p with deciding := p.deciding + 1 } rest
        return (p, (some flow, startTransition p.mode true) :: ts)
      else survey p rest

/-- Starts a probe on the flows that are there already; it then follows changes. -/
def start (p : Probe) (flows : List (Handle × Chain)) :
    Checked (Probe × List (Option Handle × Transition)) := do
  let (p, ts) ← survey { p with state := .started } flows
  let ts := if p.deciding = 0 then ts ++ [(none, startTransition p.mode false)] else ts
  return ({ p with state := .running }, ts)

/-- Stops a probe, which forgets all flows. -/
def stop (p : Probe) : Probe := { p with state := .stopped, results := [], deciding := 0 }

end Probe

end HeaderFlow
