import HeaderFlow.Network.Basic

/-!
# Reports and errors of networks

Loops, headers that get lost and rules that never apply are not errors: a change is carried out and
reports what it found, in the order in which it found it. An error is a change that was refused or
broken off. **A refused change leaves the network as it was**; one that was broken off, because it
caused too much work, leaves it marked as inconsistent.
-/

namespace HeaderFlow

/-- What an audit of a table finds. -/
inductive AnomalyKind where
  /-- Rules of higher priority cover the rule. -/
  | shadowed
  /-- Rules of higher priority cover every header. -/
  | unreachable
  /-- Rules of lower priority cover the rule. -/
  | generalization
  deriving DecidableEq, Repr

/-- The written form of a finding. -/
def AnomalyKind.name : AnomalyKind → String
  | .shadowed => "shadowed"
  | .unreachable => "unreachable"
  | .generalization => "generalization"

/-- A finding of an audit. -/
structure Anomaly where
  kind : AnomalyKind
  table : TableId
  rule : NodeId
  /-- The covering rules that share headers with the rule, in the order of their places. -/
  related : List NodeId
  deriving DecidableEq, Repr

/-- What was found while a change was carried out. -/
inductive Report where
  /-- A flow at `node` came back to where it had been, at the rule `first`. -/
  | loop (flow : Handle) (node first : NodeId) (event : Option Event)
  /-- Only a part passed from `node` by `port` to `next`. -/
  | blackhole (flow : Handle) (node next : NodeId) (port : Port) (event : Option Event)
  /-- A new rule is covered by rules of higher priority. -/
  | shadow (rule : NodeId) (coverers : List NodeId) (event : Option Event)
  /-- A new rule is below rules that cover every header. -/
  | unreachable (rule : NodeId) (event : Option Event)
  /-- An audit found something. -/
  | anomaly (anomaly : Anomaly)
  /-- A probe changed its count, because of a flow unless it was just started. -/
  | probe (probe : NodeId) (flow : Option Handle) (transition : Transition) (event : Option Event)
  deriving DecidableEq

/-- What a node was expected to be. -/
inductive ExpectedRole where
  | rule
  | source
  | probe
  deriving DecidableEq, Repr

/-- The written form of an expectation. -/
def ExpectedRole.name : ExpectedRole → String
  | .rule => "rule"
  | .source => "source"
  | .probe => "source probe"

/-- Why a change or a question failed. -/
inductive NetworkError where
  | tableExists (id : TableId)
  | invalidTable (id : TableId)
  | tableNotFound (id : TableId)
  | portNotInTable (table : TableId) (port : Port)
  | nodeNotFound (id : NodeId)
  | wrongNodeType (id : NodeId) (expected : ExpectedRole)
  | linkNotFound (source target : Port)
  | lengthMismatch (expected found : Nat)
  /-- Only one of the mask and the value of an overwriting rule was given. -/
  | halfOverwrite
  /-- The change caused too much work and was broken off. -/
  | tooComplex (overrun : Overrun)
  /-- An argument could not be read. -/
  | text (error : TextError)
  /-- The settings are not valid. -/
  | settings (error : SettingsError)
  /-- A precondition was broken on the way. -/
  | fault (fault : Fault)
  deriving DecidableEq, Repr

/-- The wording of an error, where it has one. -/
def NetworkError.message? : NetworkError → Option String
  | .tableExists t => some s!"Table {t} already exists"
  | .invalidTable t => some s!"Invalid table id {t}: table ids must be non-zero"
  | .tableNotFound t => some s!"Table {t} not found"
  | .portNotInTable t p => some s!"Port {p} is not a port of table {t}"
  | .nodeNotFound n => some ("Node " ++ Text.hex n.toNat ++ " not found")
  | .wrongNodeType n e => some ("Node " ++ Text.hex n.toNat ++ " is not a " ++ e.name)
  | .linkNotFound s t => some s!"Link {s} -> {t} not found"
  | .lengthMismatch e f => some s!"Length mismatch: expected {e} bytes, found {f}"
  | .halfOverwrite => some "Invalid rule: mask and rewrite must be given together"
  | .tooComplex o => some o.message
  | .text e => some ("Header space error: " ++ e.message)
  | .settings e => e.message?.map ("Configuration error: " ++ ·)
  | .fault _ => none

/-- What came of a change. -/
structure Outcome (α : Type) where
  /-- The answer, or why there is none. -/
  result : Except NetworkError α
  /-- The network after the change. -/
  network : Network
  /-- What was found, in the order in which it was. -/
  reports : List Report

namespace Outcome

variable {α β : Type}

/-- The change was refused. -/
def refused (net : Network) (e : NetworkError) : Outcome α := ⟨.error e, net, []⟩

/-- The change was carried out without propagation. -/
def done (net : Network) (a : α) : Outcome α := ⟨.ok a, net, []⟩

/-- The same with another answer. -/
def map (f : α → β) (o : Outcome α) : Outcome β := ⟨o.result.map f, o.network, o.reports⟩

end Outcome

end HeaderFlow
