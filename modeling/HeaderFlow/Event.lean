import HeaderFlow.Text.Numeral

/-!
# Events

Each change of a network leaves an event, which says what was done and to what. A report carries the
event of the change that caused it.
-/

namespace HeaderFlow

/-- What was done. -/
inductive EventKind where
  | addRule
  | removeRule
  | addLink
  | removeLink
  | addSource
  | removeSource
  | startProbe
  | stopProbe
  | addTable
  | removeTable
  | expand
  deriving DecidableEq, Repr

/-- The written form of a kind. -/
def EventKind.name : EventKind → String
  | .addRule => "add_rule"
  | .removeRule => "remove_rule"
  | .addLink => "add_link"
  | .removeLink => "remove_link"
  | .addSource => "add_source"
  | .removeSource => "remove_source"
  | .startProbe => "start_source_probe"
  | .stopProbe => "stop_source_probe"
  | .addTable => "add_table"
  | .removeTable => "remove_table"
  | .expand => "expand"

/-- What was done, and to what: a node or a table, the two ports of a link, or the new length. -/
structure Event where
  kind : EventKind
  first : Nat
  second : Nat := 0
  deriving DecidableEq, Repr

/-- The written form. -/
def Event.text (e : Event) : String :=
  e.kind.name ++ "(" ++ Text.hex e.first ++ ", " ++ Text.hex e.second ++ ")"

end HeaderFlow
