import HeaderFlow.Probe.Path
import HeaderFlow.Space.Text

/-!
# Conditions

A condition is asked about a flow that arrived at a probe: about its headers, about the way it came,
or about a combination of the two. A conjunction does not ask its second part when the first is
false, nor a disjunction when the first is true, so **a part that is not asked cannot fail**.
-/

namespace HeaderFlow

open Document (Value)

/-- The exported form of a region: its written frame, or a record with the holes too. -/
def Region.toValue : Region → Value
  | .mk f [] => .string f.text
  | .mk f (h :: hs) => .record [("vector", .string f.text), ("diff", .seq (regionValues (h :: hs)))]
where
  /-- The exported forms of regions. -/
  regionValues : List Region → List Value
    | [] => []
    | r :: rs => r.toValue :: regionValues rs

/-- The exported form of a space. -/
def Space.toValue (s : Space) : Value :=
  .record [("len", .nat s.bytes), ("list", .seq (Region.toValue.regionValues s.regions))]

/-- What can be asked about a flow at a probe. -/
inductive Condition where
  | always
  | never
  | and (first second : Condition)
  | or (first second : Condition)
  | not (condition : Condition)
  /-- Some header of the flow lies in the space. -/
  | header (space : Space)
  /-- The way of the flow matches the pathlets. -/
  | path (pathlets : List Pathlet)

namespace Condition

/-- Some header of the flow lies in the space. Regions without common headers are noticed only after
all holes are expanded. -/
def meets (s : Space) (c : Chain) : Checked Bool :=
  match c.processed with
  | none => .ok false
  | some p => do
    let common ← p.intersect s
    if common.isEmpty then return false
    return !(← common.unroll).isEmpty

/-- The condition holds for the flow. -/
def check (c : Chain) : Condition → Checked Bool
  | .always => .ok true
  | .never => .ok false
  | .and a b => do
    if ← a.check c then b.check c else return false
  | .or a b => do
    if ← a.check c then return true else b.check c
  | .not a => do
    return !(← a.check c)
  | .header s => meets s c
  | .path ps => .ok (Path.accepts c ps)

/-- Grows the spaces in the condition to `bytes` bytes with wild trits. -/
def enlarge (bytes : Nat) : Condition → Condition
  | .and a b => .and (a.enlarge bytes) (b.enlarge bytes)
  | .or a b => .or (a.enlarge bytes) (b.enlarge bytes)
  | .not a => .not (a.enlarge bytes)
  | .header s => .header (s.enlarge bytes)
  | c => c

/-- The written form. -/
def text : Condition → String
  | .always => "Always True"
  | .never => "Always False"
  | .and a b => "(" ++ a.text ++ ") & (" ++ b.text ++ ")"
  | .or a b => "(" ++ a.text ++ ") | (" ++ b.text ++ ")"
  | .not a => "!(" ++ a.text ++ ")"
  | .header s => "header ~ " ++ s.text
  | .path ps => "path ~ \"" ++ String.join (ps.map Pathlet.text) ++ "\""

/-- The exported form. -/
def toValue : Condition → Value
  | .always => .record [("type", .string "true")]
  | .never => .record [("type", .string "false")]
  | .and a b => .record [("type", .string "and"), ("arg1", a.toValue), ("arg2", b.toValue)]
  | .or a b => .record [("type", .string "or"), ("arg1", a.toValue), ("arg2", b.toValue)]
  | .not a => .record [("type", .string "not"), ("arg", a.toValue)]
  | .header s => .record [("type", .string "header"), ("header", s.toValue)]
  | .path ps => .record [("type", .string "path"), ("pathlets", .seq (ps.map Pathlet.toValue))]

end Condition

end HeaderFlow
