import Std.Data.ExtTreeMap
import HeaderFlow.PortSet

/-!
# Lists at ports

What there is at each port of a network, in the order in which it was put there. **Nothing is kept
for a port with nothing at it**: what is taken from a list as the last takes the list along.
-/

namespace HeaderFlow

/-- The lists of what there is at ports. -/
structure PortMap (α : Type) where
  entries : Std.ExtTreeMap Port (List α)

namespace PortMap

variable {α : Type}

/-- Nothing at any port. -/
def empty : PortMap α := ⟨∅⟩

/-- What there is at a port. -/
def listed (m : PortMap α) (port : Port) : List α := m.entries.getD port []

/-- The ports at which there is something, by increasing number. -/
def ports (m : PortMap α) : List Port := m.entries.keys

/-- Puts `a` at a port, as the last. -/
def push (m : PortMap α) (port : Port) (a : α) : PortMap α :=
  ⟨m.entries.alter port fun as ↦ some (as.getD [] ++ [a])⟩

/-- Takes `a` from a port. -/
def retract [DecidableEq α] (m : PortMap α) (port : Port) (a : α) : PortMap α :=
  ⟨m.entries.alter port fun as ↦ (as.map (·.filter (· ≠ a))).filter (· ≠ [])⟩

/-- Puts `a` at each of some ports. -/
def pushAll (m : PortMap α) (ports : PortSet) (a : α) : PortMap α :=
  ports.toList.foldl (fun m port ↦ m.push port a) m

/-- Takes `a` from each of some ports. -/
def retractAll [DecidableEq α] (m : PortMap α) (ports : PortSet) (a : α) : PortMap α :=
  ports.toList.foldl (fun m port ↦ m.retract port a) m

end PortMap

end HeaderFlow
