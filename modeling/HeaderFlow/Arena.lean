import HeaderFlow.Fault

/-!
# Arenas

An arena stores values in numbered slots and names each by a *handle*: the slot and the slot's age
at that time. Removing a value raises the age of its slot, so **every handle to a removed value is
stale for good** and never resolves to the value that takes its place. Slots that have become free
are used again, the one freed last first. How many values there are is counted along.

`Arena.find?` is the view by which an arena is understood: a partial map from handles to values.
-/

namespace HeaderFlow

/-- The name of a value in an arena. -/
structure Handle where
  /-- The number of the slot. -/
  index : Nat
  /-- How often the slot had been freed when the value was stored. -/
  age : Nat
  deriving DecidableEq, Repr

namespace Handle

/-- The age as a word, which is how it is written. -/
def generation (h : Handle) : UInt32 := h.age.toUInt32

/-- The written form. -/
def text (h : Handle) : String := s!"#{h.index}v{h.generation}"

/-- Handles are ordered by slot and then by age. -/
def before (g h : Handle) : Bool :=
  g.index < h.index || (g.index == h.index && g.age < h.age)

end Handle

/-- A place for a value, occupied or free. -/
structure Slot (α : Type) where
  /-- How often the slot was freed. -/
  age : Nat
  /-- The value, if the slot is occupied. -/
  value : Option α

/-- Numbered slots, a list of the free ones and a count of the others. -/
structure Arena (α : Type) where
  /-- All slots that were ever used. -/
  slots : Array (Slot α)
  /-- The free slots, the one freed last first. -/
  free : List Nat
  /-- The number of values. -/
  size : Nat

namespace Arena

variable {α : Type}

/-- No values. -/
def empty : Arena α := ⟨#[], [], 0⟩

/-- There are no values. -/
def isEmpty (a : Arena α) : Bool := a.size == 0

/-- The value that a handle names, if the handle is not stale. -/
def find? (a : Arena α) (h : Handle) : Option α :=
  match a.slots[h.index]? with
  | some s => if s.age = h.age then s.value else none
  | none => none

/-- The handle is not stale. -/
def contains (a : Arena α) (h : Handle) : Bool := (a.find? h).isSome

/-- The value that a handle names; **a stale handle is a fault**. -/
def get (a : Arena α) (h : Handle) : Checked α :=
  match a.find? h with
  | some v => .ok v
  | none => .error (.staleHandle h.index h.generation)

/-- The handle that the next value will get. -/
def nextHandle (a : Arena α) : Handle :=
  match a.free with
  | i :: _ => ⟨i, (a.slots[i]?.map Slot.age).getD 0⟩
  | [] => ⟨a.slots.size, 0⟩

/-- Stores a value under `nextHandle`. -/
def insert (a : Arena α) (v : α) : Arena α :=
  match a.free with
  | i :: rest => ⟨a.slots.modify i fun s ↦ { s with value := some v }, rest, a.size + 1⟩
  | [] => ⟨a.slots.push ⟨0, some v⟩, [], a.size + 1⟩

/-- Removes a value and frees its slot; a stale handle changes nothing. -/
def erase (a : Arena α) (h : Handle) : Arena α :=
  if a.contains h then
    ⟨a.slots.modify h.index fun s ↦ ⟨s.age + 1, none⟩, h.index :: a.free, a.size - 1⟩
  else a

/-- Removes a value, frees its slot and answers the value. A stale handle has none to answer and
changes nothing. -/
def remove (a : Arena α) (h : Handle) : Option α × Arena α :=
  match a.slots[h.index]? with
  | some ⟨age, some v⟩ =>
    if age = h.age then
      (some v, ⟨a.slots.setIfInBounds h.index ⟨age + 1, none⟩, h.index :: a.free, a.size - 1⟩)
    else (none, a)
  | _ => (none, a)

/-- Changes the value that a handle names; a stale handle changes nothing. -/
def modify (a : Arena α) (h : Handle) (f : α → α) : Arena α :=
  if a.contains h then
    { a with slots := a.slots.modify h.index fun s ↦ { s with value := s.value.map f } }
  else a

/-- Replaces the value that a handle names; **a stale handle is a fault**. -/
def set (a : Arena α) (h : Handle) (v : α) : Checked (Arena α) :=
  (a.get h).map fun _ ↦ a.modify h fun _ ↦ v

/-- The values with their handles, by increasing slot. -/
def toList (a : Arena α) : List (Handle × α) :=
  (a.slots.toList.mapIdx fun i s ↦ s.value.map fun v ↦ (⟨i, s.age⟩, v)).filterMap id

/-- The handles that are not stale, by increasing slot. -/
def handles (a : Arena α) : List Handle := a.toList.map Prod.fst

/-- Changes every value. -/
def map (a : Arena α) (f : Handle → α → α) : Arena α :=
  { a with
    slots := a.slots.mapIdx fun i s ↦ { s with value := s.value.map (f ⟨i, s.age⟩) } }

/-- The written form: handles and values in braces. -/
def text (a : Arena α) (value : α → String) : String :=
  "\x7b" ++ ", ".intercalate (a.toList.map fun (h, v) ↦ h.text ++ ": " ++ value v) ++ "\x7d"

end Arena

end HeaderFlow
