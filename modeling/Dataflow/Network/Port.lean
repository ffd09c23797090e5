import Dataflow.Name
import Dataflow.Signature

/-! Ports, their keys, and the arena that holds them without ever using a key twice. -/

namespace Dataflow

/-- The key of a port, which is its position in the arena. -/
abbrev PortKey := Nat

def PortKey.text (key : PortKey) : String :=
  "#" ++ toString key

/-- The direction in which values pass a port, seen from its process. -/
inductive Direction where
  | input
  | output
deriving DecidableEq

/-- The word a direction is written as. -/
def Direction.text : Direction → String
  | .input => "in"
  | .output => "out"

/-- A point at which a process can be connected to another one. -/
structure Port where
  /-- The name of the port, unique among the ports of its owner in its direction. -/
  name : String
  /-- The process the port belongs to. -/
  owner : ProcessId
  /-- The direction of the port. -/
  direction : Direction
  /-- The type of the values that pass, if declared. -/
  dataType : Option DataType := none
  /-- The port at the other end of the connection, if there is one. -/
  connection : Option PortKey := none
deriving DecidableEq

namespace Port

def isConnected (port : Port) : Bool :=
  port.connection.isSome

/-- The written form of a port: its owner and its name around a dot. -/
def label (port : Port) : String :=
  port.owner ++ "." ++ port.name

end Port

/-- Slots for ports, of which a freed one stays empty for good. -/
structure Arena where
  slots : Array (Option Port) := #[]

namespace Arena

/-- The port with a given key, if it is live. -/
def get? (arena : Arena) (key : PortKey) : Option Port :=
  arena.slots[key]?.join

def nextKey (arena : Arena) : PortKey :=
  arena.slots.size

def push (arena : Arena) (port : Port) : Arena :=
  ⟨arena.slots.push (some port)⟩

/-- Changes the port with a given key, if it is live. -/
def modify (arena : Arena) (key : PortKey) (change : Port → Port) : Arena :=
  ⟨arena.slots.modify key (·.map change)⟩

def free (arena : Arena) (key : PortKey) : Arena :=
  ⟨arena.slots.setIfInBounds key none⟩

theorem get?_push (arena : Arena) (port : Port) (key : PortKey) :
    (arena.push port).get? key = if key = arena.nextKey then some port else arena.get? key := by
  -- Only the key at the end of the array reads the new slot.
  simp only [get?, push, nextKey, Array.getElem?_push]
  split <;> simp_all

theorem get?_modify (arena : Arena) (key other : PortKey) (change : Port → Port) :
    (arena.modify key change).get? other =
      if key = other then (arena.get? other).map change else arena.get? other := by
  -- The slot of the key is mapped, and an empty slot stays empty.
  simp only [get?, modify, Array.getElem?_modify]
  split
  · cases arena.slots[other]? <;> simp
  · rfl

theorem get?_free (arena : Arena) (key other : PortKey) :
    (arena.free key).get? other = if key = other then none else arena.get? other := by
  -- Inside the bounds the slot is emptied, outside there never was a port.
  simp only [get?, free, Array.getElem?_setIfInBounds]
  split
  · split <;> simp
  · rfl

end Arena

end Dataflow
