import Dataflow.Name
import Dataflow.Signature

/-! What a process does with the values at its ports. -/

namespace Dataflow

/-- The processes inside a composite that stand for its own ports, in the order of the ports. -/
structure Helpers where
  /-- One process for each in-port of the composite. -/
  inputs : List ProcessId := []
  /-- One process for each out-port of the composite. -/
  outputs : List ProcessId := []
deriving DecidableEq, Inhabited

/-- The inside of a composite: its helpers and everything placed directly in it. -/
structure Composite extends Helpers where
  children : List ProcessId := []
deriving DecidableEq, Inhabited

/-- What a process does, where `body` is what is known about the inside of a composite. -/
inductive Kind (body : Type) where
  /-- Applies one function to each value. -/
  | map (function : Func)
  /-- Applies several functions to each value, one after the other. -/
  | coalescedMap (functions : List Func)
  /-- Applies several functions, one after the other, to each element of an array. -/
  | parallelMap (branches : UInt64) (functions : List Func)
  /-- Applies one function to the values of all its in-ports. -/
  | comb (function : Func)
  /-- Takes an array apart, one element for each out-port. -/
  | unzip
  /-- Puts an array together, one element for each in-port. -/
  | zip
  /-- Emits the value of the tick before, and an initial value in the first tick. -/
  | delay (initial : String)
  /-- Copies each value to all its out-ports. -/
  | fanout
  /-- Stands inside a composite for one of its in-ports. -/
  | inport
  /-- Stands inside a composite for one of its out-ports. -/
  | outport
  /-- Contains other processes. -/
  | composite (inside : body)
deriving DecidableEq

namespace Kind

variable {body : Type}

def tag : Kind body → String
  | .map _ => "map"
  | .coalescedMap _ => "coalesced_map"
  | .parallelMap .. => "parallel_map"
  | .comb _ => "comb"
  | .unzip => "unzip"
  | .zip => "zip"
  | .delay _ => "delay"
  | .fanout => "fanout"
  | .inport => "inport"
  | .outport => "outport"
  | .composite _ => "composite"

/-- What is known about the inside of a composite. -/
def inside? : Kind body → Option body
  | .composite inside => some inside
  | _ => none

/-- Whether the process contains no others. -/
def isLeaf (kind : Kind body) : Bool :=
  kind.inside?.isNone

/-- Whether the process applies functions to one value at a time. -/
def isMapShaped : Kind body → Bool
  | .map _ | .coalescedMap _ | .parallelMap .. => true
  | _ => false

/-- Whether the process puts an array together. -/
def isZip : Kind body → Bool
  | .zip => true
  | _ => false

/-- Whether the process takes an array apart. -/
def isUnzip : Kind body → Bool
  | .unzip => true
  | _ => false

/-- Whether the process keeps a value from one tick to the next. -/
def isDelay : Kind body → Bool
  | .delay _ => true
  | _ => false

/-- Whether the process works elementwise on an array. -/
def isParallelMap : Kind body → Bool
  | .parallelMap .. => true
  | _ => false

/-- The functions the process applies, in the order of application. -/
def functions : Kind body → List Func
  | .map function | .comb function => [function]
  | .coalescedMap functions | .parallelMap _ functions => functions
  | _ => []

/-- Replaces what is known about the inside of a composite. -/
def mapInside {other : Type} (change : body → other) : Kind body → Kind other
  | .map function => .map function
  | .coalescedMap functions => .coalescedMap functions
  | .parallelMap branches functions => .parallelMap branches functions
  | .comb function => .comb function
  | .unzip => .unzip
  | .zip => .zip
  | .delay initial => .delay initial
  | .fanout => .fanout
  | .inport => .inport
  | .outport => .outport
  | .composite inside => .composite (change inside)

/-- Whether two leaves do the same with their values; composites are never compared. -/
def sameComputation [DecidableEq body] (first second : Kind body) : Bool :=
  first.isLeaf && first = second

end Kind

end Dataflow
