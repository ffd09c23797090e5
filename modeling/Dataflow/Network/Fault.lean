import Dataflow.Network.Port

/-! Why an operation on a network stops. -/

namespace Dataflow

/-- How the inside of a composite fails to match its ports. -/
inductive Malformation where
  /-- A process would be placed inside one that contains no others. -/
  | insideLeaf (child : ProcessId)
  /-- The numbers of ports and of helpers differ. -/
  | helperCount
  /-- The helper of an in-port is something else. -/
  | notInport (index : Nat) (helper : ProcessId)
  /-- The helper of an out-port is something else. -/
  | notOutport (index : Nat) (helper : ProcessId)
  /-- An input of the graph leads to an in-port that nothing reads. -/
  | unusedInput (index : Nat)
  /-- An output of the graph reads an out-port that nothing drives. -/
  | undrivenOutput (index : Nat)
deriving DecidableEq

def Malformation.text : Malformation → String
  | .insideLeaf child => "'" ++ child ++ "' is placed inside a leaf process"
  | .helperCount => "port count differs from boundary helper count"
  | .notInport index helper =>
    "input " ++ toString index ++ " helper '" ++ helper ++ "' is not an inport"
  | .notOutport index helper =>
    "output " ++ toString index ++ " helper '" ++ helper ++ "' is not an outport"
  | .unusedInput index => "graph input routed to unused input " ++ toString index
  | .undrivenOutput index => "graph output reads undriven output " ++ toString index

/-- Why an operation on a network stops. -/
inductive Fault where
  /-- A process of that name exists already. -/
  | duplicateId (id : ProcessId)
  /-- No process has that name. -/
  | unknownProcess (id : ProcessId)
  /-- No live port has that key. -/
  | unknownPort (key : PortKey)
  /-- The process has a port of that name in that direction already. -/
  | duplicatePort (process : ProcessId) (name : String) (direction : Direction)
  /-- The port has a connection already. -/
  | portInUse (key : PortKey)
  /-- A connection would not lead from an out-port to an in-port. -/
  | directionMismatch (source target : PortKey)
  /-- A process cannot go while one of its ports is on the boundary of the graph. -/
  | danglingBoundary (key : PortKey) (process : ProcessId)
  /-- The branches of a section have a length that the operation cannot handle. -/
  | chainLength (start stop : ProcessId) (length : Nat)
  /-- A composite stands in a network that must be flat. -/
  | notFlat (id : ProcessId)
  /-- A composite does not match its ports. -/
  | malformedComposite (id : ProcessId) (reason : Malformation)
  /-- The process has too few ports in that direction. -/
  | missingPort (id : ProcessId) (direction : Direction) (index : Nat)
deriving DecidableEq

def Fault.message : Fault → String
  | .duplicateId id => "process '" ++ id ++ "' already exists in the network"
  | .unknownProcess id => "process '" ++ id ++ "' does not exist in the network"
  | .unknownPort key => "port " ++ key.text ++ " does not exist (removed or never allocated)"
  | .duplicatePort process name direction =>
    "process '" ++ process ++ "' already has an " ++ direction.text ++ " port named '" ++ name ++
      "'"
  | .portInUse key => "port " ++ key.text ++ " is already connected"
  | .directionMismatch source target =>
    "cannot connect " ++ source.text ++ " to " ++ target.text ++
      ": connections must join an out-port to an in-port"
  | .danglingBoundary key process =>
    "removing port " ++ key.text ++ " of '" ++ process ++
      "' would leave a dangling graph boundary port"
  | .chainLength start stop length =>
    "section '" ++ start ++ "'..'" ++ stop ++ "' has interior chain length " ++ toString length ++
      ", expected 1"
  | .notFlat id => "process '" ++ id ++ "' is a composite; this pass requires a flat network"
  | .malformedComposite id reason => "composite '" ++ id ++ "' is malformed: " ++ reason.text
  | .missingPort id direction index =>
    "process '" ++ id ++ "' has no " ++ direction.text ++ " port at index " ++ toString index

end Dataflow
