import Dataflow.Network.Fault
import Dataflow.Network.Process
import Std.Data.TreeMap

/-! Networks of processes joined at their ports, and the questions that can be asked about them. -/

namespace Dataflow

/-- Processes joined at their ports, with the ports at which the graph meets the world. -/
structure Network where
  /-- The processes in the order of their names. -/
  processes : Std.TreeMap ProcessId Process := ∅
  /-- The ports of all processes. -/
  ports : Arena := {}
  /-- The in-ports through which values enter the graph. -/
  inputs : List PortKey := []
  /-- The out-ports through which values leave the graph. -/
  outputs : List PortKey := []
  /-- The names that were ever in use. -/
  names : NameSupply := {}

namespace Network

/-- The names of all processes in order. -/
def ids (net : Network) : List ProcessId :=
  net.processes.keys

def size (net : Network) : Nat :=
  net.processes.size

/-- Whether a process of that name exists. -/
def contains (net : Network) (id : ProcessId) : Bool :=
  net.processes.contains id

/-- The process of a given name, if there is one. -/
def process? (net : Network) (id : ProcessId) : Option Process :=
  net.processes[id]?

def process (net : Network) (id : ProcessId) : Except Fault Process :=
  match net.process? id with
  | some process => .ok process
  | none => .error (.unknownProcess id)

/-- The live port with a given key, if there is one. -/
def port? (net : Network) (key : PortKey) : Option Port :=
  net.ports.get? key

def port (net : Network) (key : PortKey) : Except Fault Port :=
  match net.port? key with
  | some port => .ok port
  | none => .error (.unknownPort key)

def owner (net : Network) (key : PortKey) : Except Fault ProcessId := do
  return (← net.port key).owner

/-- The port at the other end of the connection of a port, if it has one. -/
def peer (net : Network) (key : PortKey) : Except Fault (Option PortKey) := do
  return (← net.port key).connection

/-- The process at the other end of the connection of a port, if it has one. -/
def peerOwner (net : Network) (key : PortKey) : Except Fault (Option ProcessId) := do
  match ← net.peer key with
  | some other => some <$> net.owner other
  | none => return none

/-- The port of a process at a given position. -/
def portAt (net : Network) (id : ProcessId) (direction : Direction) (index : Nat) :
    Except Fault PortKey := do
  match ((← net.process id).ports direction)[index]? with
  | some key => return key
  | none => throw (.missingPort id direction index)

/-- The process connected to the port of a process at a given position. -/
def neighbour (net : Network) (id : ProcessId) (direction : Direction) (index : Nat) :
    Except Fault (Option ProcessId) := do
  net.peerOwner (← net.portAt id direction index)

/-- The processes connected to the ports of a process in one direction, in the order of the ports.
-/
def neighbours (net : Network) (id : ProcessId) (direction : Direction) :
    Except Fault (List ProcessId) := do
  -- Unconnected ports contribute nothing, and each connection contributes one entry.
  let found ← ((← net.process id).ports direction).mapM net.peerOwner
  return found.reduceOption

/-- The processes that feed a process, in the order of its in-ports. -/
def predecessors (net : Network) (id : ProcessId) : Except Fault (List ProcessId) :=
  net.neighbours id .input

/-- The processes that a process feeds, in the order of its out-ports. -/
def successors (net : Network) (id : ProcessId) : Except Fault (List ProcessId) :=
  net.neighbours id .output

/-- Whether a port is on the boundary of the graph. -/
def isBoundary (net : Network) (key : PortKey) : Bool :=
  net.inputs.contains key || net.outputs.contains key

/-- The processes the outputs of the graph belong to, in the order of the outputs. -/
def outputProcesses (net : Network) : Except Fault (List ProcessId) :=
  net.outputs.mapM net.owner

/-- Whether the process of that name is a delay. -/
def isDelay (net : Network) (id : ProcessId) : Bool :=
  (net.process? id).any (·.kind.isDelay)

/-- The written form of a port, also of one that does not exist any more. -/
def portLabel (net : Network) (key : PortKey) : String :=
  match net.port? key with
  | some port => port.label
  | none => "<dangling " ++ key.text ++ ">"

/-- Refuses a network with composites, naming the first one. -/
def ensureFlat (net : Network) : Except Fault Unit :=
  match net.processes.toList.find? fun (_, process) => !process.kind.isLeaf with
  | some (id, _) => .error (.notFlat id)
  | none => .ok ()

end Network

end Dataflow
