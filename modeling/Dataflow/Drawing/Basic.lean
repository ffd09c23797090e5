import Dataflow.Network.Feedback

/-! What a drawing of a network shows, apart from how it is written. -/

namespace Dataflow

/-- A process as it is drawn, a composite with its inside. -/
inductive Figure where
  /-- A process that contains no others. -/
  | leaf (id : ProcessId) (process : Process)
  /-- A composite with the processes directly inside. -/
  | cluster (id : ProcessId) (process : Process) (content : List Figure)

/-- A connection as it is drawn. -/
structure Arrow where
  /-- The process the connection leaves. -/
  source : ProcessId
  /-- The process the connection enters. -/
  target : ProcessId
  /-- The name of the out-port, shown if the source has several. -/
  tail : Option String := none
  /-- The name of the in-port, shown if the target has several. -/
  head : Option String := none
  /-- Whether the source is a delay. -/
  delayed : Bool := false
  /-- Whether the connection lies on a feedback loop without a delay. -/
  looping : Bool := false
deriving DecidableEq

/-- A boundary port as it is drawn. -/
structure Terminal where
  /-- Its position among the inputs or outputs of the graph. -/
  index : Nat
  /-- The written form of the port. -/
  label : String
  /-- The process the port belongs to. -/
  owner : ProcessId
deriving DecidableEq

/-- What a drawing of a network shows. -/
structure Drawing where
  figures : List Figure
  /-- The fault that kept feedback loops from being found. -/
  fault : Option Fault
  arrows : List Arrow
  bounded : Bool
  inputs : List Terminal
  outputs : List Terminal

namespace Network

/-- The processes directly inside a composite, or outside of all, with what is inside them. -/
def figures (net : Network) : Nat → Option ProcessId → List Figure
  | 0, _ => []
  | depth + 1, parent =>
    -- A process has one parent, so no branch is deeper than the number of processes.
    let level := net.processes.toList.filter fun (_, process) => process.hierarchy.parent? = parent
    level.map fun (id, process) =>
      if process.kind.isLeaf then .leaf id process
      else .cluster id process (net.figures depth (some id))

/-- The pairs of neighbours on a loop, the last and the first process included. -/
def loopPairs (loop : List ProcessId) : List (ProcessId × ProcessId) :=
  loop.zip (loop.drop 1 ++ loop.take 1)

/-- The connections that lie on a feedback loop without a delay, as pairs of processes. -/
def loopEdges (net : Network) : Except Fault (List (ProcessId × ProcessId)) := do
  return (← net.undelayedLoops).flatMap loopPairs

/-- The connection that leaves a port, if both its ends exist. -/
def arrow? (net : Network) (loops : List (ProcessId × ProcessId)) (id : ProcessId)
    (process : Process) (key : PortKey) : Option Arrow := do
  let source ← net.port? key
  let target ← net.port? (← source.connection)
  let consumer ← net.process? target.owner
  return {
    source := id
    target := target.owner
    tail := if 1 < process.outPorts.length then some source.name else none
    head := if 1 < consumer.inPorts.length then some target.name else none
    delayed := process.kind.isDelay
    looping := loops.contains (id, target.owner) }

/-- All connections, in the order of the processes and ports they leave. -/
def arrows (net : Network) (loops : List (ProcessId × ProcessId)) : List Arrow :=
  net.processes.toList.flatMap fun (id, process) =>
    process.outPorts.filterMap (net.arrow? loops id process)

/-- The boundary ports that exist, with their positions. -/
def terminals (net : Network) (keys : List PortKey) : List Terminal :=
  keys.zipIdx.filterMap fun (key, index) => do
    let port ← net.port? key
    return { index, label := net.portLabel key, owner := port.owner }

def drawing (net : Network) : Drawing :=
  let (loops, fault) := match net.loopEdges with
    | .ok edges => (edges, none)
    | .error fault => ([], some fault)
  { figures := net.figures net.searchDepth none
    fault
    arrows := net.arrows loops
    bounded := !net.inputs.isEmpty || !net.outputs.isEmpty
    inputs := net.terminals net.inputs
    outputs := net.terminals net.outputs }

end Network

end Dataflow
