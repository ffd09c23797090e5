import Dataflow.Diagnostic
import Dataflow.Network.Feedback

/-! What keeps a network from being compiled. -/

namespace Dataflow

def chainText (ids : List ProcessId) : String :=
  " -> ".intercalate ids

namespace Network

/-- What is wrong with a process: composites are refused, leaves have to fit their kind. -/
def processFindings (id : ProcessId) (process : Process) : List Diagnostic :=
  if process.kind.isLeaf then
    process.defect?.toList.map fun defect =>
      { severity := .error, subject := some id, message := defect.text, code := some .arity }
  else
    [{ severity := .error, subject := some id, code := some .notFlat
       message := "composite process remains in a network that must be flat" }]

/-- What is wrong with a port on the boundary of the graph, where `role` says on which side. -/
def boundaryFindings (net : Network) (role : String) (key : PortKey) : List Diagnostic :=
  match net.port? key with
  | none =>
    [{ severity := .error, code := some .boundary
       message := "graph " ++ role ++ " " ++ key.text ++ " does not exist" }]
  | some port =>
    if port.isConnected then
      [{ severity := .error, subject := some port.owner, code := some .boundary
         message :=
           "graph " ++ role ++ " port '" ++ port.name ++ "' is connected inside the network" }]
    else []

/-- The findings of a search for loops, or the one that the search failed. -/
def loopFindings (code : Code) (message hint : String) :
    Except Fault (List (List ProcessId)) → List Diagnostic
  | .ok loops => loops.map fun loop =>
    { severity := .error, subject := loop.head?, message := message ++ chainText loop
      code := some code, hint := some hint }
  | .error fault =>
    [{ severity := .error, message := "cycle search failed: " ++ fault.message,
       code := some .internal }]

/-- Everything that keeps a network from being compiled: processes, boundary, feedback. -/
def validate (net : Network) : List Diagnostic :=
  net.processes.toList.flatMap (fun (id, process) => processFindings id process) ++
    net.inputs.flatMap (net.boundaryFindings "input") ++
    net.outputs.flatMap (net.boundaryFindings "output") ++
    loopFindings .undelayedLoop "feedback cycle without a delay: "
      "every feedback loop must pass through a delay process" net.undelayedLoops ++
    loopFindings .multiDelayLoop "feedback loop through more than one delay: "
      "every feedback loop must pass through exactly one delay process" net.multiDelayLoops

end Network

end Dataflow
