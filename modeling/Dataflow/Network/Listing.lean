import Dataflow.Network.Basic

/-! The plain listing of a network. -/

namespace Dataflow

/-- What a listing shows of a kind beside its tag. -/
def Kind.remark : Kind Composite → String
  | .parallelMap branches _ => " x" ++ toString branches.toNat
  | .delay initial => " init=" ++ initial
  | _ => ""

namespace Network

/-- The line of a process: kind, functions and place. -/
def processLine (id : ProcessId) (process : Process) : String :=
  let names := process.kind.functions.map (·.name)
  let functions := if names.isEmpty then "" else " [" ++ ", ".intercalate names ++ "]"
  let place :=
    if process.hierarchy.depth = 0 then "" else " in " ++ "/".intercalate process.hierarchy.path
  "  " ++ id ++ ": " ++ process.kind.tag ++ process.kind.remark ++ functions ++ place ++ "\n"

/-- The line of the connection that leaves a port, if there is one. -/
def connectionLine (net : Network) (key : PortKey) : String :=
  match (net.port? key).bind (·.connection) with
  | some peer => "    " ++ net.portLabel key ++ " -> " ++ net.portLabel peer ++ "\n"
  | none => ""

/-- The listing of a network: each process with the connections that leave it, then the boundary. -/
def listing (net : Network) : String :=
  let header := "ProcessNetwork (" ++ toString net.size ++ " processes, " ++
    toString net.inputs.length ++ " inputs, " ++ toString net.outputs.length ++ " outputs)\n"
  let processes := net.processes.toList.map fun (id, process) =>
    processLine id process ++ String.join (process.outPorts.map net.connectionLine)
  let inputs := net.inputs.map fun key => "  input " ++ net.portLabel key ++ "\n"
  let outputs := net.outputs.map fun key => "  output " ++ net.portLabel key ++ "\n"
  header ++ String.join processes ++ String.join inputs ++ String.join outputs

end Network

end Dataflow
