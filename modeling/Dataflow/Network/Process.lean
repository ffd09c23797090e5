import Dataflow.Network.Hierarchy
import Dataflow.Network.Kind
import Dataflow.Network.Port

/-! The processes of a network and the ports their kinds ask for. -/

namespace Dataflow

/-- A node of a network; its name is the key it is stored under. -/
structure Process where
  kind : Kind Composite
  hierarchy : Hierarchy := {}
  inPorts : List PortKey := []
  outPorts : List PortKey := []
deriving DecidableEq

/-- The numbers of ports a kind admits. -/
inductive Arity where
  /-- Exactly these numbers. -/
  | exact (ins outs : Nat)
  /-- Any positive number of in-ports and one out-port. -/
  | gather
  /-- One in-port and any positive number of out-ports. -/
  | scatter
  /-- As many ports as a composite has helpers. -/
  | helpers (ins outs : Nat)
deriving DecidableEq

/-- Whether the given numbers of ports are admitted. -/
def Arity.admits (ins outs : Nat) : Arity → Bool
  | .exact wantedIns wantedOuts | .helpers wantedIns wantedOuts =>
    ins = wantedIns && outs = wantedOuts
  | .gather => 0 < ins && outs = 1
  | .scatter => ins = 1 && 0 < outs

/-- The numbers of ports each kind admits. -/
def Kind.arity : Kind Composite → Arity
  | .map _ | .coalescedMap _ | .parallelMap .. | .delay _ => .exact 1 1
  | .comb _ | .zip => .gather
  | .unzip | .fanout => .scatter
  | .inport => .exact 0 1
  | .outport => .exact 1 0
  | .composite inside => .helpers inside.inputs.length inside.outputs.length

/-- What is wrong with the payload or the ports of a process. -/
inductive Defect where
  | noBranches
  | noFunctions (tag : String)
  | arity (tag : String) (wanted : Arity) (ins outs : Nat)
deriving DecidableEq

def Defect.text : Defect → String
  | .noBranches => "parallel_map declares zero branches"
  | .noFunctions tag => tag ++ " carries no functions"
  | .arity tag wanted ins outs =>
    -- A composite is measured by its helpers, every other kind by what it expects.
    let found := toString ins ++ " and " ++ toString outs
    match wanted with
    | .exact wantedIns wantedOuts =>
      tag ++ " expects " ++ toString wantedIns ++ " in-port(s) and " ++ toString wantedOuts ++
        " out-port(s), found " ++ found
    | .gather => tag ++ " expects at least 1 in-port and exactly 1 out-port, found " ++ found
    | .scatter => tag ++ " expects exactly 1 in-port and at least 1 out-port, found " ++ found
    | .helpers wantedIns wantedOuts =>
      tag ++ " has " ++ toString ins ++ " in-port(s) and " ++ toString outs ++
        " out-port(s) but " ++ toString wantedIns ++ " inport and " ++
        toString wantedOuts ++ " outport children"

/-- What is wrong with the payload of a kind; branches are counted before functions. -/
def Kind.payloadDefect? (kind : Kind Composite) : Option Defect :=
  match kind with
  | .parallelMap branches functions =>
    if branches = 0 then some .noBranches
    else if functions.isEmpty then some (.noFunctions kind.tag)
    else none
  | .coalescedMap functions => if functions.isEmpty then some (.noFunctions kind.tag) else none
  | _ => none

namespace Process

/-- The ports of a process in one direction, in order. -/
def ports (process : Process) : Direction → List PortKey
  | .input => process.inPorts
  | .output => process.outPorts

/-- All ports of a process, the in-ports first. -/
def allPorts (process : Process) : List PortKey :=
  process.inPorts ++ process.outPorts

/-- The process with one more port in a direction. -/
def addPort (process : Process) (direction : Direction) (key : PortKey) : Process :=
  match direction with
  | .input => { process with inPorts := process.inPorts ++ [key] }
  | .output => { process with outPorts := process.outPorts ++ [key] }

/-- What is wrong with the numbers of ports. -/
def arityDefect? (process : Process) : Option Defect :=
  let ins := process.inPorts.length
  let outs := process.outPorts.length
  let wanted := process.kind.arity
  if wanted.admits ins outs then none else some (.arity process.kind.tag wanted ins outs)

/-- The first thing that is wrong with a process: its payload, then the numbers of its ports. -/
def defect? (process : Process) : Option Defect :=
  process.kind.payloadDefect?.or process.arityDefect?

end Process

end Dataflow
