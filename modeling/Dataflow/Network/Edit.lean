import Dataflow.Network.Basic

/-! Edits of a network: steps that may stop at a fault and then leave what was done before it. -/

namespace Dataflow

/-- A step on a network, which keeps its changes also when it stops at a fault. -/
abbrev Edit := EStateM Fault Network

/-- A question about the network is an edit that changes nothing. -/
instance : MonadLift (Except Fault) Edit where
  monadLift
    | .ok answer => pure answer
    | .error fault => throw fault

namespace Edit

def modifyProcess (id : ProcessId) (change : Process → Process) : Edit Unit := do
  let process ← (← get).process id
  modify fun net => { net with processes := net.processes.insert id (change process) }

/-- Registers a process as a child of the composite it is placed in. -/
def adopt (parent child : ProcessId) : Edit Unit := do
  -- Only a composite can take children.
  let process ← (← get).process parent
  match process.kind with
  | .composite inside =>
    let kind := .composite { inside with children := inside.children ++ [child] }
    modifyProcess parent fun process => { process with kind := kind }
  | _ => throw (.malformedComposite parent (.insideLeaf child))

/-- Removes a process from the children of the composite it was placed in, if that still exists. -/
def disown (parent child : ProcessId) : Edit Unit := do
  match (← get).process? parent with
  | some { kind := .composite inside, .. } =>
    let kind := .composite { inside with children := inside.children.filter (· ≠ child) }
    modifyProcess parent fun process => { process with kind := kind }
  | _ => return

/-- Adds a process without ports under a new name, as a child of the composite it is placed in. -/
def addProcess (id : ProcessId) (kind : Kind Composite) (hierarchy : Hierarchy := {}) :
    Edit ProcessId := do
  if (← get).contains id then throw (.duplicateId id)
  -- The parent has to accept the child before the name is taken.
  if let some parent := hierarchy.parent? then adopt parent id
  modify fun net =>
    { net with
      processes := net.processes.insert id { kind, hierarchy }
      names := net.names.reserve id }
  return id

/-- Takes a fresh name with the given stem. -/
def freshId (stem : String) : Edit ProcessId :=
  modifyGet fun net =>
    let (id, names) := net.names.fresh stem
    (id, { net with names })

/-- Adds a process without ports under a fresh name. -/
def addFresh (stem : String) (kind : Kind Composite) (hierarchy : Hierarchy) : Edit ProcessId := do
  addProcess (← freshId stem) kind hierarchy

/-- Sets the connection of a live port. -/
def setConnection (key : PortKey) (connection : Option PortKey) : Edit Unit := do
  let _ ← (← get).port key
  modify fun net => { net with ports := net.ports.modify key fun port => { port with connection } }

/-- Connects an out-port to an in-port, both of which have to be free. -/
def connect (source target : PortKey) : Edit Unit := do
  let net ← get
  let first ← net.port source
  let second ← net.port target
  if first.direction ≠ .output ∨ second.direction ≠ .input then
    throw (.directionMismatch source target)
  if first.isConnected then throw (.portInUse source)
  if second.isConnected then throw (.portInUse target)
  -- Both ends record the connection.
  setConnection source (some target)
  setConnection target (some source)

/-- Breaks the connection of a port at both ends, and tells what was at the other one. -/
def disconnect (key : PortKey) : Edit (Option PortKey) := do
  let peer ← (← get).peer key
  -- The own end is cleared first, also if the other one turns out not to exist.
  setConnection key none
  if let some other := peer then setConnection other none
  return peer

/-- Adds a port to a process, whose name has to be new among the ports in that direction. -/
def addPort (owner : ProcessId) (name : String) (direction : Direction)
    (dataType : Option DataType := none) : Edit PortKey := do
  let net ← get
  let process ← net.process owner
  if (process.ports direction).any fun key => (net.port? key).any (·.name = name) then
    throw (.duplicatePort owner name direction)
  let key := net.ports.nextKey
  modify fun net => { net with ports := net.ports.push { name, owner, direction, dataType } }
  modifyProcess owner (·.addPort direction key)
  return key

/-- Breaks the connection of a port and frees its key. -/
def freePort (key : PortKey) : Edit Unit := do
  let _ ← disconnect key
  modify fun net => { net with ports := net.ports.free key }

/-- Removes a process with all its ports, none of which may be on the boundary of the graph. -/
def removeProcess (id : ProcessId) : Edit Process := do
  let net ← get
  let process ← net.process id
  if let some key := process.allPorts.find? net.isBoundary then throw (.danglingBoundary key id)
  process.allPorts.forM freePort
  modify fun net => { net with processes := net.processes.erase id }
  if let some parent := process.hierarchy.parent? then disown parent id
  return process

/-- Makes a live port an input of the graph. -/
def addInput (key : PortKey) : Edit Unit := do
  let _ ← (← get).port key
  modify fun net => { net with inputs := net.inputs ++ [key] }

/-- Makes a live port an output of the graph. -/
def addOutput (key : PortKey) : Edit Unit := do
  let _ ← (← get).port key
  modify fun net => { net with outputs := net.outputs ++ [key] }

/-- Puts one port in the place of another wherever it is on the boundary, and tells whether it was.
-/
def replaceBoundary (old new : PortKey) : Edit Bool := do
  let net ← get
  let retarget := List.map fun key : PortKey => if key = old then new else key
  set { net with inputs := retarget net.inputs, outputs := retarget net.outputs }
  return net.isBoundary old

end Edit

end Dataflow
