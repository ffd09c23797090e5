import Dataflow.Transform.Report

/-! Inlining composites, innermost first, until the network is flat. -/

namespace Dataflow.Network

/-- The composite with the most others around it, the first one of them by name. -/
def innermostComposite? (net : Network) : Option ProcessId :=
  -- A later composite is preferred only if it is deeper.
  let deepest := net.processes.toList.foldl (fun deepest (id, process) =>
    let depth := process.hierarchy.depth
    if process.kind.isLeaf ∨ (deepest.any fun (_, other) => depth ≤ other) then deepest
    else some (id, depth)) (none : Option (ProcessId × Nat))
  deepest.map (·.1)

end Dataflow.Network

namespace Dataflow.Edit

/-- Leads what enters a composite at a port to what its helper feeds, and removes the helper. -/
def inlineInput (id : ProcessId) (index : Nat) (outer : PortKey) (helper : ProcessId) :
    Edit (List Diagnostic) := do
  let .inport := (← (← get).process helper).kind
    | throw (.malformedComposite id (.notInport index helper))
  let inner ← (← get).portAt helper .output 0
  let producer ← disconnect outer
  let consumer ← disconnect inner
  let notes ← match producer, consumer with
    | some source, some target => do
      connect source target
      pure []
    | none, some target => do
      discard <| replaceBoundary outer target
      pure []
    | producer, none => do
      -- Nothing inside reads the port, so a boundary entry has nowhere to go.
      if (← get).isBoundary outer then throw (.malformedComposite id (.unusedInput index))
      let label := (← get).portLabel
      pure <| producer.toList.map fun source =>
        ({ severity := .note, subject := some id
           message := "input " ++ toString index ++ " of composite '" ++ id ++
             "' is not read inside; " ++ label source ++ " is left unconnected" } : Diagnostic)
  discard <| removeProcess helper
  return notes

/-- Leads what feeds the helper of a composite to where the port leads, and removes the helper. -/
def inlineOutput (id : ProcessId) (index : Nat) (outer : PortKey) (helper : ProcessId) :
    Edit Unit := do
  let .outport := (← (← get).process helper).kind
    | throw (.malformedComposite id (.notOutport index helper))
  let inner ← (← get).portAt helper .input 0
  let producer ← disconnect inner
  let consumer ← disconnect outer
  match producer, consumer with
  | some source, some target => connect source target
  | some source, none => discard <| replaceBoundary outer source
  | none, _ =>
    if (← get).isBoundary outer then throw (.malformedComposite id (.undrivenOutput index))
  discard <| removeProcess helper

/-- Hands the children of a composite over to the composite around it. -/
def releaseChildren (id : ProcessId) (hierarchy : Hierarchy) : Edit Unit := do
  let children := ((← (← get).process id).kind.inside?.map (·.children)).getD []
  children.forM fun child =>
    modifyProcess child fun process => { process with hierarchy := process.hierarchy.without id }
  if let some parent := hierarchy.parent? then
    modifyProcess parent fun process =>
      { process with kind := process.kind.mapInside fun inside =>
          { inside with children := inside.children ++ children } }

/-- Replaces a composite by its children. -/
def inlineComposite (id : ProcessId) : Edit (List Diagnostic) := do
  let process ← (← get).process id
  let .composite inside := process.kind | throw (.notFlat id)
  if process.inPorts.length ≠ inside.inputs.length ∨
      process.outPorts.length ≠ inside.outputs.length then
    throw (.malformedComposite id .helperCount)
  let notes ← (process.inPorts.zip inside.inputs).zipIdx.mapM fun ((outer, helper), index) =>
    inlineInput id index outer helper
  (process.outPorts.zip inside.outputs).zipIdx.forM fun ((outer, helper), index) =>
    inlineOutput id index outer helper
  releaseChildren id process.hierarchy
  discard <| removeProcess id
  return notes.flatten

/-- Inlines composites as long as there are any; each time the network loses a process. -/
def inlineAll : Nat → Report → Edit Report
  | 0, report => return report
  | fuel + 1, report => do
    match (← get).innermostComposite? with
    | none => return report
    | some id =>
      let notes ← inlineComposite id
      inlineAll fuel (report.addNotes notes).count

def flatten : Edit Report := do
  inlineAll (← get).size {}

end Dataflow.Edit
