import Dataflow.Network.Feedback
import Dataflow.Network.Edit

/-! Putting one process in the place of a region. -/

namespace Dataflow.Edit

/-- Moves a port to another process, with its connection and its place on the boundary. -/
def movePort (owner : ProcessId) (direction : Direction) (key : PortKey) : Edit Unit := do
  let port ← (← get).port key
  let moved ← addPort owner port.name direction port.dataType
  if let some remote ← disconnect key then
    match direction with
    | .input => connect remote moved
    | .output => connect moved remote
  discard <| replaceBoundary key moved

/-- Moves the in-ports of the start of a region and the out-ports of its end to the processes that
replace it. -/
def redirect (oldStart oldStop newStart newStop : ProcessId) : Edit Unit := do
  (← (← get).process oldStart).inPorts.forM (movePort newStart .input)
  (← (← get).process oldStop).outPorts.forM (movePort newStop .output)

/-- Removes a process and everything it leads to, and tells how many processes went. -/
def destroy : Nat → ProcessId → Edit Nat
  | 0, _ => return 0
  | depth + 1, id => do
    unless (← get).contains id do return 0
    -- What the process leads to is known only while it is still there.
    let next ← (← get).successors id
    discard <| removeProcess id
    next.foldlM (fun removed successor => return removed + (← destroy depth successor)) 1

/-- Removes a process and everything it leads to, each level of the search having one process less.
-/
def destroyChain (start : ProcessId) : Edit Nat := do
  destroy (← get).searchDepth start

/-- Replaces the region between two processes by one fresh process at the place of the first one. -/
def replaceRegion (start stop : ProcessId) (stem : String) (kind : Kind Composite) : Edit Unit := do
  let hierarchy := (← (← get).process start).hierarchy
  let fresh ← addFresh stem kind hierarchy
  redirect start stop fresh fresh
  discard <| destroyChain start

end Dataflow.Edit
