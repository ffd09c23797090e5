import Dataflow.Transform.Report

/-! Transformations of single processes: dropping idle ones, and naming combs with one input for
what they are. -/

namespace Dataflow.Network

/-- Whether a process takes arrays of one element apart or puts them together. -/
def isRedundant (process : Process) : Bool :=
  (process.kind.isZip || process.kind.isUnzip) &&
    process.inPorts.length = 1 && process.outPorts.length = 1

/-- The function of a comb with one in-port. -/
def unaryComb? (process : Process) : Option Func :=
  match process.kind with
  | .comb function => if process.inPorts.length = 1 then some function else none
  | _ => none

end Dataflow.Network

namespace Dataflow.Edit

/-- Splices a process with one in-port and one out-port out of the network, and tells whether it
could be removed. -/
def contract (id : ProcessId) : Edit Bool := do
  let entry ← (← get).portAt id .input 0
  let exit ← (← get).portAt id .output 0
  let before ← disconnect entry
  let behind ← disconnect exit
  match before, behind with
  | some source, some target => connect source target
  | some source, none => discard <| replaceBoundary exit source
  | none, some target => discard <| replaceBoundary entry target
  | none, none =>
    -- With no neighbour on either side there is nothing the boundary could move to.
    if (← get).isBoundary entry || (← get).isBoundary exit then return false
  discard <| removeProcess id
  return true

/-- Removes every zip and unzip with one in-port and one out-port. -/
def removeRedundant : Edit Report := do
  (← get).ensureFlat
  let candidates := (← get).processes.toList.filter fun (_, process) => Network.isRedundant process
  candidates.foldlM (fun report (id, _) => do
    if ← contract id then return report.count
    else
      let note : Diagnostic :=
        { severity := .note, subject := some id
          message := "redundant process is the whole graph boundary; kept" }
      return report.addNotes [note]) {}

/-- Turns every comb with one in-port into a map. -/
def combToMap : Edit Report := do
  (← get).ensureFlat
  let candidates := (← get).processes.toList.filterMap fun (id, process) =>
    (Network.unaryComb? process).map (id, ·)
  candidates.foldlM (fun report (id, function) => do
    modifyProcess id fun process => { process with kind := .map function }
    return report.count) {}

end Dataflow.Edit
