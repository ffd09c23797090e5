import Dataflow.Region.Branch
import Dataflow.Transform.Report
import Dataflow.Transform.Splice

/-! Merging parallel maps that follow each other directly. -/

namespace Dataflow

/-- Why two parallel maps that follow each other cannot be merged. -/
inductive Mismatch where
  /-- The second one is something else. -/
  | notParallel (id : ProcessId)
  /-- They work on different numbers of elements. -/
  | branches (first second : ProcessId) (count other : UInt64)
  /-- The type the first one produces is not what the second one consumes. -/
  | types (first second : ProcessId) (produced consumed : Option DataType)

def Mismatch.text : Mismatch → String
  | .notParallel id => "'" ++ id ++ "' is not a parallel map"
  | .branches first second count other =>
    "'" ++ first ++ "' has " ++ toString count.toNat ++ " branches but '" ++ second ++ "' has " ++
      toString other.toNat
  | .types first second produced consumed =>
    let name (type : Option DataType) := type.elim "nothing" DataType.text
    "'" ++ first ++ "' produces " ++ name produced ++ " but '" ++ second ++ "' consumes " ++
      name consumed

namespace Network

/-- Whether the process of that name is a parallel map. -/
def isParallelMap (net : Network) (id : ProcessId) : Bool :=
  (net.process? id).any (·.kind.isParallelMap)

/-- Extends a chain of parallel maps behind its last process as far as possible. -/
def extendChain (net : Network) : Nat → List ProcessId → ProcessId → Except Fault (List ProcessId)
  | 0, chain, _ => .ok chain
  | fuel + 1, chain, last => do
    match ← net.neighbour last .output 0 with
    | none => return chain
    | some next =>
      if next ∈ chain then return chain
      if (← net.process next).kind.isParallelMap then net.extendChain fuel (chain ++ [next]) next
      else return chain

/-- Why two kinds that follow each other cannot be merged. -/
def mismatch? (first second : ProcessId) : Kind Composite → Kind Composite → Option Mismatch
  | .parallelMap count functions, .parallelMap other others =>
    let produced := functions.getLast?.map (·.outputType)
    let consumed := others.head?.bind (·.inputType?)
    if count ≠ other then some (.branches first second count other)
    else if produced ≠ consumed then some (.types first second produced consumed)
    else none
  | _, _ => some (.notParallel second)

/-- The first reason why a chain cannot be merged. -/
def chainMismatch? (net : Network) : List ProcessId → Except Fault (Option Mismatch)
  | first :: second :: rest => do
    match mismatch? first second (← net.process first).kind (← net.process second).kind with
    | some reason => return some reason
    | none => net.chainMismatch? (second :: rest)
  | _ => return none

/-- Whether a parallel map feeds the first in-port of a process, so that no chain begins there. -/
def continuesChain (net : Network) (id : ProcessId) : Except Fault Bool := do
  match ← net.neighbour id .input 0 with
  | some predecessor => return (← net.process predecessor).kind.isParallelMap
  | none => return false

/-- The note that a chain was passed over. -/
def notMerged (id : ProcessId) (reason : Mismatch) : Diagnostic where
  severity := .note
  subject := some id
  message := "parallel map chain not coalesced: " ++ reason.text
  code := some .unmergeableChain

end Network

namespace Edit

/-- Replaces a chain of parallel maps by one that applies their functions in order, if the first is
one. -/
def mergeChain (chain : List ProcessId) : Edit Bool := do
  match chain.head?, chain.getLast? with
  | some first, some last =>
    match (← (← get).process first).kind with
    | .parallelMap branches _ =>
      let functions ← (← get).chainFunctions chain
      replaceRegion first last "_parallel" (.parallelMap branches functions)
      return true
    | _ => return false
  | _, _ => return false

/-- The processes whose chains were dealt with, and the report so far. -/
structure Merging where
  seen : List ProcessId := []
  report : Report := {}

/-- Merges the chain of parallel maps that begins at a process, if one does. -/
def mergeFrom (merging : Merging) (id : ProcessId) : Edit Merging := do
  if id ∈ merging.seen ∨ !(← get).isParallelMap id then return merging
  if ← (← get).continuesChain id then return merging
  let chain ← (← get).extendChain (← get).searchDepth [id] id
  let merging := { merging with seen := merging.seen ++ chain }
  if chain.length < 2 then return merging
  match ← (← get).chainMismatch? chain with
  | some reason =>
    return { merging with report := merging.report.addNotes [Network.notMerged id reason] }
  | none =>
    if ← mergeChain chain then return { merging with report := merging.report.count }
    else return merging

/-- Merges all chains of parallel maps with equal numbers of elements and matching types. -/
def mergeParallelMaps : Edit Report := do
  (← get).ensureFlat
  let merging ← (← get).ids.foldlM mergeFrom {}
  return merging.report

end Edit

end Dataflow
