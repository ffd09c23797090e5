import Dataflow.Network.Feedback

/-! Sections: regions between an unzip and a zip that nothing enters or leaves in between. -/

namespace Dataflow

/-- A region given by the unzip it starts at and the zip it stops at. -/
structure Section where
  start : ProcessId
  stop : ProcessId
deriving DecidableEq

def Section.text (region : Section) : String :=
  region.start ++ ".." ++ region.stop

namespace Network

/-- Looks for the nearest unzip against the direction of the connections, with the processes visited
on the way. -/
def searchUnzip (net : Network) :
    Nat → ProcessId → List ProcessId → Except Fault (Option ProcessId × List ProcessId)
  | 0, _, visited => .ok (none, visited)
  | depth + 1, id, visited => do
    if id ∈ visited then return (none, visited)
    let visited := id :: visited
    if (← net.process id).kind.isUnzip then return (some id, visited)
    -- In-ports are followed from left to right until one leads to an unzip.
    (← net.predecessors id).foldlM (fun (found, visited) predecessor =>
      if found.isSome then .ok (found, visited)
      else net.searchUnzip depth predecessor visited) (none, visited)

/-- The nearest unzip from which a process can be reached, itself included. -/
def nearestUnzip? (net : Network) (id : ProcessId) : Except Fault (Option ProcessId) := do
  return (← net.searchUnzip net.searchDepth id []).1

/-- Whether every path from a process in one direction leads to `target`, with the processes visited
on the way. -/
def searchEscape (net : Network) (target : ProcessId) (direction : Direction) :
    Nat → ProcessId → List ProcessId → Except Fault (Bool × List ProcessId)
  | 0, _, visited => .ok (true, visited)
  | depth + 1, id, visited => do
    if id = target ∨ id ∈ visited then return (true, visited)
    let ports := (← net.process id).ports direction
    -- A process without ports and an unconnected port end a path before the target.
    ports.foldlM (fun (confined, visited) key =>
      if confined then do
        match ← net.peerOwner key with
        | some next => net.searchEscape target direction depth next visited
        | none => return (false, visited)
      else .ok (false, visited)) (!ports.isEmpty, id :: visited)

/-- Whether every path from a process in one direction leads to `target`. -/
def isConfined (net : Network) (id target : ProcessId) (direction : Direction) :
    Except Fault Bool := do
  return (← net.searchEscape target direction net.searchDepth id []).1

/-- Whether all that leaves the start arrives at the stop, and all that arrives there comes from the
start. -/
def isContained (net : Network) (region : Section) : Except Fault Bool := do
  if ← net.isConfined region.start region.stop .output then
    net.isConfined region.stop region.start .input
  else return false

/-- The section that stops at a zip, if its nearest unzip starts one. -/
def sectionAt? (net : Network) (stop : ProcessId) : Except Fault (Option Section) := do
  match ← net.nearestUnzip? stop with
  | none => return none
  | some start =>
    let region : Section := { start, stop }
    return if ← net.isContained region then some region else none

/-- What the search for sections has found so far. -/
structure SectionSearch where
  /-- The processes that need not be looked at again. -/
  visited : List ProcessId := []
  /-- The sections in the order of their discovery. -/
  sections : List Section := []

/-- Looks for sections from a process on against the direction of the connections. -/
def searchSections (net : Network) : Nat → ProcessId → SectionSearch → Except Fault SectionSearch
  | 0, _, search => .ok search
  | depth + 1, id, search => do
    if id ∈ search.visited then return search
    let visited := id :: search.visited
    let found ← if (← net.process id).kind.isZip then net.sectionAt? id else pure none
    -- Behind a section the search goes on at its start, since nothing else leads into it.
    let (origin, search) := match found with
      | some region =>
        (region.start,
          { visited := region.start :: visited, sections := search.sections ++ [region] })
      | none => (id, { search with visited })
    (← net.predecessors origin).foldlM
      (fun search predecessor => net.searchSections depth predecessor search) search

/-- All sections that lead to an output of the graph, none of them inside another one. -/
def sections (net : Network) : Except Fault (List Section) := do
  let search ← (← net.outputProcesses).foldlM
    (fun search id => net.searchSections net.searchDepth id search) ({} : SectionSearch)
  return search.sections

end Network

end Dataflow
