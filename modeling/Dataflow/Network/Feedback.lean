import Dataflow.Graph.Search
import Dataflow.Network.Basic

/-! Feedback loops of a network, told apart by the delays they pass. -/

namespace Dataflow.Network

/-- The processes that a process feeds, or none if they cannot be determined. -/
def targets (net : Network) (id : ProcessId) : List ProcessId :=
  match net.successors id with
  | .ok ids => ids
  | .error _ => []

/-- The processes that a process feeds within one tick, which a delay does not. -/
def instantTargets (net : Network) (id : ProcessId) : List ProcessId :=
  if net.isDelay id then [] else net.targets id

def sources (net : Network) (id : ProcessId) : List ProcessId :=
  net.ids.filter fun source => id ∈ net.targets source

/-- A depth that no path without repetitions exceeds. -/
def searchDepth (net : Network) : Nat :=
  net.size + 1

/-- Feedback loops without any delay, found by one depth-first search in the order of the names. -/
def undelayedLoops (net : Network) : Except Fault (List (List ProcessId)) := do
  -- The connections of all processes that pass values on within the tick have to be readable.
  (net.ids.filter (!net.isDelay ·)).forM fun id => discard <| net.successors id
  return Graph.loops net.instantTargets net.searchDepth net.ids

/-- A loop through a given delay that passes another delay too, if there is one. -/
def multiDelayLoop? (net : Network) (delay : ProcessId) : Option (List ProcessId) :=
  -- Only processes that lead back to the delay can lie on a loop through it.
  let leadingBack := Graph.reach net.sources net.searchDepth delay []
  if delay ∈ leadingBack then
    Graph.closedPath? net.targets leadingBack (fun path => 1 < path.countP net.isDelay) delay
      net.searchDepth [delay] delay
  else none

/-- Feedback loops with more than one delay, at most one from each delay and one for each set of
processes. -/
def multiDelayLoops (net : Network) : Except Fault (List (List ProcessId)) := do
  net.ids.forM fun id => discard <| net.successors id
  let found := (net.ids.filter net.isDelay).filterMap net.multiDelayLoop?
  return found.foldl
    (fun loops loop => if loops.any (·.isPerm loop) then loops else loops ++ [loop]) []

end Dataflow.Network
