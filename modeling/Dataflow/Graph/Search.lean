/-!
Depth-first searches in a finite graph that is given by the successors of each node.

Every search takes a bound on the depth of its paths. A path without repeated nodes is no longer
than the number of nodes, so a bound of one more than that number is never reached.
-/

namespace Dataflow.Graph

variable {α : Type} [DecidableEq α]

/-- What a depth-first search for loops has found so far. -/
structure LoopSearch (α : Type) where
  /-- The nodes all of whose successors have been followed. -/
  finished : List α := []
  /-- The loops that were closed, in the order of their discovery. -/
  loops : List (List α) := []

/-- Follows all successors of a node, where `path` leads to the node from the root of the search. -/
def followLoops (next : α → List α) : Nat → List α → α → LoopSearch α → LoopSearch α
  | 0, _, _, search => search
  | depth + 1, path, node, search =>
    let path := path ++ [node]
    -- A successor on the path closes a loop, a finished one cannot close any, every other one is
    -- followed.
    let search := (next node).foldl (fun search successor =>
      if successor ∈ path then
        { search with loops := search.loops ++ [path.dropWhile (· ≠ successor)] }
      else if successor ∈ search.finished then search
      else followLoops next depth path successor search) search
    { search with finished := node :: search.finished }

/-- The loops that a depth-first search closes when it starts at each of the given nodes in turn. -/
def loops (next : α → List α) (depth : Nat) (nodes : List α) : List (List α) :=
  let search := nodes.foldl (fun search node =>
    if node ∈ search.finished then search else followLoops next depth [] node search) {}
  search.loops

/-- Adds everything that can be reached from a node in one step or more to what was reached before.
-/
def reach (next : α → List α) : Nat → α → List α → List α
  | 0, _, reached => reached
  | depth + 1, node, reached =>
    (next node).foldl (fun reached successor =>
      if successor ∈ reached then reached
      else reach next depth successor (successor :: reached)) reached

/-- The first path without repetitions that extends `path`, ends before `target`, stays in `usable`,
and is accepted. -/
def closedPath? (next : α → List α) (usable : List α) (accept : List α → Bool) (target : α) :
    Nat → List α → α → Option (List α)
  | 0, _, _ => none
  | depth + 1, path, node =>
    -- Successors are tried in order, and each attempt starts again from the same path.
    (next node).findSome? fun successor =>
      if successor = target then
        if accept path then some path else none
      else if successor ∈ usable ∧ successor ∉ path then
        closedPath? next usable accept target depth (path ++ [successor]) successor
      else none

end Dataflow.Graph
