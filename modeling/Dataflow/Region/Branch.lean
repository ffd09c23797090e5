import Dataflow.Region.Section

/-! The branches of a section, and whether they all do the same. -/

namespace Dataflow.Network

/-- Follows the first out-ports from a process to the stop of a section; `chain` is what was passed
so far. -/
def followChain (net : Network) (stop : ProcessId) :
    Nat → List ProcessId → Option ProcessId → Except Fault (List ProcessId)
  | _, chain, none => .ok chain
  | 0, chain, some _ => .ok chain
  | fuel + 1, chain, some id => do
    -- A chain ends at the stop, at an open port, or where it would repeat itself.
    if id = stop ∨ id ∈ chain then return chain
    let process ← net.process id
    let next ← if process.outPorts.isEmpty then pure none else net.neighbour id .output 0
    net.followChain stop fuel (chain ++ [id]) next

/-- The chain of processes behind each out-port of the start of a section. -/
def branchChains (net : Network) (region : Section) : Except Fault (List (List ProcessId)) := do
  (← net.process region.start).outPorts.mapM fun key => do
    net.followChain region.stop net.searchDepth [] (← net.peerOwner key)

def chainKinds (net : Network) (chain : List ProcessId) : Except Fault (List (Kind Composite)) :=
  chain.mapM fun id => return (← net.process id).kind

/-- The functions that a chain of processes applies, in order. -/
def chainFunctions (net : Network) (chain : List ProcessId) : Except Fault (List Func) := do
  return (← net.chainKinds chain).flatMap (·.functions)

/-- Whether two chains do the same at each position. -/
def sameChains (first second : List (Kind Composite)) : Bool :=
  (first.zip second).all fun (kind, other) => kind.sameComputation other

/-- The common length of the branches, if all are chains of maps that do the same at each position.
-/
def dataParallelLength? (net : Network) (region : Section) : Except Fault (Option Nat) := do
  match ← net.branchChains region with
  | [] => return none
  | first :: others =>
    let length := first.length
    if length = 0 ∨ others.any (·.length ≠ length) then return none
    let reference ← net.chainKinds first
    let kinds ← others.mapM net.chainKinds
    if (reference :: kinds).all (·.all (·.isMapShaped)) && kinds.all (sameChains reference) then
      return some length
    else return none

/-- Whether all branches of a section do the same. -/
def isDataParallel (net : Network) (region : Section) : Except Fault Bool := do
  return (← net.dataParallelLength? region).isSome

end Dataflow.Network
