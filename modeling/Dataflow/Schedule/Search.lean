import Dataflow.Diagnostic
import Dataflow.Network.Feedback
import Dataflow.Network.Validation
import Dataflow.Schedule.Basic

/-!
Finding a schedule.

The search starts at the outputs of the graph and goes against the connections. A delay is not
passed: what feeds it becomes a new start, which is what breaks feedback. Each start gives a
fragment, which is put into the order behind the last process that it depends on.
-/

namespace Dataflow

/-- An order of processes, and the process behind which it has to stand in the order found before.
-/
structure Fragment where
  /-- The processes in order. -/
  order : List ProcessId := []
  /-- The process to stand behind; without one the fragment goes to the front. -/
  anchor : Option ProcessId := none

/-- The order found so far. -/
structure Plan where
  order : List ProcessId := []
  visited : List ProcessId := []
  reported : List ProcessId := []
  findings : List Diagnostic := []

namespace Plan

/-- Of two anchors the one that stands later in the order. -/
def laterAnchor (plan : Plan) : Option ProcessId → Option ProcessId → Option ProcessId
  | none, anchor | anchor, none => anchor
  | some first, some second =>
    match plan.order.idxOf? first, plan.order.idxOf? second with
    | some position, some other => if position < other then some second else some first
    | none, some _ => some second
    | _, none => some first

/-- The position behind an anchor in the order. -/
def cut (plan : Plan) (anchor : Option ProcessId) : Nat :=
  match anchor.bind (plan.order.idxOf? ·) with
  | some index => index + 1
  | none => 0

/-- Two fragments in a row, to stand behind both of their anchors. -/
def join (plan : Plan) (first second : Fragment) : Fragment where
  order := first.order ++ second.order
  anchor := plan.laterAnchor first.anchor second.anchor

def insert (plan : Plan) (fragment : Fragment) : Plan :=
  let position := plan.cut fragment.anchor
  { plan with order := plan.order.take position ++ fragment.order ++ plan.order.drop position }

end Plan

/-- What the expansion of one start has done so far. -/
structure Expansion where
  placed : List ProcessId := []
  feeders : List ProcessId := []
  reported : List ProcessId := []
  findings : List Diagnostic := []

/-- A step of the expansion of one start. -/
abbrev Expand := StateT Expansion (Except Fault)

namespace Expand

/-- The finding that the processes being expanded form a loop that closes at a process. -/
def loopFinding (stack : List ProcessId) (id : ProcessId) : Diagnostic where
  severity := .error
  subject := some id
  message :=
    "cannot schedule feedback cycle without a delay: " ++
      chainText (stack.dropWhile (· ≠ id) ++ [id])
  code := some .undelayedLoop

/-- Reports the loop that closes at a process, once for each process. -/
def reportLoop (stack : List ProcessId) (id : ProcessId) : Expand Unit := do
  unless id ∈ (← get).reported do
    modify fun expansion =>
      { expansion with
        reported := expansion.reported ++ [id]
        findings := expansion.findings ++ [loopFinding stack id] }

def place (fragment : Fragment) (id : ProcessId) : Expand Fragment := do
  modify fun expansion => { expansion with placed := expansion.placed ++ [id] }
  return { fragment with order := fragment.order ++ [id] }

/-- Adds what feeds an in-port to a fragment, unless it is placed already; `visit` gives the
fragment of a process. -/
def follow (net : Network) (plan : Plan) (visit : ProcessId → Expand Fragment)
    (fragment : Fragment) (key : PortKey) : Expand Fragment := do
  match ← (net.peerOwner key : Except Fault _) with
  | none => return fragment
  | some source =>
    if source ∈ (← get).placed then return fragment
    return plan.join fragment (← visit source)

/-- The fragment that ends with a process, where `stack` holds the processes being expanded. -/
def expand (net : Network) (plan : Plan) : Nat → List ProcessId → ProcessId → Expand Fragment
  | 0, _, _ => return {}
  | depth + 1, stack, id => do
    if id ∈ plan.visited then return { anchor := some id }
    if id ∈ stack then
      reportLoop stack id
      return {}
    let process ← net.process id
    if process.kind.isDelay then
      let feeders ← net.predecessors id
      modify fun expansion => { expansion with feeders := expansion.feeders ++ feeders }
      place {} id
    else
      -- What feeds the process comes first, port by port.
      let fragment ←
        process.inPorts.foldlM (follow net plan (expand net plan depth (stack ++ [id]))) {}
      place fragment id

end Expand

namespace Network

/-- Expands the starts in turn, and behind them what feeds the delays that were met. -/
def expandAll (net : Network) : Nat → Plan → List ProcessId → Except Fault Plan
  | _, plan, [] => .ok plan
  | 0, plan, _ => .ok plan
  | fuel + 1, plan, start :: queue => do
    let initial : Expansion := { reported := plan.reported, findings := plan.findings }
    let (fragment, expansion) ← (Expand.expand net plan net.searchDepth [] start).run initial
    let plan : Plan :=
      { plan with
        visited := plan.visited ++ expansion.placed
        reported := expansion.reported
        findings := expansion.findings }
    net.expandAll fuel (plan.insert fragment) (queue ++ expansion.feeders)

/-- The number of starts: the outputs, and what feeds a delay, which is expanded once. -/
def startBound (net : Network) : Nat :=
  net.processes.toList.foldl (fun bound (_, process) => bound + process.inPorts.length)
    net.outputs.length

/-- The warning that a process is not scheduled. -/
def unscheduled (id : ProcessId) : Diagnostic where
  severity := .warning
  subject := some id
  message := "process '" ++ id ++ "' does not reach any graph output and was not scheduled"
  code := some .unscheduled

/-- A schedule for a network, with the loops in its way and the processes it leaves out. -/
def schedule (net : Network) : Except Fault (Schedule × List Diagnostic) := do
  let plan ← net.expandAll net.startBound {} (← net.outputProcesses)
  let leftOut := net.ids.filter (· ∉ plan.visited)
  return ({ order := plan.order }, plan.findings ++ leftOut.map unscheduled)

end Network

end Dataflow
