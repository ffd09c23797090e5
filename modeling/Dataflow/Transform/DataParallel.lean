import Dataflow.Region.Branch
import Dataflow.Transform.Report
import Dataflow.Transform.Splice

/-! Transformations of sections whose branches all do the same. -/

namespace Dataflow.Network

/-- The note that a section was passed over. -/
def notDataParallel (region : Section) : Diagnostic where
  severity := .note
  subject := some region.stop
  message := "section " ++ region.text ++ " is not data-parallel"
  code := some .notDataParallel
  related := [(region.start, "section starts here")]

/-- The data-parallel sections with the length of their branches, and a note on each of the others.
-/
def dataParallelSections (net : Network) :
    Except Fault (List (Section × Nat) × List Diagnostic) := do
  let measured ←
    (← net.sections).mapM fun region => return (region, ← net.dataParallelLength? region)
  let uniform := measured.filterMap fun (region, length) => length.map (region, ·)
  let others := measured.filter fun (_, length) => length.isNone
  return (uniform, others.map fun (region, _) => notDataParallel region)

/-- The array type with one element for each branch, if the type of the elements is known. -/
def arrayOf (element : Option DataType) (branches : Nat) : Option DataType :=
  element.map fun type => .array type.name (UInt64.ofNat branches)

end Dataflow.Network

namespace Dataflow.Edit

/-- Replaces a chain of maps by one process that applies their functions in order. -/
def coalesceChain (chain : List ProcessId) : Edit Unit := do
  match chain.head?, chain.getLast? with
  | some first, some last =>
    let functions ← (← get).chainFunctions chain
    replaceRegion first last "_coalesced" (.coalescedMap functions)
  | _, _ => return

/-- Replaces every chain of more than one process in a data-parallel section by one process. -/
def coalesceDataParallel : Edit Report := do
  (← get).ensureFlat
  let (regions, notes) ← (← get).dataParallelSections
  regions.foldlM (fun report (region, length) => do
    if length ≤ 1 then return report
    (← (← get).branchChains region).forM coalesceChain
    return report.count) { notes }

/-- Leads the connection behind a process through index `branch` of a zip and an unzip. -/
def threadBranch (zip unzip : ProcessId) (id : ProcessId) (branch : Nat) : Edit Unit := do
  let source ← (← get).portAt id .output 0
  match ← disconnect source with
  | none => throw (.unknownPort source)
  | some target =>
    let sourceType := (← (← get).port source).dataType
    let targetType := (← (← get).port target).dataType
    let entry ← addPort zip ("in" ++ toString branch) .input sourceType
    let exit ← addPort unzip ("out" ++ toString branch) .output targetType
    connect source entry
    connect exit target

/-- Puts a zip and an unzip behind all branches at one position. -/
def cutAt (hierarchy : Hierarchy) (branches : Nat) (column : List ProcessId) : Edit Unit := do
  match column with
  | [] => return
  | sample :: _ =>
    -- The array between the two has the type of the first branch.
    let port ← (← get).port (← (← get).portAt sample .output 0)
    let type := Network.arrayOf port.dataType branches
    let zip ← addFresh "_zip" .zip hierarchy
    let unzip ← addFresh "_unzip" .unzip hierarchy
    let exit ← addPort zip "out" .output type
    let entry ← addPort unzip "in" .input type
    connect exit entry
    column.zipIdx.forM fun (id, branch) => threadBranch zip unzip id branch

/-- Cuts the branches of a section into segments of one process each. -/
def splitSection (region : Section) (length : Nat) : Edit Unit := do
  let chains ← (← get).branchChains region
  let hierarchy := (← (← get).process region.start).hierarchy
  (List.range (length - 1)).forM fun position =>
    cutAt hierarchy chains.length (chains.filterMap (·[position]?))

/-- Cuts every data-parallel section with branches of more than one process into segments. -/
def splitSegments : Edit Report := do
  (← get).ensureFlat
  let (regions, notes) ← (← get).dataParallelSections
  regions.foldlM (fun report (region, length) => do
    if length ≤ 1 then return report
    splitSection region length
    return report.count) { notes }

/-- Replaces a section with one process on each branch by one that works elementwise. -/
def fuseSection (region : Section) : Edit Unit := do
  let chains ← (← get).branchChains region
  let functions ← (← get).chainFunctions (chains.head?.bind (·.head?)).toList
  replaceRegion region.start region.stop "_parallel"
    (.parallelMap (UInt64.ofNat chains.length) functions)

/-- Replaces every data-parallel section by one process; its branches must have one process each. -/
def fuseSections : Edit Report := do
  (← get).ensureFlat
  let (regions, notes) ← (← get).dataParallelSections
  regions.foldlM (fun report (region, length) => do
    if length ≠ 1 then throw (.chainLength region.start region.stop length)
    fuseSection region
    return report.count) { notes }

end Dataflow.Edit
