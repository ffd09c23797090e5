import Dataflow.Network.Basic

/-! Schedules: orders in which the processes of a network run in one tick. -/

namespace Dataflow

/-- An order in which processes run, one after the other. -/
structure Schedule where
  /-- The processes in the order of their execution. -/
  order : List ProcessId := []
deriving DecidableEq

namespace Schedule

def position? (schedule : Schedule) (id : ProcessId) : Option Nat :=
  schedule.order.idxOf? id

/-- The written form of a schedule, one process to a line. -/
def text (schedule : Schedule) : String :=
  "Schedule (" ++ toString schedule.order.length ++ " processes)\n" ++
    String.join
      (schedule.order.zipIdx.map fun (id, index) => "  " ++ toString index ++ ": " ++ id ++ "\n")

end Schedule

/-- Which of its obligations a schedule meets. -/
structure Certificate where
  /-- Every scheduled process exists and is scheduled once. -/
  uniqueExisting : Bool
  /-- Every scheduled process except delays runs after all that feed it. -/
  dependenciesOrdered : Bool
deriving DecidableEq

namespace Certificate

def obligations (certificate : Certificate) : List (String × Bool) :=
  [("S1_unique_existing", certificate.uniqueExisting),
    ("S2_dependencies_ordered", certificate.dependenciesOrdered)]

def allPass (certificate : Certificate) : Bool :=
  certificate.uniqueExisting && certificate.dependenciesOrdered

/-- The names of the obligations that are not met. -/
def failed (certificate : Certificate) : List String :=
  (certificate.obligations.filter fun (_, met) => !met).map (·.1)

end Certificate

namespace Schedule

/-- Whether all that feeds the process at a position runs before it; delays pass on the value of the
tick before. -/
def isOrderedAt (schedule : Schedule) (net : Network) (id : ProcessId) (index : Nat) : Bool :=
  match net.process? id, net.predecessors id with
  | some process, predecessors =>
    process.kind.isDelay ||
      match predecessors with
      | .ok ids => ids.all fun source =>
        source ∈ schedule.order.take index && source ∉ schedule.order.drop index
      | .error _ => false
  | none, _ => false

/-- Checks a schedule against the network it is meant for. -/
def verify (schedule : Schedule) (net : Network) : Certificate where
  uniqueExisting := schedule.order.all net.contains && schedule.order.Nodup
  dependenciesOrdered :=
    schedule.order.zipIdx.all fun (id, index) => schedule.isOrderedAt net id index

end Schedule

end Dataflow
