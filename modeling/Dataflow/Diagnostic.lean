import Dataflow.Name

/-! Findings about a network, anchored at processes. -/

namespace Dataflow

/-- What a finding is about; every code keeps its meaning for good. -/
inductive Code where
  /-- A description is malformed. -/
  | malformed
  /-- A description refers to a process or port that does not exist. -/
  | unknownReference
  /-- The ports or the payload of a process do not fit its kind. -/
  | arity
  /-- A composite stands in a network that must be flat. -/
  | notFlat
  /-- A boundary port is missing or connected inside the network. -/
  | boundary
  /-- A feedback loop has no delay. -/
  | undelayedLoop
  /-- A feedback loop has more than one delay. -/
  | multiDelayLoop
  /-- A schedule violates its obligations. -/
  | badSchedule
  /-- An edit failed that should not. -/
  | internal
  /-- A section is not data-parallel. -/
  | notDataParallel
  /-- A chain of parallel maps cannot be merged. -/
  | unmergeableChain
  /-- A process reaches no output of the graph. -/
  | unscheduled
deriving DecidableEq

namespace Code

/-- All codes, in the order of their labels. -/
def all : List Code :=
  [.malformed, .unknownReference, .arity, .notFlat, .boundary, .undelayedLoop, .multiDelayLoop,
    .badSchedule, .internal, .notDataParallel, .unmergeableChain, .unscheduled]

def label : Code → String
  | .malformed => "E0100"
  | .unknownReference => "E0101"
  | .arity => "E0200"
  | .notFlat => "E0201"
  | .boundary => "E0202"
  | .undelayedLoop => "E0400"
  | .multiDelayLoop => "E0401"
  | .badSchedule => "E0602"
  | .internal => "E0900"
  | .notDataParallel => "N0300"
  | .unmergeableChain => "N0301"
  | .unscheduled => "W0401"

def ofLabel? (label : String) : Option Code :=
  all.find? (·.label = label)

end Code

/-- How serious a finding is. -/
inductive Severity where
  /-- The network cannot be compiled. -/
  | error
  /-- The network can be compiled, but something is probably wrong. -/
  | warning
  /-- A candidate was passed over, as expected. -/
  | note
deriving DecidableEq

def Severity.label : Severity → String
  | .error => "error"
  | .warning => "warning"
  | .note => "note"

/-- A finding, with the process it is about and what else helps to understand it. -/
structure Diagnostic where
  severity : Severity
  subject : Option ProcessId := none
  message : String
  /-- What the finding is about, if it has a stable code. -/
  code : Option Code := none
  hint : Option String := none
  related : List (ProcessId × String) := []
deriving DecidableEq

namespace Diagnostic

def isError (diagnostic : Diagnostic) : Bool :=
  diagnostic.severity = .error

/-- The written form of a finding, with one more line for each related process and for the hint. -/
def text (diagnostic : Diagnostic) : String :=
  -- A code stands in brackets behind the severity, the subject behind the message.
  let code := diagnostic.code.elim "" fun code => "[" ++ code.label ++ "]"
  let subject := diagnostic.subject.elim "" fun id => " (at '" ++ id ++ "')"
  let related := String.join <|
    diagnostic.related.map fun (id, label) => "\n  related '" ++ id ++ "': " ++ label
  let hint := diagnostic.hint.elim "" fun hint => "\n  hint: " ++ hint
  diagnostic.severity.label ++ code ++ ": " ++ diagnostic.message ++ subject ++ related ++ hint

end Diagnostic

def hasErrors (diagnostics : List Diagnostic) : Bool :=
  diagnostics.any (·.isError)

end Dataflow
