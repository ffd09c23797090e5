import Dataflow.Compilation.Pass
import Dataflow.Compilation.Provenance
import Dataflow.Description.Build
import Dataflow.Schedule.Search
import Dataflow.Transform.Contract
import Dataflow.Transform.DataParallel
import Dataflow.Transform.Inline
import Dataflow.Transform.Merge

/-! Compilations: a network on its way through the passes. -/

namespace Dataflow

/-- A network with its source and with what the passes have found out about it. -/
structure Compilation where
  source : String
  network : Network
  /-- How often each pass was applied, in the order of execution. -/
  applied : List (Pass × Nat) := []
  schedule : Option Schedule := none
  diagnostics : List Diagnostic := []
  hasError : Bool := false
  provenance : Option Provenance := none

/-- What a pass does to the network, if it does anything. -/
def Pass.transformation? : Pass → Option (Edit Report)
  | .flatten => some Edit.flatten
  | .removeRedundant => some Edit.removeRedundant
  | .combToMap => some Edit.combToMap
  | .coalesceDataParallel => some Edit.coalesceDataParallel
  | .splitSegments => some Edit.splitSegments
  | .fuseSections => some Edit.fuseSections
  | .mergeParallelMaps => some Edit.mergeParallelMaps
  | .validate | .schedule => none

namespace Compilation

/-- The compilation of a text, or everything that is wrong with the text. -/
def load (source : String) : Except (List Diagnostic) Compilation := do
  return { source, network := ← Network.load source }

/-- How often a pass was applied when it first ran. -/
def appliedBy (state : Compilation) (pass : Pass) : Option Nat :=
  (state.applied.find? fun (other, _) => other = pass).map (·.2)

/-- The finding that a pass stopped at a fault. -/
def internalError (pass : Pass) (fault : Fault) : Diagnostic where
  severity := .error
  message := "internal error in pass '" ++ pass.name ++ "': " ++ fault.message
  code := some .internal
  hint := some "this indicates a defect in the middle-end, not in the input network"

/-- The finding that a schedule does not meet its obligations. -/
def badSchedule (certificate : Certificate) : Diagnostic where
  severity := .error
  message := "schedule verification failed: " ++ ", ".intercalate certificate.failed
  code := some .badSchedule

/-- Transforms the network; a fault is a finding, and what was done before it stays. -/
def transform (state : Compilation) (pass : Pass) (edit : Edit Report) :
    Compilation × List Diagnostic :=
  match edit.run state.network with
  | .ok report network =>
    ({ state with network, applied := state.applied ++ [(pass, report.applied)] }, report.notes)
  | .error fault network => ({ state with network }, [internalError pass fault])

def findSchedule (state : Compilation) : Compilation × List Diagnostic :=
  match state.network.schedule with
  | .ok (schedule, findings) =>
    let certificate := schedule.verify state.network
    let failure := if certificate.allPass then [] else [badSchedule certificate]
    ({ state with schedule := some schedule }, findings ++ failure)
  | .error fault => (state, [internalError .schedule fault])

/-- Performs one pass, with its findings. -/
def perform (state : Compilation) (pass : Pass) : Compilation × List Diagnostic :=
  match pass.transformation? with
  | some edit => state.transform pass edit
  | none =>
    if pass = .schedule then state.findSchedule else (state, state.network.validate)

/-- Keeps findings; an error among them marks the compilation as failed. -/
def record (state : Compilation) (findings : List Diagnostic) : Compilation :=
  { state with
    diagnostics := state.diagnostics ++ findings
    hasError := state.hasError || hasErrors findings }

end Compilation

/-- What one step of a run has found. -/
structure RunStep where
  /-- The pass the findings belong to. -/
  pass : Pass
  /-- The findings. -/
  findings : List Diagnostic
  /-- Whether the pass itself was performed, rather than its result examined afterwards. -/
  performed : Bool := true

/-- A sequence of passes over a compilation. -/
structure Run where
  /-- The compilation after the steps. -/
  state : Compilation
  /-- The steps so far. -/
  steps : List RunStep := []
  /-- The pass that failed; none is performed behind it. -/
  failing : Option Pass := none

namespace Run

/-- Adds a step with its findings; an error among them ends the run. -/
def finish (run : Run) (step : RunStep) : Run where
  state := run.state.record step.findings
  steps := run.steps ++ [step]
  failing := if hasErrors step.findings then some step.pass else none

/-- Performs one more pass, if none has failed yet. -/
def advance (run : Run) (pass : Pass) : Run :=
  if run.failing.isSome then run
  else
    let (state, findings) := run.state.perform pass
    { run with state }.finish { pass, findings }

/-- Records where the network comes from, if no pass has failed. -/
def conclude (run : Run) (terminal : Pass) : Run :=
  if run.failing.isSome then run
  else
    match Provenance.ofNetwork run.state.source run.state.network with
    | .ok provenance => { run with state := { run.state with provenance := some provenance } }
    | .error fault =>
      run.finish
        { pass := terminal, findings := [Compilation.internalError terminal fault],
          performed := false }

end Run

/-- Performs the passes that lead to a pass. -/
def Compilation.run (state : Compilation) (options : Options) (terminal : Pass) : Run :=
  ((terminal.required options).foldl Run.advance { state }).conclude terminal

end Dataflow
