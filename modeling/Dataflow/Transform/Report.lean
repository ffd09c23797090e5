import Dataflow.Diagnostic
import Dataflow.Network.Edit

/-! What a transformation of a network tells about itself. -/

namespace Dataflow

/-- How often a transformation was applied, and what it passed over. -/
structure Report where
  /-- The number of applications. -/
  applied : Nat := 0
  /-- Notes about candidates that were not transformed. -/
  notes : List Diagnostic := []

namespace Report

def count (report : Report) : Report :=
  { report with applied := report.applied + 1 }

def addNotes (report : Report) (notes : List Diagnostic) : Report :=
  { report with notes := report.notes ++ notes }

end Report

end Dataflow
