import Dataflow.Network.Kind

/-! The form in which networks are exchanged: everything refers to everything else by name. -/

namespace Dataflow

/-- A port as it is declared with its process. -/
structure PortDecl where
  /-- The name of the port. -/
  name : String
  /-- The type of the values that pass, if declared. -/
  dataType : Option DataType := none
deriving DecidableEq

/-- A process as it is declared. -/
structure ProcessDecl where
  id : ProcessId
  parent : Option ProcessId := none
  /-- What the process does; children of a composite are known from their own declarations. -/
  kind : Kind Helpers
  inPorts : List PortDecl := []
  outPorts : List PortDecl := []
deriving DecidableEq

/-- A connection between two ports, each written as the name of its process, a dot, and its own
name. -/
structure Connection where
  source : String
  target : String
deriving DecidableEq

/-- A network in exchange form. -/
structure Description where
  processes : List ProcessDecl := []
  connections : List Connection := []
  inputs : List String := []
  outputs : List String := []
deriving DecidableEq

end Dataflow
