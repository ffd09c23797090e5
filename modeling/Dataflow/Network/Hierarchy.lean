import Dataflow.Name

/-! The place of a process in the nesting of composites. -/

namespace Dataflow

/-- The composites around a process, outermost first; a process at top level has none. -/
structure Hierarchy where
  path : List ProcessId := []
deriving DecidableEq, Inhabited

namespace Hierarchy

/-- The number of composites around the process. -/
def depth (hierarchy : Hierarchy) : Nat :=
  hierarchy.path.length

/-- The innermost composite around the process. -/
def parent? (hierarchy : Hierarchy) : Option ProcessId :=
  hierarchy.path.getLast?

/-- The place of a process directly inside `parent`, which itself is at the given place. -/
def child (hierarchy : Hierarchy) (parent : ProcessId) : Hierarchy :=
  ⟨hierarchy.path ++ [parent]⟩

/-- Whether a place is directly inside `parent`. -/
def isChildOf (hierarchy : Hierarchy) (parent : ProcessId) : Bool :=
  hierarchy.parent? = some parent

/-- Whether two places have the same composites around them. -/
def isSiblingOf (hierarchy other : Hierarchy) : Bool :=
  hierarchy = other

/-- Whether the process `id` at the given place is the composite directly around the place `inner`.
-/
def isParentOf (hierarchy : Hierarchy) (id : ProcessId) (inner : Hierarchy) : Bool :=
  -- The inner path is the outer one with one more name, which has to be `id`.
  inner.depth = hierarchy.depth + 1 && inner.path.take hierarchy.depth = hierarchy.path &&
    inner.parent? = some id

/-- The place that remains when a composite is dissolved. -/
def without (hierarchy : Hierarchy) (composite : ProcessId) : Hierarchy :=
  ⟨hierarchy.path.filter (· ≠ composite)⟩

end Hierarchy

end Dataflow
