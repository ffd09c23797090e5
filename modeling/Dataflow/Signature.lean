/-! Data types and the typed functions that processes apply. -/

namespace Dataflow

/-- The type of a value that travels through a port or a function. -/
structure DataType where
  /-- The name of the element type. -/
  name : String
  /-- Whether the value is an array of elements. -/
  isArray : Bool := false
  /-- The declared number of elements, meaningful only for arrays. -/
  arraySize : Option UInt64 := none
deriving DecidableEq, Inhabited

/-- An array of the named element type with a declared size. -/
def DataType.array (name : String) (size : UInt64) : DataType where
  name := name
  isArray := true
  arraySize := some size

/-- The written form of a type, in which only arrays show a size. -/
def DataType.text (type : DataType) : String :=
  -- A size declared on a scalar stays silent, and an array without one shows empty brackets.
  match type.isArray, type.arraySize with
  | false, _ => type.name
  | true, some size => type.name ++ "[" ++ toString size.toNat ++ "]"
  | true, none => type.name ++ "[]"

/-- A named and typed parameter of a function. -/
structure Parameter where
  /-- The name the body refers to. -/
  name : String
  /-- The type of the argument. -/
  dataType : DataType
  /-- Whether the body may not change the argument. -/
  isConst : Bool := false
deriving DecidableEq, Inhabited

def Parameter.text (parameter : Parameter) : String :=
  (if parameter.isConst then "const " else "") ++ parameter.name ++ ": " ++ parameter.dataType.text

/-- A function a process applies: a signature and a body whose text is never interpreted. -/
structure Func where
  name : String
  params : List Parameter
  returnType : DataType
  body : String
deriving DecidableEq, Inhabited

namespace Func

/-- The type a function consumes, which is that of its first parameter. -/
def inputType? (function : Func) : Option DataType :=
  function.params.head?.map (·.dataType)

def outputType (function : Func) : DataType :=
  function.returnType

/-- Whether the result of one function is what the next one consumes. -/
def feeds (first second : Func) : Bool :=
  second.inputType? = some first.outputType

def text (function : Func) : String :=
  function.name ++ "(" ++ ", ".intercalate (function.params.map Parameter.text) ++ ") -> " ++
    function.returnType.text

end Func

end Dataflow
