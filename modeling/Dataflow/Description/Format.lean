import Dataflow.Description.Basic
import Dataflow.Json.Printer
import Dataflow.Json.Reader
import Dataflow.Json.Record

/-!
The JSON form of descriptions.

A record is an object whose unknown keys are ignored, or the list of its fields in order. What is
left out on writing is what reading fills in by itself.
-/

namespace Dataflow

open Json (ofString ofStrings ofNat text? flag? word? list? nullable? known? record?)

def Json.ofMembers (members : List (String × Json)) : Json :=
  .object (members.map fun (key, value) => (some key, value))

/-- A member that is written only if there is a value. -/
def Json.memberIfSome {α : Type} (key : String) (write : α → Json) (value : Option α) :
    List (String × Json) :=
  value.toList.map fun value => (key, write value)

/-- A list that is written only if it has items. -/
def Json.memberIfAny {α : Type} (key : String) (write : α → Json) (values : List α) :
    List (String × Json) :=
  if values.isEmpty then [] else [(key, .array (values.map write))]

namespace DataType

def fieldNames : List String :=
  ["name", "is_array", "array_size"]

def toJson (type : DataType) : Json :=
  .ofMembers <|
    [("name", ofString type.name), ("is_array", .bool type.isArray)] ++
      Json.memberIfSome "array_size" (fun size : UInt64 => ofNat size.toNat) type.arraySize

def ofJson? (json : Json) : Option DataType := do
  let record ← record? fieldNames json
  return {
    name := ← record.required "name" text?
    isArray := ← record.optional "is_array" false flag?
    arraySize := ← record.optional "array_size" none (nullable? word?) }

end DataType

namespace Parameter

def fieldNames : List String :=
  ["name", "data_type", "is_const"]

def toJson (parameter : Parameter) : Json :=
  .ofMembers
    [("name", ofString parameter.name), ("data_type", parameter.dataType.toJson),
      ("is_const", .bool parameter.isConst)]

def ofJson? (json : Json) : Option Parameter := do
  let record ← record? fieldNames json
  return {
    name := ← record.required "name" text?
    dataType := ← record.required "data_type" DataType.ofJson?
    isConst := ← record.optional "is_const" false flag? }

end Parameter

namespace Func

def fieldNames : List String :=
  ["name", "params", "return_type", "body"]

def toJson (function : Func) : Json :=
  .ofMembers
    [("name", ofString function.name), ("params", .array (function.params.map Parameter.toJson)),
      ("return_type", function.returnType.toJson), ("body", ofString function.body)]

def ofJson? (json : Json) : Option Func := do
  let record ← record? fieldNames json
  return {
    name := ← record.required "name" text?
    params := ← record.required "params" (list? Parameter.ofJson?)
    returnType := ← record.required "return_type" DataType.ofJson?
    body := ← record.required "body" text? }

end Func

namespace PortDecl

def fieldNames : List String :=
  ["name", "type"]

def toJson (port : PortDecl) : Json :=
  .ofMembers <|
    ("name", ofString port.name) :: Json.memberIfSome "type" DataType.toJson port.dataType

def ofJson? (json : Json) : Option PortDecl := do
  let record ← record? fieldNames json
  return {
    name := ← record.required "name" text?
    dataType := ← record.optional "type" none (nullable? DataType.ofJson?) }

end PortDecl

namespace Kind

/-- The tags of all kinds; a kind may also be given by its position here. -/
def tags : List String :=
  ["map", "coalesced_map", "parallel_map", "comb", "unzip", "zip", "delay", "fanout", "inport",
    "outport", "composite"]

/-- The tag that JSON names, by its text or by its position. -/
def tag? : Json → Option String
  | .string text => text
  | json => do tags[(← word? json).toNat]?

/-- The payload of a kind as members of its process. -/
def payload : Kind Helpers → List (String × Json)
  | .map function | .comb function => [("function", function.toJson)]
  | .coalescedMap functions => [("functions", .array (functions.map Func.toJson))]
  | .parallelMap branches functions =>
    [("branches", ofNat branches.toNat), ("functions", .array (functions.map Func.toJson))]
  | .delay initial => [("initial", ofString initial)]
  | .composite helpers =>
    [("inputs", ofStrings helpers.inputs), ("outputs", ofStrings helpers.outputs)]
  | _ => []

def toMembers (kind : Kind Helpers) : List (String × Json) :=
  ("kind", ofString kind.tag) :: kind.payload

/-- The kind that members of a process describe; only the payload of that kind is looked at. -/
def ofMembers? (members : List (Json.Text × Json)) : Option (Kind Helpers) := do
  let tag ← (← known? ["kind"] members).required "kind" tag?
  match tag with
  | "map" => return .map (← (← known? ["function"] members).required "function" Func.ofJson?)
  | "coalesced_map" =>
    return .coalescedMap
      (← (← known? ["functions"] members).required "functions" (list? Func.ofJson?))
  | "parallel_map" =>
    let record ← known? ["branches", "functions"] members
    return .parallelMap (← record.required "branches" word?)
      (← record.required "functions" (list? Func.ofJson?))
  | "comb" => return .comb (← (← known? ["function"] members).required "function" Func.ofJson?)
  | "unzip" => return .unzip
  | "zip" => return .zip
  | "delay" => return .delay (← (← known? ["initial"] members).optional "initial" "" text?)
  | "fanout" => return .fanout
  | "inport" => return .inport
  | "outport" => return .outport
  | "composite" =>
    let record ← known? ["inputs", "outputs"] members
    return .composite {
      inputs := ← record.optional "inputs" [] (list? text?)
      outputs := ← record.optional "outputs" [] (list? text?) }
  | _ => none

end Kind

namespace ProcessDecl

/-- The fields that every process has, whatever its kind. -/
def fieldNames : List String :=
  ["id", "parent", "in", "out"]

/-- The nesting allowed in a field of a process, which itself is three levels deep. -/
def fieldDepth : Nat :=
  124

def toJson (process : ProcessDecl) : Json :=
  .ofMembers <|
    [("id", ofString process.id)] ++ Json.memberIfSome "parent" ofString process.parent ++
      process.kind.toMembers ++
      Json.memberIfAny "in" PortDecl.toJson process.inPorts ++
      Json.memberIfAny "out" PortDecl.toJson process.outPorts

/-- The process that JSON describes, which has to be an object; all but its common fields is read
strictly. -/
def ofJson? : Json → Option ProcessDecl
  | .object members => do
    let record ← known? fieldNames members
    let others := members.filter fun (key, _) => !fieldNames.any (some · = key)
    if others.all fun (_, value) => value.isStrict fieldDepth then
      return {
        id := ← record.required "id" text?
        parent := ← record.optional "parent" none (nullable? text?)
        kind := ← Kind.ofMembers? others
        inPorts := ← record.optional "in" [] (list? PortDecl.ofJson?)
        outPorts := ← record.optional "out" [] (list? PortDecl.ofJson?) }
    else none
  | _ => none

end ProcessDecl

namespace Connection

def fieldNames : List String :=
  ["from", "to"]

def toJson (connection : Connection) : Json :=
  .ofMembers [("from", ofString connection.source), ("to", ofString connection.target)]

/-- The connection that JSON describes. -/
def ofJson? (json : Json) : Option Connection := do
  let record ← record? fieldNames json
  return { source := ← record.required "from" text?, target := ← record.required "to" text? }

end Connection

namespace Description

def fieldNames : List String :=
  ["processes", "connections", "inputs", "outputs"]

def toJson (description : Description) : Json :=
  .ofMembers
    [("processes", .array (description.processes.map ProcessDecl.toJson)),
      ("connections", .array (description.connections.map Connection.toJson)),
      ("inputs", ofStrings description.inputs), ("outputs", ofStrings description.outputs)]

def ofJson? (json : Json) : Option Description := do
  let record ← record? fieldNames json
  return {
    processes := ← record.optional "processes" [] (list? ProcessDecl.ofJson?)
    connections := ← record.optional "connections" [] (list? Connection.ofJson?)
    inputs := ← record.optional "inputs" [] (list? text?)
    outputs := ← record.optional "outputs" [] (list? text?) }

def parse? (text : String) : Option Description :=
  (Json.parse? text).bind ofJson?

def compact (description : Description) : String :=
  description.toJson.compact

/-- A description with one item to a line. -/
def pretty (description : Description) : String :=
  description.toJson.pretty

end Description

end Dataflow
