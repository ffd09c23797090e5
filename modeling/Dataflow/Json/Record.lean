import Dataflow.Json.Value

/-! Reading typed values out of JSON without any coercion. -/

namespace Dataflow.Json

variable {α : Type}

def text? : Json → Option String
  | .string text => text
  | _ => none

def flag? : Json → Option Bool
  | .bool value => some value
  | _ => none

/-- The natural number below `2 ^ 64` that a value is. -/
def word? : Json → Option UInt64
  | .number literal => do
    let value ← literal.toNat?
    if value < UInt64.size then some (UInt64.ofNat value) else none
  | _ => none

/-- The list a value is, if all its items can be read. -/
def list? (read : Json → Option α) : Json → Option (List α)
  | .array items => items.mapM read
  | _ => none

/-- What a value is, where `null` stands for nothing. -/
def nullable? (read : Json → Option α) : Json → Option (Option α)
  | .null => some none
  | json => (read json).map some

/-- The known fields of a record that are present, each of them once. -/
abbrev Record := List (String × Json)

/-- The known members of an object; every key has to be whole, and a known one may not repeat. -/
def known? (names : List String) (members : List (Text × Json)) : Option Record := do
  let members ← members.mapM fun (key, value) => key.map (·, value)
  let known := members.filter fun (key, _) => key ∈ names
  if (known.map (·.1)).Nodup then some known else none

/-- The fields of a record, which is an object with these keys or a list with these positions. -/
def record? (names : List String) : Json → Option Record
  | .object members => known? names members
  | .array items => if items.length ≤ names.length then some (names.zip items) else none
  | _ => none

namespace Record

def required (record : Record) (name : String) (read : Json → Option α) : Option α :=
  (record.lookup name).bind read

def optional (record : Record) (name : String) (default : α) (read : Json → Option α) : Option α :=
  match record.lookup name with
  | some json => read json
  | none => some default

end Record

end Dataflow.Json
