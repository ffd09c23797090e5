import Dataflow.Json.Value

/-! Writing JSON values, on one line or with one item to a line. -/

namespace Dataflow.Json

def hexDigit (value : Nat) : Char :=
  if value < 10 then Char.ofNat ('0'.toNat + value) else Char.ofNat ('a'.toNat + value - 10)

/-- A character inside a string, escaped if it has to be. -/
def escape (c : Char) : List Char :=
  match c with
  | '"' => ['\\', '"']
  | '\\' => ['\\', '\\']
  | '\x08' => ['\\', 'b']
  | '\x0c' => ['\\', 'f']
  | '\n' => ['\\', 'n']
  | '\r' => ['\\', 'r']
  | '\t' => ['\\', 't']
  | c =>
    -- Other control characters are written by their code, everything else stands for itself.
    if c.toNat < 0x20
    then ['\\', 'u', '0', '0', hexDigit (c.toNat / 16), hexDigit (c.toNat % 16)]
    else [c]

/-- A string between quotes; half a surrogate pair is written by its code. -/
def printText : Text → List Char
  | some text => '"' :: text.toList.flatMap escape ++ ['"']
  | none => ['"', '\\', 'u', 'd', '8', '0', '0', '"']

def printNumber (number : Number) : List Char :=
  let sign := if number.negative then ['-'] else []
  let fraction := if number.fraction.isEmpty then [] else '.' :: number.fraction
  let exponent := number.exponent.elim [] fun power => 'e' :: (toString power).toList
  sign ++ (toString number.whole).toList ++ fraction ++ exponent

/-- How values are laid out: on one line, or indented by two blanks for each level. -/
inductive Layout where
  /-- No blanks at all. -/
  | compact
  /-- Each item on its own line, at the given level. -/
  | indented (level : Nat)

namespace Layout

def inner : Layout → Layout
  | .compact => .compact
  | .indented level => .indented (level + 1)

/-- What stands in front of an item or a closing bracket. -/
def lineBreak : Layout → List Char
  | .compact => []
  | .indented level => '\n' :: List.replicate (2 * level) ' '

/-- What stands between a key and its value. -/
def colon : Layout → List Char
  | .compact => [':']
  | .indented _ => [':', ' ']

end Layout

mutual

def print (layout : Layout) : Json → List Char
  | .null => ['n', 'u', 'l', 'l']
  | .bool true => ['t', 'r', 'u', 'e']
  | .bool false => ['f', 'a', 'l', 's', 'e']
  | .number value => printNumber value
  | .string text => printText text
  | .array [] => ['[', ']']
  | .array (item :: items) =>
    '[' :: layout.inner.lineBreak ++ print layout.inner item ++ printItems layout.inner items ++
      layout.lineBreak ++ [']']
  | .object [] => ['\x7b', '\x7d']
  | .object ((key, value) :: members) =>
    '\x7b' :: layout.inner.lineBreak ++ printText key ++ layout.colon ++ print layout.inner value ++
      printMembers layout.inner members ++ layout.lineBreak ++ ['\x7d']

/-- The items behind the first one, each after a comma. -/
def printItems (layout : Layout) : List Json → List Char
  | [] => []
  | item :: items => ',' :: layout.lineBreak ++ print layout item ++ printItems layout items

/-- The members behind the first one, each after a comma. -/
def printMembers (layout : Layout) : List (Text × Json) → List Char
  | [] => []
  | (key, value) :: members =>
    ',' :: layout.lineBreak ++ printText key ++ layout.colon ++ print layout value ++
      printMembers layout members

end

def compact (json : Json) : String :=
  String.ofList (print .compact json)

def pretty (json : Json) : String :=
  String.ofList (print (.indented 0) json)

end Dataflow.Json
