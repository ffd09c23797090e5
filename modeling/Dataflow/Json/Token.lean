import Dataflow.Json.Value

/-! The tokens of JSON text and how they are read off its front. -/

namespace Dataflow.Json

/-- A token of JSON text. -/
inductive Token where
  | openArray
  | closeArray
  | openObject
  | closeObject
  | comma
  | colon
  | string (text : Text)
  /-- A value that is neither a string nor a container. -/
  | scalar (value : Json)

/-- The characters that may stand between tokens. -/
def isBlank (c : Char) : Bool :=
  c = ' ' || c = '\t' || c = '\n' || c = '\r'

/-- A piece of a string: a character, or a 16-bit unit given by its code. -/
inductive Piece where
  | char (c : Char)
  | unit (code : Nat)

/-- The value of a hexadecimal digit in either case. -/
def hexValue? (c : Char) : Option Nat :=
  if '0' ≤ c ∧ c ≤ '9' then some (c.toNat - '0'.toNat)
  else if 'a' ≤ c ∧ c ≤ 'f' then some (c.toNat - 'a'.toNat + 10)
  else if 'A' ≤ c ∧ c ≤ 'F' then some (c.toNat - 'A'.toNat + 10)
  else none

/-- The value of four hexadecimal digits. -/
def hexUnit? (a b c d : Char) : Option Nat := do
  return ((← hexValue? a) * 16 + (← hexValue? b)) * 256 + (← hexValue? c) * 16 + (← hexValue? d)

/-- The character a backslash and a letter stand for. -/
def simpleEscape? : Char → Option Char
  | '"' => some '"'
  | '\\' => some '\\'
  | '/' => some '/'
  | 'b' => some '\x08'
  | 'f' => some '\x0c'
  | 'n' => some '\n'
  | 'r' => some '\r'
  | 't' => some '\t'
  | _ => none

/-- The pieces of a string up to its closing quote, and the text behind that. -/
def scanPieces : List Char → Option (List Piece × List Char)
  | '"' :: rest => some ([], rest)
  | '\\' :: 'u' :: a :: b :: c :: d :: rest => do
    let code ← hexUnit? a b c d
    let (pieces, rest) ← scanPieces rest
    return (.unit code :: pieces, rest)
  | '\\' :: letter :: rest => do
    let c ← simpleEscape? letter
    let (pieces, rest) ← scanPieces rest
    return (.char c :: pieces, rest)
  | c :: rest =>
    -- A control character has to be escaped, and so does the backslash itself.
    if c.toNat < 0x20 ∨ c = '\\' then none
    else do
      let (pieces, rest) ← scanPieces rest
      return (.char c :: pieces, rest)
  | [] => none

/-- Whether a unit is the first half of a surrogate pair. -/
def isHighSurrogate (code : Nat) : Bool :=
  0xD800 ≤ code && code < 0xDC00

/-- Whether a unit is the second half of a surrogate pair. -/
def isLowSurrogate (code : Nat) : Bool :=
  0xDC00 ≤ code && code < 0xE000

/-- The characters that pieces stand for, unless half of a surrogate pair stands alone. -/
def joinPieces : List Piece → Option (List Char)
  | [] => some []
  | .char c :: pieces => (joinPieces pieces).map (c :: ·)
  | .unit high :: .unit low :: pieces =>
    if isHighSurrogate high && isLowSurrogate low then
      let code := 0x10000 + (high - 0xD800) * 0x400 + (low - 0xDC00)
      (joinPieces pieces).map (Char.ofNat code :: ·)
    else if isHighSurrogate high || isLowSurrogate high then none
    else (joinPieces (.unit low :: pieces)).map (Char.ofNat high :: ·)
  | .unit code :: pieces =>
    if isHighSurrogate code || isLowSurrogate code then none
    else (joinPieces pieces).map (Char.ofNat code :: ·)

/-- The string behind an opening quote, and the text behind its closing quote. -/
def scanText (text : List Char) : Option (Text × List Char) := do
  let (pieces, rest) ← scanPieces text
  return ((joinPieces pieces).map String.ofList, rest)

def digitsValue (digits : List Char) : Nat :=
  digits.foldl (fun value digit => value * 10 + Number.digitValue digit) 0

/-- Reads a run of digits, of which there has to be one. -/
def scanDigits (text : List Char) : Option (List Char × List Char) :=
  match text.takeWhile Char.isDigit with
  | [] => none
  | digits => some (digits, text.dropWhile Char.isDigit)

def scanMinus : List Char → Bool × List Char
  | '-' :: rest => (true, rest)
  | rest => (false, rest)

def scanSign : List Char → Bool × List Char
  | '+' :: rest => (false, rest)
  | rest => scanMinus rest

/-- Reads the part of a number before the point, in which nothing follows a leading zero. -/
def scanWhole : List Char → Option (Nat × List Char)
  | '0' :: rest => some (0, rest)
  | text => (scanDigits text).map fun (digits, rest) => (digitsValue digits, rest)

/-- Reads the digits behind a point, if there is one. -/
def scanFraction : List Char → Option (List Char × List Char)
  | '.' :: rest => scanDigits rest
  | rest => some ([], rest)

/-- Reads the sign and the digits of a power of ten. -/
def scanPower (text : List Char) : Option (Int × List Char) := do
  let (negative, text) := scanSign text
  let (digits, rest) ← scanDigits text
  let power : Int := digitsValue digits
  return (if negative then -power else power, rest)

/-- Reads a power of ten, if there is one. -/
def scanExponent : List Char → Option (Option Int × List Char)
  | 'e' :: rest | 'E' :: rest => (scanPower rest).map fun (power, rest) => (some power, rest)
  | rest => some (none, rest)

def scanNumber (text : List Char) : Option (Number × List Char) := do
  let (negative, text) := scanMinus text
  let (whole, text) ← scanWhole text
  let (fraction, text) ← scanFraction text
  let (exponent, text) ← scanExponent text
  return ({ negative, whole, fraction, exponent }, text)

/-- Reads the token that starts with the given character. -/
def scanToken (c : Char) (rest : List Char) : Option (Token × List Char) :=
  match c, rest with
  | '[', rest => some (.openArray, rest)
  | ']', rest => some (.closeArray, rest)
  | '\x7b', rest => some (.openObject, rest)
  | '\x7d', rest => some (.closeObject, rest)
  | ',', rest => some (.comma, rest)
  | ':', rest => some (.colon, rest)
  | '"', rest => (scanText rest).map fun (text, rest) => (.string text, rest)
  | 'n', 'u' :: 'l' :: 'l' :: rest => some (.scalar .null, rest)
  | 't', 'r' :: 'u' :: 'e' :: rest => some (.scalar (.bool true), rest)
  | 'f', 'a' :: 'l' :: 's' :: 'e' :: rest => some (.scalar (.bool false), rest)
  | c, rest => (scanNumber (c :: rest)).map fun (value, rest) => (.scalar (.number value), rest)

end Dataflow.Json
