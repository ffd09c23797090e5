/-! JSON values as they are written, with everything in them that a stricter reader may object to.
-/

namespace Dataflow.Json

/-- A number as it is written. -/
structure Number where
  negative : Bool := false
  whole : Nat
  /-- The digits behind the point, empty if there is no point. -/
  fraction : List Char := []
  exponent : Option Int := none
deriving DecidableEq

/-- A string as it is written, or nothing if an escape in it is half of a surrogate pair. -/
abbrev Text := Option String

end Dataflow.Json

namespace Dataflow

/-- A JSON value, with the members of objects in order and none of them dropped. -/
inductive Json where
  | null
  | bool (value : Bool)
  | number (value : Json.Number)
  | string (text : Json.Text)
  | array (items : List Json)
  /-- A list of values under keys, which may repeat. -/
  | object (members : List (Json.Text × Json))

namespace Json

def ofNat (value : Nat) : Json :=
  .number { whole := value }

def ofString (text : String) : Json :=
  .string (some text)

def ofStrings (texts : List String) : Json :=
  .array (texts.map ofString)

namespace Number

/-- The number as a natural one, if it is written with digits only. -/
def toNat? (number : Number) : Option Nat :=
  if !number.negative && number.fraction.isEmpty && number.exponent.isNone then some number.whole
  else none

def digitValue (digit : Char) : Nat :=
  digit.toNat - '0'.toNat

/-- Takes digits into a number as long as it fits 64 bits, and gives the digits that are left. -/
def absorb : Nat → List Char → Nat × List Char
  | value, [] => (value, [])
  | value, digit :: digits =>
    let longer := value * 10 + digitValue digit
    if longer < UInt64.size then absorb longer digits else (value, digit :: digits)

/-- The nearest number with at most 53 significant bits, where a tie goes to the even one. -/
def roundToDouble (value : Nat) : Nat :=
  let excess := value.log2 + 1 - 53
  let unit := 1 <<< excess
  let quotient := value / unit
  let remainder := value % unit
  if excess = 0 then value
  else if 2 * remainder < unit ∨ (2 * remainder = unit ∧ quotient % 2 = 0) then quotient * unit
  else (quotient + 1) * unit

/--
Whether the number is finite when it is read as a double.

The leading digits that fit 64 bits are rounded to a double and multiplied by the power of ten,
which is rounded too.
-/
def isFinite (number : Number) : Bool :=
  let digits := Nat.toDigits 10 number.whole
  -- Digits of the whole part that do not fit raise the exponent, digits behind the point lower it.
  let (significand, dropped) := absorb 0 digits
  let (significand, ignored) := absorb significand number.fraction
  let exponent : Int :=
    dropped.length - (number.fraction.length - ignored.length : Nat) + number.exponent.getD 0
  if significand = 0 ∨ exponent < 0 then true
  else if 308 < exponent then false
  else
    -- The product overflows from half a step above the greatest double on.
    roundToDouble significand * roundToDouble (Nat.pow 10 exponent.toNat) <
      (1 <<< 1024) - (1 <<< 970)

end Number

mutual

/-- Whether all strings and keys are whole, all numbers finite, and at most `depth` containers
nested. -/
def isStrict (depth : Nat) : Json → Bool
  | .null | .bool _ => true
  | .number value => value.isFinite
  | .string text => text.isSome
  | .array items => 0 < depth && allStrict (depth - 1) items
  | .object members => 0 < depth && membersStrict (depth - 1) members

def allStrict (depth : Nat) : List Json → Bool
  | [] => true
  | item :: items => item.isStrict depth && allStrict depth items

def membersStrict (depth : Nat) : List (Text × Json) → Bool
  | [] => true
  | (key, value) :: members => key.isSome && value.isStrict depth && membersStrict depth members

end

end Json

end Dataflow
