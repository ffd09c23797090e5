import Dataflow.Json.Token

/-! Reading JSON text by a machine that keeps the open containers on a stack. -/

namespace Dataflow.Json

/-- A container that is still open, with what was read of it in reverse. -/
inductive Frame where
  /-- A list with the items before the one being read. -/
  | array (items : List Json)
  /-- An object with the members before the one being read, and its key. -/
  | object (members : List (Text × Json)) (key : Text)

/-- Where the machine stands between two tokens. -/
inductive Reading where
  /-- A value has to follow. -/
  | value (stack : List Frame)
  /-- The first item of a list or its end has to follow. -/
  | firstItem (stack : List Frame)
  /-- A comma or the end of the list has to follow. -/
  | afterItem (items : List Json) (stack : List Frame)
  /-- The first key of an object or its end has to follow. -/
  | firstKey (stack : List Frame)
  /-- A key has to follow. -/
  | nextKey (members : List (Text × Json)) (stack : List Frame)
  /-- The colon behind a key has to follow. -/
  | afterKey (members : List (Text × Json)) (key : Text) (stack : List Frame)
  /-- A comma or the end of the object has to follow. -/
  | afterMember (members : List (Text × Json)) (stack : List Frame)
  /-- Nothing may follow. -/
  | done (value : Json)

namespace Reading

/-- A complete value goes into the innermost open container. -/
def complete (value : Json) : List Frame → Reading
  | [] => .done value
  | .array items :: stack => .afterItem (value :: items) stack
  | .object members key :: stack => .afterMember ((key, value) :: members) stack

/-- The token with which a value begins. -/
def start (stack : List Frame) : Token → Option Reading
  | .openArray => some (.firstItem stack)
  | .openObject => some (.firstKey stack)
  | .string text => some (complete (.string text) stack)
  | .scalar scalar => some (complete scalar stack)
  | _ => none

/-- Where the machine stands after one more token, if the token may follow. -/
def step : Reading → Token → Option Reading
  | .value stack, token => start stack token
  | .firstItem stack, .closeArray => some (complete (.array []) stack)
  | .firstItem stack, token => start (.array [] :: stack) token
  | .afterItem items stack, .comma => some (.value (.array items :: stack))
  | .afterItem items stack, .closeArray => some (complete (.array items.reverse) stack)
  | .firstKey stack, .closeObject => some (complete (.object []) stack)
  | .firstKey stack, .string key => some (.afterKey [] key stack)
  | .nextKey members stack, .string key => some (.afterKey members key stack)
  | .afterKey members key stack, .colon => some (.value (.object members key :: stack))
  | .afterMember members stack, .comma => some (.nextKey members stack)
  | .afterMember members stack, .closeObject => some (complete (.object members.reverse) stack)
  | _, _ => none

end Reading

/-- Reading the pieces of a string uses up text. -/
theorem scanPieces_length {text rest : List Char} {pieces : List Piece}
    (scanned : scanPieces text = some (pieces, rest)) : rest.length < text.length := by
  -- Each step takes at least one character, the last one the closing quote.
  fun_induction scanPieces text generalizing pieces rest with
  | case1 tail => simp_all
  | case2 a b c d tail ih =>
    simp only [bind, Option.bind_eq_some_iff, pure, Option.some.injEq, Prod.mk.injEq] at scanned
    obtain ⟨_, _, ⟨_, _⟩, inner, _, rfl⟩ := scanned
    have := ih inner
    simp only [List.length_cons]
    omega
  | case3 letter tail _ ih =>
    simp only [bind, Option.bind_eq_some_iff, pure, Option.some.injEq, Prod.mk.injEq] at scanned
    obtain ⟨_, _, ⟨_, _⟩, inner, _, rfl⟩ := scanned
    have := ih inner
    simp only [List.length_cons]
    omega
  | case4 => simp_all
  | case5 c tail _ _ _ _ ih =>
    simp only [bind, Option.bind_eq_some_iff, pure, Option.some.injEq, Prod.mk.injEq] at scanned
    obtain ⟨⟨_, _⟩, inner, _, rfl⟩ := scanned
    have := ih inner
    simp only [List.length_cons]
    omega
  | case6 => simp_all

/-- Reading a run of digits uses up text. -/
theorem scanDigits_length {text digits rest : List Char}
    (scanned : scanDigits text = some (digits, rest)) : rest.length < text.length := by
  -- The run and what is left make up the text, and the run is not empty.
  have parts :=
    congrArg List.length (List.takeWhile_append_dropWhile (p := Char.isDigit) (l := text))
  rw [List.length_append] at parts
  unfold scanDigits at scanned
  split at scanned
  · simp at scanned
  · rename_i nonempty
    have positive := List.length_pos_iff.mpr nonempty
    simp only [Option.some.injEq, Prod.mk.injEq] at scanned
    obtain ⟨_, rfl⟩ := scanned
    omega

theorem scanMinus_length (text : List Char) : (scanMinus text).2.length ≤ text.length := by
  unfold scanMinus
  split <;> simp

theorem scanSign_length (text : List Char) : (scanSign text).2.length ≤ text.length := by
  unfold scanSign
  split
  · simp
  · exact scanMinus_length _

theorem scanWhole_length {text rest : List Char} {whole : Nat}
    (scanned : scanWhole text = some (whole, rest)) : rest.length < text.length := by
  -- Either a single zero goes, or a run of digits.
  unfold scanWhole at scanned
  split at scanned
  · simp_all
  · simp only [Option.map_eq_some_iff, Prod.mk.injEq, Prod.exists] at scanned
    obtain ⟨_, _, digits, _, rfl⟩ := scanned
    exact scanDigits_length digits

theorem scanFraction_length {text rest digits : List Char}
    (scanned : scanFraction text = some (digits, rest)) : rest.length ≤ text.length := by
  unfold scanFraction at scanned
  split at scanned
  · have := scanDigits_length scanned
    simp only [List.length_cons]
    omega
  · simp_all

theorem scanPower_length {text rest : List Char} {power : Int}
    (scanned : scanPower text = some (power, rest)) : rest.length ≤ text.length := by
  -- At most a sign and a run of digits go.
  simp only [scanPower, bind, Option.bind_eq_some_iff, pure, Option.some.injEq, Prod.mk.injEq,
    Prod.exists] at scanned
  obtain ⟨_, _, digits, _, rfl⟩ := scanned
  have := scanSign_length text
  have := scanDigits_length digits
  omega

/-- Reading an optional power of ten does not lengthen text. -/
theorem scanExponent_length {text rest : List Char} {exponent : Option Int}
    (scanned : scanExponent text = some (exponent, rest)) : rest.length ≤ text.length := by
  unfold scanExponent at scanned
  split at scanned
  · simp only [Option.map_eq_some_iff, Prod.mk.injEq, Prod.exists] at scanned
    obtain ⟨_, _, inner, _, rfl⟩ := scanned
    have := scanPower_length inner
    simp only [List.length_cons]
    omega
  · simp only [Option.map_eq_some_iff, Prod.mk.injEq, Prod.exists] at scanned
    obtain ⟨_, _, inner, _, rfl⟩ := scanned
    have := scanPower_length inner
    simp only [List.length_cons]
    omega
  · simp_all

theorem scanNumber_length {text rest : List Char} {value : Number}
    (scanned : scanNumber text = some (value, rest)) : rest.length < text.length := by
  -- The digits before the point are there in any case.
  have := scanMinus_length text
  simp only [scanNumber, bind, Option.bind_eq_some_iff, pure, Option.some.injEq, Prod.mk.injEq,
    Prod.exists] at scanned
  obtain ⟨_, _, whole, _, _, fraction, _, _, exponent, _, rfl⟩ := scanned
  have := scanWhole_length whole
  have := scanFraction_length fraction
  have := scanExponent_length exponent
  omega

/-- Behind its first character a token takes only what is there. -/
theorem scanToken_length {c : Char} {text rest : List Char} {token : Token}
    (scanned : scanToken c text = some (token, rest)) : rest.length ≤ text.length := by
  unfold scanToken at scanned
  split at scanned
  case h_7 =>
    simp only [Option.map_eq_some_iff, Prod.mk.injEq, Prod.exists, scanText, bind,
      Option.bind_eq_some_iff, pure, Option.some.injEq] at scanned
    obtain ⟨_, _, ⟨_, _, inner, _, rfl⟩, _, rfl⟩ := scanned
    have := scanPieces_length inner
    omega
  case h_11 =>
    simp only [Option.map_eq_some_iff, Prod.mk.injEq, Prod.exists] at scanned
    obtain ⟨_, _, inner, _, rfl⟩ := scanned
    have := scanNumber_length inner
    simp only [List.length_cons] at this
    omega
  all_goals simp_all <;> omega

/-- Where the machine stands after all of a text, if every token of it may follow. -/
def run (reading : Reading) (text : List Char) : Option Reading :=
  match text with
  | [] => some reading
  | c :: text =>
    if isBlank c then run reading text
    else
      match scanned : scanToken c text with
      | none => none
      | some (token, rest) =>
        have := scanToken_length scanned
        match reading.step token with
        | none => none
        | some reading => run reading rest
termination_by text.length
decreasing_by
  · simp
  · simp only [List.length_cons]
    omega

/-- The value that a text holds, if the text is one JSON value. -/
def parse? (text : String) : Option Json :=
  match run (.value []) text.toList with
  | some (.done value) => some value
  | _ => none

end Dataflow.Json
