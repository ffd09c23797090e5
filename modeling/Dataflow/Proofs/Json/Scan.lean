import Dataflow.Json.Printer
import Dataflow.Json.Reader

/-! Reading the tokens of written values: strings and natural numbers are read as they were
written. -/

open List

namespace Dataflow.Json

variable {text rest : List Char} {reading : Reading} {token : Token} {c : Char} {val : Nat}

/-- What may follow a written value: it cannot be taken for more of a number. -/
def Ends : List Char → Prop
  | [] => True
  | c :: _ => c = ',' ∨ c = '\n' ∨ c = ']' ∨ c = '\x7d'

theorem Ends.not_digit (ends : Ends (c :: rest)) :
    c.isDigit = false ∧ c ≠ '.' ∧ c ≠ 'e' ∧ c ≠ 'E' := by
  rcases ends with rfl | rfl | rfl | rfl <;> decide

theorem run_blank (blank : isBlank c) : run reading (c :: text) = run reading text := by
  rw [run, if_pos blank]

theorem run_token {next : Reading} (dark : isBlank c = false)
    (scanned : scanToken c text = some (token, rest)) (moves : reading.step token = some next) :
    run reading (c :: text) = run next rest := by
  rw [run, if_neg (by simp [dark])]
  split
  · simp_all
  · grind

theorem run_lineBreak (layout : Layout) :
    run reading (layout.lineBreak ++ text) = run reading text := by
  cases layout with
  | compact => rfl
  | indented level =>
    have blanks (count : Nat) : run reading (List.replicate count ' ' ++ text) =
        run reading text := by
      induction count with
      | zero => rfl
      | succ count ih => exact (run_blank rfl).trans ih
    exact (run_blank rfl).trans (blanks _)

theorem hexValue?_hexDigit (small : val < 16) : hexValue? (hexDigit val) = some val := by
  have every : ∀ val : Fin 16, hexValue? (hexDigit val) = some val.val := by decide
  exact every ⟨val, small⟩

/-- The piece that a written character is read as. -/
def piece (c : Char) : Piece :=
  if c.toNat < 0x20 ∧ c ∉ ['\x08', '\x0c', '\n', '\r', '\t'] then .unit c.toNat else .char c

theorem scanPieces_escape (c : Char) :
    scanPieces (escape c ++ text) =
      (scanPieces text).map fun (pieces, rest) => (piece c :: pieces, rest) := by
  unfold escape
  split
  case h_8 =>
    split
    · rename_i control
      have unit : piece c = .unit c.toNat := if_pos ⟨control, by simp_all⟩
      have code : hexUnit? '0' '0' (hexDigit (c.toNat / 16)) (hexDigit (c.toNat % 16)) =
          some c.toNat := by
        have zero : hexValue? '0' = some 0 := by decide
        simp only [hexUnit?, zero, hexValue?_hexDigit (show c.toNat / 16 < 16 by omega),
          hexValue?_hexDigit (show c.toNat % 16 < 16 by omega), bind, Option.bind, pure]
        exact congrArg some (by omega)
      cases scanned : scanPieces text <;> simp [scanPieces, code, unit, scanned]
    · rename_i visible
      have char : piece c = .char c := if_neg fun control => visible control.1
      cases scanned : scanPieces text <;> simp_all [scanPieces]
  all_goals
    cases scanned : scanPieces text with
    | none => simp [scanPieces, simpleEscape?, scanned]
    | some pieces =>
      simp [scanPieces, simpleEscape?, scanned]
      rfl

theorem joinPieces_piece (c : Char) (pieces : List Piece) :
    joinPieces (piece c :: pieces) = (joinPieces pieces).map (c :: ·) := by
  unfold piece
  split
  · have high : isHighSurrogate c.toNat = false := by simp [isHighSurrogate]; omega
    have low : isLowSurrogate c.toNat = false := by simp [isLowSurrogate]; omega
    match pieces with
    | [] => simp [joinPieces, high, low]
    | .char other :: pieces => simp [joinPieces, high, low]
    | .unit other :: pieces => simp [joinPieces, high, low]
  · rfl

theorem scanText_print (text : String) :
    scanText (text.toList.flatMap escape ++ '"' :: rest) = some (some text, rest) := by
  have pieces (chars : List Char) : scanPieces (chars.flatMap escape ++ '"' :: rest) =
      some (chars.map piece, rest) := by
    induction chars with
    | nil => rfl
    | cons c chars ih => rw [flatMap_cons, append_assoc, scanPieces_escape, ih]; rfl
  have chars (chars : List Char) : joinPieces (chars.map piece) = some chars := by
    induction chars with
    | nil => rfl
    | cons c chars ih => rw [map_cons, joinPieces_piece, ih]; rfl
  simp [scanText, pieces, chars]

theorem digitsValue_toDigits (val : Nat) : digitsValue (Nat.toDigits 10 val) = val := by
  have same : digitsValue (Nat.toDigits 10 val) = Nat.ofDigitChars 10 (Nat.toDigits 10 val) 0 := by
    rw [digitsValue, Nat.ofDigitChars_eq_foldl]
    simp [Number.digitValue, Nat.mul_comm]
  rw [same, Nat.ofDigitChars_ten_toDigits]

theorem head?_toDigits (positive : 0 < val) : (Nat.toDigits 10 val).head? ≠ some '0' := by
  induction val using Nat.strongRecOn with
  | ind val ih =>
    by_cases small : val < 10
    · rw [Nat.toDigits_of_lt_base small]
      simpa using Nat.pos_iff_ne_zero.mp positive
    · have leading := ih (val / 10) (by omega) (by omega)
      rw [Nat.toDigits_of_base_le (by decide) (Nat.le_of_not_lt small)]
      obtain ⟨first, others, digits⟩ :=
        exists_cons_of_ne_nil (Nat.toDigits_ne_nil (n := val / 10) (b := 10))
      rw [digits] at leading ⊢
      exact leading

theorem scanDigits_print (val : Nat) (ends : Ends rest) :
    scanDigits (Nat.toDigits 10 val ++ rest) = some (Nat.toDigits 10 val, rest) := by
  have digits : ∀ c ∈ Nat.toDigits 10 val, c.isDigit :=
    fun c mem => Nat.isDigit_of_mem_toDigits (by decide) (by decide) mem
  have stops : rest.takeWhile Char.isDigit = [] ∧ rest.dropWhile Char.isDigit = rest := by
    cases rest with
    | nil => exact ⟨rfl, rfl⟩
    | cons c rest => simp [ends.not_digit.1]
  unfold scanDigits
  rw [takeWhile_append_of_pos digits, dropWhile_append_of_pos digits, stops.1, stops.2, append_nil]
  split
  · simp_all
  · rfl

theorem scanNumber_print (val : Nat) (ends : Ends rest) :
    scanNumber (Nat.toDigits 10 val ++ rest) = some ({ whole := val }, rest) := by
  obtain ⟨first, others, digits⟩ := exists_cons_of_ne_nil (Nat.toDigits_ne_nil (n := val) (b := 10))
  have isDigit : first.isDigit :=
    Nat.isDigit_of_mem_toDigits (b := 10) (n := val) (by decide) (by decide) (by simp [digits])
  have unsigned : scanMinus (Nat.toDigits 10 val ++ rest) =
      (false, Nat.toDigits 10 val ++ rest) := by
    rw [digits, scanMinus]
    rintro _ same
    obtain ⟨rfl, -⟩ := List.cons.inj same
    simp at isDigit
  have whole : scanWhole (Nat.toDigits 10 val ++ rest) = some (val, rest) := by
    by_cases zero : val = 0
    · rw [zero]
      rfl
    · have leading := head?_toDigits (Nat.pos_of_ne_zero zero)
      rw [scanWhole, scanDigits_print val ends]
      · exact congrArg (fun whole => some (whole, rest)) (digitsValue_toDigits val)
      rintro _ same
      rw [digits] at leading same
      exact leading (congrArg some (List.cons.inj same).1)
  have fraction : scanFraction rest = some ([], rest) := by
    cases rest with
    | nil => rfl
    | cons c rest =>
      rw [scanFraction]
      rintro _ same
      exact ends.not_digit.2.1 (List.cons.inj same).1
  have exponent : scanExponent rest = some (none, rest) := by
    cases rest with
    | nil => rfl
    | cons c rest =>
      rw [scanExponent]
      · rintro _ same
        exact ends.not_digit.2.2.1 (List.cons.inj same).1
      · rintro _ same
        exact ends.not_digit.2.2.2 (List.cons.inj same).1
  simp [scanNumber, unsigned, whole, fraction, exponent]

end Dataflow.Json
