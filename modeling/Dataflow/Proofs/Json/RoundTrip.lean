import Dataflow.Proofs.Json.Scan

/-! Reading gives back what was written, in either layout. -/

open List

namespace Dataflow.Json

variable {json : Json} {layout outer : Layout} {reading : Reading} {stack : List Frame}
  {rest : List Char} {val depth : Nat}

/-- Values with at most the given number of containers inside each other, in which numbers are words
and strings are whole. -/
inductive Plain : Nat → Json → Prop where
  | null {depth : Nat} : Plain depth .null
  | bool {depth : Nat} (value : Bool) : Plain depth (.bool value)
  | number {depth : Nat} (value : UInt64) : Plain depth (.ofNat value.toNat)
  | string {depth : Nat} (text : String) : Plain depth (.ofString text)
  | array {depth : Nat} {items : List Json} (plain : ∀ item ∈ items, Plain depth item) :
    Plain (depth + 1) (.array items)
  | object {depth : Nat} {members : List (String × Json)}
    (plain : ∀ member ∈ members, Plain depth member.2) :
    Plain (depth + 1) (.object (members.map fun (key, value) => (some key, value)))

theorem Number.absorb_eq {digits : List Char}
    (small : digits.foldl (fun val digit => val * 10 + digitValue digit) val < UInt64.size) :
    absorb val digits = (digits.foldl (fun val digit => val * 10 + digitValue digit) val, []) := by
  induction digits generalizing val with
  | nil => rfl
  | cons digit digits ih =>
    have grows (digits : List Char) (val : Nat) : val ≤ digits.foldl
        (fun val digit => val * 10 + digitValue digit) val := by
      induction digits generalizing val with
      | nil => exact Nat.le_refl _
      | cons digit digits ih => exact Nat.le_trans (by omega) (ih (val * 10 + digitValue digit))
    have fits : val * 10 + digitValue digit < UInt64.size :=
      Nat.lt_of_le_of_lt (grows digits _) small
    rw [absorb, if_pos fits, ih small]
    rfl

theorem Number.roundToDouble_lt (small : val < UInt64.size) :
    roundToDouble val < 2 * UInt64.size := by
  have bits : val.log2 < 64 := by
    by_cases zero : val = 0
    · simp [zero]
    · exact (Nat.log2_lt zero).mpr small
  unfold roundToDouble
  extract_lets excess unit quotient remainder
  have worth : unit ≤ 2 ^ 11 := by
    rw [show unit = 2 ^ excess from Nat.one_shiftLeft excess]
    exact Nat.pow_le_pow_right (by decide) (by omega)
  have below : quotient * unit ≤ val := Nat.div_mul_le_self val unit
  have size : UInt64.size = 2 ^ 64 := rfl
  split
  · omega
  split
  · omega
  · rw [Nat.add_mul]
    omega

theorem Number.isFinite_word (val : UInt64) : isFinite { whole := val.toNat } := by
  have digits : (Nat.toDigits 10 val.toNat).foldl (fun val digit => val * 10 + digitValue digit) 0 =
      val.toNat :=
    digitsValue_toDigits val.toNat
  have taken : absorb 0 (Nat.toDigits 10 val.toNat) = (val.toNat, []) := by
    have absorbed :=
      @absorb_eq 0 (Nat.toDigits 10 val.toNat) (by rw [digits]; exact val.toNat_lt_size)
    rwa [digits] at absorbed
  have one : roundToDouble 1 = 1 := by decide
  have rounded := roundToDouble_lt val.toNat_lt_size
  simp [isFinite, taken, absorb, one]
  simp only [UInt64.size] at rounded
  omega

theorem Plain.isStrict (plain : json.Plain depth) : json.isStrict depth := by
  induction plain with
  | null | bool | string => rfl
  | number val => exact Number.isFinite_word val
  | @array depth items plain ih =>
    have every : allStrict depth items := by
      clear plain
      induction items with
      | nil => rfl
      | cons item items ihItems =>
        rw [allStrict, ih item mem_cons_self]
        exact ihItems fun other mem => ih other (mem_cons_of_mem _ mem)
    simpa [Json.isStrict] using every
  | @object depth members plain ih =>
    have every : membersStrict depth (members.map fun (key, val) => (some key, val)) := by
      clear plain
      induction members with
      | nil => rfl
      | cons member members ihMembers =>
        rw [map_cons, membersStrict, ih member mem_cons_self]
        exact ihMembers fun other mem => ih other (mem_cons_of_mem _ mem)
    simpa [Json.isStrict] using every

/-- The machine is about to read a value, which goes into the innermost container of a stack. -/
def Awaits (reading : Reading) (stack : List Frame) : Prop :=
  ∀ token, token ≠ .closeArray → reading.step token = Reading.start stack token

theorem awaits_value (stack : List Frame) : Awaits (.value stack) stack := fun _ _ => by
  rw [Reading.step]

theorem awaits_firstItem (stack : List Frame) : Awaits (.firstItem stack) (.array [] :: stack) :=
      fun token opens => by
  cases token <;> first | rfl | exact absurd rfl opens

/-- A value is read back wherever one is awaited. -/
def ReadsBack (json : Json) : Prop :=
  ∀ {layout reading stack rest}, Awaits reading stack → Ends rest →
    run reading (print layout json ++ rest) = run (Reading.complete json stack) rest

theorem ends_lineBreak (layout : Layout) {c : Char} (closes : Ends (c :: rest)) :
    Ends (layout.lineBreak ++ c :: rest) := by
  cases layout with
  | compact => exact closes
  | indented level => exact .inr (.inl rfl)

theorem ends_printItems (items : List Json) (closes : Ends rest) :
    Ends (printItems layout items ++ rest) := by
  cases items with
  | nil => exact closes
  | cons item items => exact .inl rfl

theorem ends_printMembers (members : List (Text × Json)) (closes : Ends rest) :
    Ends (printMembers layout members ++ rest) := by
  cases members with
  | nil => exact closes
  | cons mem members => exact .inl rfl

theorem run_printItems {items : List Json} (read : ∀ item ∈ items, ReadsBack item)
    (done : List Json) :
    run (.afterItem done stack) (printItems layout items ++ (outer.lineBreak ++ ']' :: rest)) =
      run (Reading.complete (.array (done.reverse ++ items)) stack) rest := by
  induction items generalizing done with
  | nil =>
    rw [printItems, nil_append, run_lineBreak, append_nil]
    exact run_token rfl rfl rfl
  | cons item items ih =>
    have closes : Ends (outer.lineBreak ++ ']' :: rest) :=
      ends_lineBreak outer (.inr (.inr (.inl rfl)))
    simp only [printItems, cons_append, append_assoc]
    refine (run_token rfl rfl rfl).trans ?_
    rw [run_lineBreak, read item mem_cons_self (awaits_value _) (ends_printItems items closes)]
    have behind := ih (fun other mem => read other (mem_cons_of_mem _ mem)) (item :: done)
    rwa [reverse_cons, append_assoc] at behind

theorem run_key {members : List (Text × Json)} (key : String)
    (next : reading.step (.string (some key)) = some (.afterKey members (some key) stack)) :
    run reading (printText (some key) ++ (layout.colon ++ rest)) =
      run (.value (.object members (some key) :: stack)) rest := by
  have scanned : scanToken '"' (key.toList.flatMap escape ++ ['"'] ++ (layout.colon ++ rest)) =
      some (.string (some key), layout.colon ++ rest) := by
    rw [append_assoc, scanToken, singleton_append, scanText_print]
    rfl
  rw [printText, cons_append, cons_append, run_token rfl scanned next]
  cases layout with
  | compact => exact run_token rfl rfl rfl
  | indented level => exact (run_token rfl rfl rfl).trans (run_blank rfl)

theorem run_printMembers {members : List (String × Json)} (read : ∀ mem ∈ members, ReadsBack mem.2)
    (done : List (Text × Json)) :
    run (.afterMember done stack)
      (printMembers layout (members.map fun (key, val) => (some key, val)) ++
        (outer.lineBreak ++ '\x7d' :: rest)) =
      run (Reading.complete
        (.object (done.reverse ++ members.map fun (key, val) => (some key, val))) stack) rest := by
  -- Each member is read back as a key and a value.
  induction members generalizing done with
  | nil =>
    rw [map_nil, printMembers, nil_append, run_lineBreak, append_nil]
    exact run_token rfl rfl rfl
  | cons mem members ih =>
    obtain ⟨key, val⟩ := mem
    have closes : Ends (outer.lineBreak ++ '\x7d' :: rest) :=
      ends_lineBreak outer (.inr (.inr (.inr rfl)))
    simp only [map_cons, printMembers, cons_append, append_assoc]
    refine (run_token rfl rfl rfl).trans ?_
    rw [run_lineBreak, run_key key rfl,
      read (key, val) mem_cons_self (awaits_value _) (ends_printMembers _ closes)]
    have behind :=
      ih (fun other listed => read other (mem_cons_of_mem _ listed)) ((some key, val) :: done)
    rwa [reverse_cons, append_assoc] at behind

theorem readsBack_ofNat (val : Nat) : ReadsBack (.ofNat val) := by
  intro layout reading stack rest awaits ends
  have printed : print layout (.ofNat val) = Nat.toDigits 10 val := by
    simp [print, ofNat, printNumber]
  obtain ⟨first, others, digits⟩ := exists_cons_of_ne_nil (Nat.toDigits_ne_nil (n := val) (b := 10))
  have isDigit : first.isDigit :=
    Nat.isDigit_of_mem_toDigits (b := 10) (n := val) (by decide) (by decide) (by simp [digits])
  have dark : isBlank first = false := by
    simp only [isBlank, Bool.or_eq_false_iff, decide_eq_false_iff_not]
    refine ⟨⟨⟨?_, ?_⟩, ?_⟩, ?_⟩ <;> rintro rfl <;> simp at isDigit
  have scanned : scanToken first (others ++ rest) = some (.scalar (.ofNat val), rest) := by
    have number := scanNumber_print val ends
    rw [digits, cons_append] at number
    unfold scanToken
    split
    case h_11 => rw [number]; rfl
    all_goals simp at isDigit
  rw [printed, digits]
  exact run_token dark scanned (awaits (.scalar (.ofNat val)) nofun)

theorem Plain.readsBack (plain : json.Plain depth) : ReadsBack json := by
  induction plain with
  | null => exact fun awaits _ => run_token rfl rfl (awaits (.scalar .null) nofun)
  | bool val =>
    cases val with
    | true => exact fun awaits _ => run_token rfl rfl (awaits (.scalar (.bool true)) nofun)
    | false => exact fun awaits _ => run_token rfl rfl (awaits (.scalar (.bool false)) nofun)
  | number val => exact readsBack_ofNat val.toNat
  | string text =>
    intro layout reading stack rest awaits _
    have scanned : scanToken '"' (text.toList.flatMap escape ++ ['"'] ++ rest) =
        some (.string (some text), rest) := by
      rw [append_assoc, scanToken, singleton_append, scanText_print]
      rfl
    exact run_token rfl scanned (awaits (.string (some text)) nofun)
  | @array _ items _ ih =>
    intro layout reading stack rest awaits _
    cases items with
    | nil => exact (run_token rfl rfl (awaits .openArray nofun)).trans (run_token rfl rfl rfl)
    | cons item items =>
      have closes : Ends (layout.lineBreak ++ ']' :: rest) :=
        ends_lineBreak layout (.inr (.inr (.inl rfl)))
      simp only [print, cons_append, append_assoc, nil_append]
      refine (run_token rfl rfl (awaits .openArray nofun)).trans ?_
      rw [run_lineBreak,
        ih item mem_cons_self (awaits_firstItem stack) (ends_printItems items closes)]
      exact run_printItems (fun other mem => ih other (mem_cons_of_mem _ mem)) [item]
  | @object _ members _ ih =>
    intro layout reading stack rest awaits _
    cases members with
    | nil => exact (run_token rfl rfl (awaits .openObject nofun)).trans (run_token rfl rfl rfl)
    | cons member members =>
      obtain ⟨key, val⟩ := member
      have closes : Ends (layout.lineBreak ++ '\x7d' :: rest) :=
        ends_lineBreak layout (.inr (.inr (.inr rfl)))
      simp only [map_cons, print, cons_append, append_assoc, nil_append]
      refine (run_token rfl rfl (awaits .openObject nofun)).trans ?_
      rw [run_lineBreak, run_key key rfl,
        ih (key, val) mem_cons_self (awaits_value _) (ends_printMembers _ closes)]
      exact run_printMembers (fun other mem => ih other (mem_cons_of_mem _ mem)) [(some key, val)]

theorem Plain.parse?_print (plain : json.Plain depth) (layout : Layout)
    (closing : rest = [] ∨ rest = ['\n']) :
    parse? (String.ofList (print layout json ++ rest)) = some json := by
  have ends : Ends rest := by
    rcases closing with rfl | rfl
    · trivial
    · exact .inr (.inl rfl)
  have done : run (Reading.complete json []) rest = some (.done json) := by
    rcases closing with rfl | rfl
    · rw [Reading.complete, run]
    · rw [Reading.complete, run_blank rfl, run]
  have read : run (.value []) (print layout json ++ rest) = _ :=
    plain.readsBack (awaits_value []) ends
  rw [parse?, String.toList_ofList, read, done]

end Dataflow.Json
