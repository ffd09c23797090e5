import Std.Data.TreeSet

/-! Process names and the supply of fresh ones. -/

namespace Dataflow

/-- The name of a process; names order by code point, which fixes the order of every traversal. -/
abbrev ProcessId := String

/-- A supply of fresh names: a counter shared by all stems, and every name already in use. -/
structure NameSupply where
  next : Nat := 0
  taken : Std.TreeSet ProcessId := ∅

namespace NameSupply

/-- The name made of a stem and a number. -/
def candidate (stem : String) (number : Nat) : ProcessId :=
  stem ++ toString number

/-- The first number, from the given one on, whose candidate is free, looking past at most `fuel`
taken ones. -/
def firstFree (taken : Std.TreeSet ProcessId) (stem : String) : Nat → Nat → Nat
  | 0, number => number
  | fuel + 1, number =>
    -- Candidates of one stem are pairwise distinct, so each taken one uses up a member of `taken`.
    if taken.contains (candidate stem number) then firstFree taken stem fuel (number + 1)
    else number

def reserve (supply : NameSupply) (id : ProcessId) : NameSupply :=
  { supply with taken := supply.taken.insert id }

/-- Hands out a name with the given stem that was never taken, and takes it. -/
def fresh (supply : NameSupply) (stem : String) : ProcessId × NameSupply :=
  -- Among one more candidate than there are taken names, one is free.
  let number := firstFree supply.taken stem supply.taken.size supply.next
  let id := candidate stem number
  (id, { next := number + 1, taken := supply.taken.insert id })

end NameSupply

end Dataflow
