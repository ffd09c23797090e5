import Dataflow.Proofs.Network.Consistent

/-! The meaning of a network: the values that its ports can carry within a tick. -/

namespace Dataflow

universe u

variable {Value : Type u}

/-- What processes let through: the values at their in-ports and at their out-ports, by name and
kind. -/
abbrev Behaviour (Value : Type u) : Type u :=
  ProcessId → List Value → List Value → Kind Composite → Prop

/-- What values are and what functions do with them. -/
structure Interpretation (Value : Type u) where
  /-- The array with the given elements. -/
  array : List Value → Value
  /-- An array is determined by its elements, and they by it. -/
  array_injective : Function.Injective array
  /-- The result of a function. -/
  apply : Func → List Value → Value
  /-- The value that a delay has stored. -/
  stored : ProcessId → Value

namespace Interpretation

/-- The result of functions that are applied one after the other. -/
def applyAll (model : Interpretation Value) (functions : List Func) (value : Value) : Value :=
  functions.foldl (fun value function => model.apply function [value]) value

/--
The values that a process lets through: those at its in-ports and at its out-ports.

Arrays fit exactly: a parallel map takes only arrays with as many elements as it has branches, and
an unzip only those with as many elements as it has out-ports.
-/
def Relates (model : Interpretation Value) (id : ProcessId) (ins outs : List Value) :
    Kind Composite → Prop
  | .map function => ∃ value, ins = [value] ∧ outs = [model.apply function [value]]
  | .coalescedMap functions => ∃ value, ins = [value] ∧ outs = [model.applyAll functions value]
  | .parallelMap branches functions =>
    ∃ elements, elements.length = branches.toNat ∧ ins = [model.array elements] ∧
      outs = [model.array (elements.map (model.applyAll functions))]
  | .comb function => outs = [model.apply function ins]
  | .unzip => ins = [model.array outs]
  | .zip => outs = [model.array ins]
  | .delay _ => outs = [model.stored id]
  | .fanout => ∃ value, ins = [value] ∧ ∀ copy ∈ outs, copy = value
  -- Helpers and composites are gone when a network is flat, and say nothing.
  | .inport | .outport | .composite _ => True

end Interpretation

namespace Network

variable {net next last : Network} {value after final : PortKey → Value} {law : Behaviour Value}

/-- Values that fit together: connections carry one value, and processes let theirs through. -/
structure Solves (law : Behaviour Value) (net : Network) (value : PortKey → Value) : Prop where
  connected : ∀ {key port other}, net.port? key = some port → port.connection = some other →
    value key = value other
  related : ∀ {id process}, net.process? id = some process →
    law id (process.inPorts.map value) (process.outPorts.map value) process.kind

theorem Solves.of_entries {entries : List (ProcessId × Process)} {joins : PortKey → PortKey → Prop}
    [DecidableRel joins]
    (joined : ((List.range net.ports.nextKey).all fun key => (net.port? key).all fun port =>
      port.connection.all fun other => joins key other) = true)
    (same : ∀ key other, joins key other → value key = value other)
    (got : net.processes.toList = entries)
    (rel : ∀ entry ∈ entries,
      law entry.1 (entry.2.inPorts.map value) (entry.2.outPorts.map value) entry.2.kind) :
    Solves law net value where
  connected has conn := by
    have here := List.all_eq_true.mp joined _ (List.mem_range.mpr (lt_nextKey has))
    exact same _ _ (by simpa [has, conn] using here)
  related has := rel (_, _) (got ▸ mem_toList.mpr has)

/-- Values at the ports of two networks that are equal at the ports of common processes and on the
boundary. -/
structure Agree (net next : Network) (value after : PortKey → Value) : Prop where
  ins : ∀ {id process later}, net.process? id = some process → next.process? id = some later →
    process.inPorts.map value = later.inPorts.map after
  outs : ∀ {id process later}, net.process? id = some process → next.process? id = some later →
    process.outPorts.map value = later.outPorts.map after
  inputs : net.inputs.map value = next.inputs.map after
  outputs : net.outputs.map value = next.outputs.map after

/-- Whatever solves one of two networks agrees with something that solves the other one. -/
structure Equivalent (law : Behaviour Value) (net next : Network) : Prop where
  forth : ∀ value, Solves law net value →
    ∃ after, Solves law next after ∧ net.Agree next value after
  back : ∀ after, Solves law next after → ∃ value, Solves law net value ∧ net.Agree next value after

/-- Equivalence of two networks whose processes do what an interpretation says. -/
abbrev SameMeaning (model : Interpretation Value) (net next : Network) : Prop :=
  Equivalent model.Relates net next

/-- Values at the ports of two networks that are equal at common keys and on the boundary. -/
structure Match (net next : Network) (value after : PortKey → Value) : Prop where
  common : ∀ {key}, (net.port? key).isSome → (next.port? key).isSome → value key = after key
  inputs : net.inputs.map value = next.inputs.map after
  outputs : net.outputs.map value = next.outputs.map after

/-- A later network with the same solutions, in which processes are as before or have new names. -/
structure Preserves (law : Behaviour Value) (net next : Network) : Prop where
  evolves : net.Evolves next
  renews : ∀ {id process}, next.process? id = some process →
    net.process? id = some process ∨ ¬ net.names.taken.contains id
  forth : ∀ value, Solves law net value →
    ∃ after, Solves law next after ∧ net.Match next value after
  back : ∀ after, Solves law next after → ∃ value, Solves law net value ∧ net.Match next value after

theorem Match.refl (net : Network) (value : PortKey → Value) : net.Match net value value :=
  ⟨fun _ _ => rfl, rfl, rfl⟩

theorem Match.trans (evo : next.Evolves last) (grows : net.ports.nextKey ≤ next.ports.nextKey)
    (first : net.Match next value after) (second : next.Match last after final) :
    net.Match last value final := by
  refine ⟨fun {key} live liveLast => ?_, first.inputs.trans second.inputs,
    first.outputs.trans second.outputs⟩
  obtain ⟨port, has⟩ := Option.isSome_iff_exists.mp live
  obtain ⟨new, hasLast⟩ := Option.isSome_iff_exists.mp liveLast
  obtain ⟨between, hasBetween, -⟩ := evo.stable (Nat.lt_of_lt_of_le (lt_nextKey has) grows) hasLast
  have liveBetween : (next.port? key).isSome := by simp [hasBetween]
  exact (first.common live liveBetween).trans (second.common liveBetween liveLast)

namespace Preserves

theorem refl (inv : net.Consistent) : Preserves law net net where
  evolves := .refl inv
  renews got := .inl got
  forth value solves := ⟨value, solves, .refl net value⟩
  back value solves := ⟨value, solves, .refl net value⟩

/-- What is preserved in two steps is preserved. -/
theorem trans (first : Preserves law net next) (second : Preserves law next last) :
    Preserves law net last where
  evolves := first.evolves.trans second.evolves
  renews got := by
    rcases second.renews got with pre | new
    · exact first.renews pre
    · exact .inr fun taken => new (first.evolves.keepsTaken taken)
  forth value solves := by
    obtain ⟨after, solvesNext, isMatch⟩ := first.forth value solves
    obtain ⟨final, solvesLast, isMatchToo⟩ := second.forth after solvesNext
    exact ⟨final, solvesLast, isMatch.trans second.evolves first.evolves.grows isMatchToo⟩
  back final solves := by
    obtain ⟨after, solvesNext, isMatch⟩ := second.back final solves
    obtain ⟨value, solvesNet, isMatchToo⟩ := first.back after solvesNext
    exact ⟨value, solvesNet, isMatchToo.trans second.evolves first.evolves.grows isMatch⟩

theorem agree (preserves : Preserves law net next) (inv : net.Consistent)
    (isMatch : net.Match next value after) : net.Agree next value after := by
  have same {id proc later} (got : net.process? id = some proc)
      (gotNew : next.process? id = some later) : proc = later ∧ ∀ dir, ∀ key ∈ proc.ports dir,
        value key = after key := by
    obtain rfl : proc = later := by
      rcases preserves.renews gotNew with pre | new
      · exact Option.mem_unique got pre
      · exact absurd (inv.taken got) new
    refine ⟨rfl, fun dir key mem => ?_⟩
    obtain ⟨port, has, -⟩ := inv.listed got mem
    obtain ⟨peer, hasNew, -⟩ := preserves.evolves.inv.listed gotNew mem
    exact isMatch.common (by simp [has]) (by simp [hasNew])
  refine ⟨fun got gotNew => ?_, fun got gotNew => ?_, isMatch.inputs, isMatch.outputs⟩
  · obtain ⟨rfl, equal⟩ := same got gotNew
    exact List.map_congr_left (equal .input)
  · obtain ⟨rfl, equal⟩ := same got gotNew
    exact List.map_congr_left (equal .output)

theorem equivalent (preserves : Preserves law net next) (inv : net.Consistent) :
    Equivalent law net next where
  forth value solves := by
    obtain ⟨after, solvesNext, isMatch⟩ := preserves.forth value solves
    exact ⟨after, solvesNext, preserves.agree inv isMatch⟩
  back after solves := by
    obtain ⟨value, solvesNet, isMatch⟩ := preserves.back after solves
    exact ⟨value, solvesNet, preserves.agree inv isMatch⟩

end Preserves

end Network

/-- Values at the ports of a network that fit together if processes do what an interpretation
says. -/
abbrev Interpretation.Solves (model : Interpretation Value) (net : Network)
    (value : PortKey → Value) : Prop :=
  Network.Solves model.Relates net value

end Dataflow
