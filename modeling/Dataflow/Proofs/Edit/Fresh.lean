import Dataflow.Proofs.Edit.Safe
import Mathlib.Data.List.Nodup
import Mathlib.Data.List.Perm.Subperm
import Std.Data.String.ToNat

/-! Fresh names: the supply never runs dry, and a process is added under one of them. -/

open List

namespace Dataflow

namespace NameSupply

variable {taken : Std.TreeSet ProcessId} {stem : String}

theorem candidate_inj {number other : Nat} (same : candidate stem number = candidate stem other) :
    number = other := by
  have digits : toString number = toString other := (String.append_right_inj stem).mp same
  exact Nat.repr_inj.mp digits

theorem exists_firstFree (fuel number : Nat) :
    ∃ passed ≤ fuel, firstFree taken stem fuel number = number + passed ∧
      (∀ offset < passed, taken.contains (candidate stem (number + offset))) ∧
      (passed < fuel → ¬ taken.contains (candidate stem (number + passed))) := by
  induction fuel generalizing number with
  | zero => exact ⟨0, Nat.le_refl 0, rfl, by simp, by simp⟩
  | succ fuel ih =>
    unfold firstFree
    split
    · rename_i isTaken
      obtain ⟨passed, bound, has, pre, free⟩ := ih (number + 1)
      refine ⟨passed + 1, by omega, by omega, fun offset less => ?_, fun less => ?_⟩
      · cases offset with
        | zero => exact isTaken
        | succ offset =>
          have shifted := pre offset (by omega)
          rwa [Nat.add_right_comm] at shifted
      · have shifted := free (by omega)
        rwa [Nat.add_right_comm] at shifted
    · rename_i free
      exact ⟨0, by omega, rfl, by simp, fun _ => free⟩

theorem not_contains_fresh (supply : NameSupply) (stem : String) :
    ¬ supply.taken.contains (supply.fresh stem).1 := by
  obtain ⟨passed, bound, has, pre, free⟩ :=
    @exists_firstFree supply.taken stem supply.taken.size supply.next
  intro isTaken
  simp only [fresh, has] at isTaken
  rcases Nat.lt_or_eq_of_le bound with less | all
  · exact free less isTaken
  let names := (List.range (passed + 1)).map fun offset => candidate stem (supply.next + offset)
  have once : names.Nodup := List.Nodup.map (fun first second same => by
    have equal := candidate_inj same
    omega) nodup_range
  have inside : names ⊆ supply.taken.toList := fun name mem => by
    obtain ⟨offset, less, rfl⟩ := mem_map.mp mem
    rw [Std.TreeSet.mem_toList]
    rcases Nat.lt_or_eq_of_le (Nat.le_of_lt_succ (mem_range.mp less)) with earlier | rfl
    · exact pre offset earlier
    · exact isTaken
  have short := (subperm_of_subset once inside).length_le
  rw [Std.TreeSet.length_toList, length_map, length_range] at short
  omega

end NameSupply

namespace Network

variable {net : Network}

/-- What is left when a process without ports is added. -/
structure Added (net : Network) (fresh : ProcessId) (process : Process) (next : Network) :
    Prop where
  unused : ¬ net.names.taken.contains fresh
  absent : net.process? fresh = none
  processes : ∀ id, next.process? id = if id = fresh then some process else net.process? id
  ports : next.ports = net.ports
  inputs : next.inputs = net.inputs
  outputs : next.outputs = net.outputs
  inv : next.Consistent

theorem run_addFresh (inv : net.Consistent) (stem : String) (kind : Kind Composite)
    {hier : Hierarchy} (top : hier.parent? = none) :
    ∃ fresh next, (Edit.addFresh stem kind hier).run net = .ok fresh next ∧
      net.Added fresh { kind, hierarchy := hier } next := by
  let fresh := (net.names.fresh stem).1
  have absent := inv.process?_eq_none (net.names.not_contains_fresh stem)
  have missing : ({ net with names := (net.names.fresh stem).2 } : Network).contains fresh =
      false := by
    have looked := net.contains_eq fresh
    rwa [absent] at looked
  let next : Network :=
    { net with
      processes := net.processes.insert fresh { kind, hierarchy := hier }
      names := (net.names.fresh stem).2.reserve fresh }
  have run : (Edit.addFresh stem kind hier).run net = .ok fresh next := by
    simp only [Edit.addFresh, EStateM.run_bind, Edit.freshId, EStateM.run_modifyGet,
      Edit.addProcess, EStateM.run_get, top]
    change EStateM.run
      (if ({ net with names := (net.names.fresh stem).2 } : Network).contains fresh =
        true then _ else _) _ = _
    rw [if_neg (by simp [missing])]
    rfl
  refine ⟨fresh, next, run, net.names.not_contains_fresh stem, absent, fun id => ?_, rfl,
    rfl, rfl, ?_⟩
  · refine (@process?_setProcess net fresh id { kind, hierarchy := hier }).trans ?_
    by_cases here : id = fresh
    · simp [here]
    · simp [here, Ne.symm here]
  · exact ((Edit.safe_addFresh stem kind hier).evolves inv run).inv

end Network

end Dataflow
