import Dataflow.Proofs.Network.Handles
import Dataflow.Proofs.Network.Refused

/-! A name is handed out once, and none that a process has or had. -/

open List

namespace Dataflow

open NameSupply (candidate)

variable {net next : Network} {id : ProcessId} {issued used : List ProcessId}

/-- The name that a call hands out, if it asks for a fresh one. -/
def Call.name? (net : Network) : Call → Option ProcessId
  | .freshId stem => some (net.names.fresh stem).1
  | _ => none

theorem Call.name?_eq_some {call : Call} (handed : call.name? net = some id) :
    ¬ net.names.taken.contains id ∧ (call.apply net).names.taken.contains id := by
  cases call with
  | freshId stem =>
    cases handed
    refine ⟨net.names.not_contains_fresh stem, ?_⟩
    show ((net.names.fresh stem).2).taken.contains (net.names.fresh stem).1
    simp [NameSupply.fresh]
  | _ => cases handed

theorem NameSupply.exists_passed (supply : NameSupply) (stem : String) :
    ∃ passed ≤ supply.taken.size, (supply.fresh stem).1 = candidate stem (supply.next + passed) ∧
      (supply.fresh stem).2.next = supply.next + passed + 1 ∧
      ∀ offset < passed, supply.taken.contains (candidate stem (supply.next + offset)) := by
  obtain ⟨passed, bound, has, pre, -⟩ :=
    @exists_firstFree supply.taken stem supply.taken.size supply.next
  exact ⟨passed, bound, by simp [fresh, has], by simp [fresh, has], pre⟩

namespace Network

/-- Calls lead from the empty network to this one, each of them successful or not. On the way they
have handed out names, `issued` in this order, and processes were stored, with names in `used`. -/
inductive History : Network → List ProcessId → List ProcessId → Prop where
  /-- Nothing was done so far. -/
  | start : History {} [] []
  /-- One more call was made. -/
  | call {net : Network} {issued used : List ProcessId} (history : History net issued used)
    (call : Call) (allowed : call.Allowed net) :
    History (call.apply net) (issued ++ (call.name? net).toList) (used ++ (call.apply net).ids)

namespace History

/-- All names of a history are taken, and none was handed out twice. -/
theorem known (history : net.History issued used) :
    net.Consistent ∧ issued.Nodup ∧ ∀ id ∈ issued ++ used, net.names.taken.contains id := by
  induction history with
  | start => exact ⟨.empty, nodup_nil, by simp⟩
  | @call net issued used _ call allowed ih =>
    obtain ⟨inv, once, taken⟩ := ih
    have evo := call.evolves_apply inv allowed
    refine ⟨evo.inv, ?_, fun id mem => ?_⟩
    · refine once.append (by cases call.name? net <;> simp) fun id pre now => ?_
      exact (Call.name?_eq_some (Option.mem_toList.mp now)).1 (taken id (mem_append_left _ pre))
    · simp only [mem_append] at mem taken
      rcases mem with (pre | now) | pre | here
      · exact evo.keepsTaken (taken id (.inl pre))
      · exact (Call.name?_eq_some (Option.mem_toList.mp now)).2
      · exact evo.keepsTaken (taken id (.inr pre))
      · obtain ⟨proc, got⟩ := mem_ids.mp here
        exact evo.inv.taken got

theorem calls {keys : List PortKey} (calls : net.Calls keys next)
    (history : net.History issued used) :
    ∃ more new, next.History (issued ++ more) (used ++ new) := by
  induction calls generalizing issued used with
  | done net => exact ⟨[], [], by simpa using history⟩
  | call call allowed _ ih =>
    obtain ⟨more, new, history⟩ := ih (history.call call allowed)
    rw [append_assoc, append_assoc] at history
    exact ⟨_, _, history⟩

end History

theorem Reachable.exists_history (reachable : net.Reachable) :
    ∃ issued used, net.History issued used := by
  obtain ⟨keys, calls⟩ := reachable.proceeds.calls
  obtain ⟨issued, used, history⟩ := History.calls calls .start
  exact ⟨issued, used, history⟩

/-- No name is handed out twice, and none that a process has or had, whatever the stems are and
whatever was done before, with whatever success. Operations and passes prolong the history of a
network. A fresh name is found behind at most as many candidates as there are taken names, all of
which are taken, and a process that is added under it gets it, unless there is no place for the
process: its name is never refused. -/
theorem History.fresh_unused (history : net.History issued used) :
    issued.Nodup ∧
    (∀ operations, Operation.AllAllowed operations net →
      ∃ more later, (Operation.run operations net).History (issued ++ more) (used ++ later)) ∧
    ∀ stem, ∃ passed ≤ net.names.taken.size, ∃ id next, (Edit.freshId stem).run net = .ok id next ∧
      next.History (issued ++ [id]) (used ++ net.ids) ∧ id ∉ issued ∧ id ∉ used ∧
      id = candidate stem (net.names.next + passed) ∧
      next.names.next = net.names.next + passed + 1 ∧
      (∀ offset < passed, net.names.taken.contains (candidate stem (net.names.next + offset))) ∧
      ∀ kind hierarchy, (∃ after later, (Edit.addFresh stem kind hierarchy).run net = .ok id after ∧
        after.History (issued ++ [id]) (used ++ later)) ∨
        ∃ fault, (Edit.addFresh stem kind hierarchy).run net = .error fault next ∧
          ∀ other, fault ≠ .duplicateId other := by
  obtain ⟨sound, once, taken⟩ := history.known
  refine ⟨once, fun operations allowed => ?_, fun stem => ?_⟩
  · obtain ⟨keys, calls⟩ := (Operation.proceeds_run sound allowed).calls
    exact History.calls calls history
  obtain ⟨passed, bound, isId, isNext, before⟩ := net.names.exists_passed stem
  have unused := net.names.not_contains_fresh stem
  let named : Network := { net with names := (net.names.fresh stem).2 }
  have asked : named.History (issued ++ [(net.names.fresh stem).1]) (used ++ net.ids) :=
    history.call (.freshId stem) trivial
  refine ⟨passed, bound, (net.names.fresh stem).1, named, rfl, asked,
    fun listed => unused (taken _ (mem_append_left _ listed)),
    fun listed => unused (taken _ (mem_append_right _ listed)), isId, isNext, before,
    fun kind hierarchy => ?_⟩
  -- The name is not stored, so only the place of the process can speak against it.
  have absent : named.process? (net.names.fresh stem).1 = none := sound.process?_eq_none unused
  rcases @Edit.addProcess_cases named _ kind hierarchy absent
    with ⟨after, added, -⟩ | ⟨fault, refused, misplaced⟩
  · have stays : (Call.addProcess (net.names.fresh stem).1 kind hierarchy).apply named = after := by
      simp [Call.apply, Call.edit, Edit.after, added]
    have longer := asked.call (Call.addProcess (net.names.fresh stem).1 kind hierarchy) trivial
    rw [stays, append_assoc used] at longer
    exact .inl
      ⟨after, _, added, by simpa only [Call.name?, Option.toList_none, append_nil] using longer⟩
  · exact .inr ⟨fault, refused, by rintro other rfl; cases misplaced⟩

/-- A process named `a11` is removed again after `a10` was handed out. -/
def respelled : Network :=
  Operation.build [.addProcess "a11" .zip {}, .addFresh "a1" .zip {}, .removeProcess "a11"]

/-- When the counter comes to a number that spells, with the stem, the name of the removed process,
this is passed. -/
theorem History.fresh_unused_respelled :
    ∃ issued used id next, respelled.History issued used ∧ issued.Nodup ∧
      (Edit.freshId "a1").run respelled = .ok id next ∧ id = "a12" ∧ id ∉ issued ∧ id ∉ used := by
  have reachable : respelled.Reachable := Reachable.empty.foldl (by simp [Operation.Allowed])
  obtain ⟨issued, used, history⟩ := reachable.exists_history
  obtain ⟨once, -, asks⟩ := history.fresh_unused
  obtain ⟨passed, -, id, next, asked, -, unissued, unused, -⟩ := asks "a1"
  refine ⟨issued, used, id, next, history, once, asked, ?_, unissued, unused⟩
  cases asked
  exact (by decide +kernel : (respelled.names.fresh "a1").1 = "a12")

end Network

end Dataflow
