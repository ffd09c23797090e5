import Dataflow.Proofs.Network.Reachable

/-! A port key is handed out once: it stands for one and the same port as long as that is live, and
for none afterwards. -/

open List

namespace Dataflow

theorem Call.key?_eq_some {net : Network} {call : Call} {key : PortKey}
    (issued : call.key? net = some key) :
    key = net.ports.nextKey ∧ key < (call.apply net).ports.nextKey := by
  have silent {α : Type} {edit : Edit α} (made : call.edit = (fun _ => none) <$> edit) :
      call.key? net = none := by
    rw [key?, made, Edit.run_map]
    cases edit.run net <;> rfl
  cases call with
  | addPort owner name dir dataType =>
    rw [key?, edit, Edit.run_map] at issued
    rw [apply, edit, Edit.after_map, Edit.after]
    cases got : net.process? owner with
    | none => simp [Edit.run_addPort_absent got] at issued
    | some proc =>
      have runs := Edit.run_addPort got name dir dataType
      split at runs
      · simp [runs] at issued
      · simp_all
  | _ => cases (silent rfl).symm.trans issued

namespace Network

variable {net next : Network} {keys : List PortKey}

/-- The given keys are handed out one after the other, from the next one on. -/
structure Issues (net : Network) (keys : List PortKey) (next : Network) :
    Prop extends net.Evolves next where
  ordered : keys.Pairwise (· < ·)
  bounds : ∀ key ∈ keys, net.ports.nextKey ≤ key ∧ key < next.ports.nextKey

theorem Calls.issues (calls : net.Calls keys next) (inv : net.Consistent) :
    net.Issues keys next := by
  induction calls with
  | done net => exact ⟨.refl inv, .nil, by simp⟩
  | @call net next keys call allowed _ ih =>
    have evo := call.evolves_apply inv allowed
    have new := ih evo.inv
    refine ⟨evo.trans new.toEvolves, ?_, fun key mem => ?_⟩
    · cases issued : call.key? net with
      | none => exact new.ordered
      | some key =>
        refine pairwise_cons.mpr ⟨fun other mem => ?_, new.ordered⟩
        exact Nat.lt_of_lt_of_le (Call.key?_eq_some issued).2 (new.bounds other mem).1
    · rcases mem_append.mp mem with here | there
      · obtain ⟨isNext, counted⟩ := Call.key?_eq_some (Option.mem_toList.mp here)
        exact ⟨isNext ▸ Nat.le_refl _, Nat.lt_of_lt_of_le counted new.grows⟩
      · obtain ⟨fresh, counted⟩ := new.bounds key there
        exact ⟨Nat.le_trans evo.grows fresh, counted⟩

end Network

namespace Operation

variable {net : Network}

/-- The network that operations leave one after the other, each of them successful or not. -/
def run (operations : List Operation) (net : Network) : Network :=
  operations.foldl (fun net operation => operation.apply net) net

/-- Each operation is allowed when it is its turn. -/
def AllAllowed : List Operation → Network → Prop
  | [], _ => True
  | operation :: operations, net =>
    operation.Allowed net ∧ AllAllowed operations (operation.apply net)

theorem run_append (earlier new : List Operation) (net : Network) :
    run (earlier ++ new) net = run new (run earlier net) :=
  foldl_append

theorem proceeds_run {ops : List Operation} (inv : net.Consistent) (allowed : AllAllowed ops net) :
    net.Proceeds (run ops net) := by
  induction ops generalizing net with
  | nil => exact .refl inv
  | cons op ops ih =>
    have proceeds := proceeds_apply inv allowed.1
    exact proceeds.trans (ih proceeds.inv allowed.2)

theorem AllAllowed.parts {earlier new : List Operation}
    (allowed : AllAllowed (earlier ++ new) net) :
    AllAllowed earlier net ∧ AllAllowed new (run earlier net) := by
  induction earlier generalizing net with
  | nil => exact ⟨trivial, allowed⟩
  | cons op earlier ih => exact ⟨⟨allowed.1, (ih allowed.2).1⟩, (ih allowed.2).2⟩

/-- A key stands for one port, whatever operations are made and with whatever success.
A port that is live before and after operations is declared as it was, and a key that was handed out
and has no port does not get one again. The keys with which adding a port answers on the way, on its
own or as a part of another operation, differ from each other, from those of the network at the
start and from those that come later. -/
theorem run_keeps_handles {earlier later : List Operation} (wellFormed : net.WellFormed)
    (allowed : AllAllowed (earlier ++ later) net)
    (few : (run (earlier ++ later) net).ports.nextKey < UInt32.size) :
    (∀ key port again, (run earlier net).port? key = some port →
      (run (earlier ++ later) net).port? key = some again →
      again.name = port.name ∧ again.owner = port.owner ∧ again.direction = port.direction ∧
      again.dataType = port.dataType) ∧
    (∀ key, key < (run earlier net).ports.nextKey → (run earlier net).port? key = none →
      (run (earlier ++ later) net).port? key = none) ∧
    (∃ before behind, net.Calls before (run earlier net) ∧
      (run earlier net).Calls behind (run (earlier ++ later) net)) ∧
    ∀ before behind, net.Calls before (run earlier net) →
      (run earlier net).Calls behind (run (earlier ++ later) net) →
      (before ++ behind).Nodup ∧
      (∀ key ∈ before ++ behind, net.ports.nextKey ≤ key ∧ key < UInt32.size) ∧
      ∀ owner name direction dataType key next,
        (Edit.addPort owner name direction dataType).run (run (earlier ++ later) net) =
          .ok key next → key ∉ before ++ behind ∧ net.ports.nextKey ≤ key := by
  obtain ⟨first, second⟩ := allowed.parts
  have start := proceeds_run wellFormed.toConsistent first
  have onwards := proceeds_run start.inv second
  rw [run_append] at few ⊢
  refine ⟨fun key port again live liveAgain => ?_, fun key old freed => ?_, ?_,
    fun before behind calls callsOn => ?_⟩
  · have same := of_found live (onwards.stable (Network.lt_nextKey live) liveAgain)
    exact Port.unlinked_eq.mp same.symm
  · refine Option.eq_none_iff_forall_ne_some.mpr fun port found => ?_
    obtain ⟨former, foundFormer, -⟩ := onwards.stable old found
    rw [freed] at foundFormer
    cases foundFormer
  · obtain ⟨before, calls⟩ := start.calls
    obtain ⟨behind, callsOn⟩ := onwards.calls
    exact ⟨before, behind, calls, callsOn⟩
  · have issues := (calls.append callsOn).issues wellFormed.toConsistent
    refine ⟨issues.ordered.imp Nat.ne_of_lt, fun key listed => ?_,
      fun owner name direction dataType key next runs => ?_⟩
    · obtain ⟨fresh, counted⟩ := issues.bounds key listed
      exact ⟨fresh, Nat.lt_trans counted few⟩
    · -- The answer is the next key, which none of the earlier answers reaches.
      have issued : (Call.addPort owner name direction dataType).key?
          (run later (run earlier net)) = some key := by
        rw [Call.key?, Call.edit, Edit.run_map, runs]
      rw [(Call.key?_eq_some issued).1]
      exact ⟨fun listed => Nat.lt_irrefl _ (issues.bounds _ listed).2, issues.grows⟩

/-- Two copiers in a row, of which the second one is then replaced by a third one; the first one
cannot be removed. -/
theorem run_keeps_handles_moved :
    let earlier : List Operation :=
      [.addProcess "a" .fanout {}, .addProcess "b" .fanout {}, .addPort "a" "in" .input none,
        .addPort "a" "out" .output none, .addPort "b" "in" .input none,
        .addPort "b" "out" .output none, .connect 1 2, .addInput 0, .addOutput 3]
    let later : List Operation :=
      [.addProcess "c" .fanout {}, .redirect "b" "b" "c" "c", .removeProcess "b",
        .removeProcess "a"]
    (run (earlier ++ later) {}).ports.nextKey < UInt32.size ∧ ((run earlier {}).port? 2).isSome ∧
      ((run (earlier ++ later) {}).port? 2).isNone ∧ ((run (earlier ++ later) {}).port? 1).isSome ∧
      ∃ before behind, Network.Calls {} before (run earlier {}) ∧
        (run earlier {}).Calls behind (run (earlier ++ later) {}) ∧ (before ++ behind).Nodup := by
  intro earlier later
  have few : (run (earlier ++ later) {}).ports.nextKey < UInt32.size := by decide +kernel
  have wellFormed : ({} : Network).WellFormed := Network.Reachable.empty.wellFormed (by decide)
  have allowed : AllAllowed (earlier ++ later) {} := by simp [earlier, later, AllAllowed, Allowed]
  obtain ⟨-, -, ⟨before, behind, calls, callsOn⟩, distinct⟩ :=
    run_keeps_handles wellFormed allowed few
  exact ⟨few, by decide +kernel,
    by decide +kernel,
    by decide +kernel, before, behind, calls, callsOn, (distinct before behind calls callsOn).1⟩

end Operation

end Dataflow
