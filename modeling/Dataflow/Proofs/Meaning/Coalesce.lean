import Dataflow.Proofs.Meaning.Fusion
import Dataflow.Proofs.Meaning.Thread
import Dataflow.Proofs.Transform.Coalesced

/-! When the replacement of the branches of data-parallel sections by single processes keeps the
meaning of a network. -/

open List

namespace Dataflow

universe u

variable {Value : Type u} {model : Interpretation Value} {value : PortKey → Value}

theorem Interpretation.applyAll_append (model : Interpretation Value) (first second : List Func)
    (value : Value) :
    model.applyAll (first ++ second) value = model.applyAll second (model.applyAll first value) :=
  foldl_append

namespace Network

variable {net next : Network} {id first last : ProcessId} {chain : List ProcessId}
  {region : Section}
  {chains : List (List ProcessId)} {entry exit : PortKey} {front back : Process}

/-- No process of a chain works on the elements of arrays one by one. -/
def Scalar (net : Network) (chain : List ProcessId) : Prop :=
  ∀ id ∈ chain, (net.kindOf id).isParallelMap = false

theorem Scalar.threads_iff (scalar : net.Scalar chain) (shaped : ∀ id ∈ chain, net.isMapShaped id)
    (input out : Value) :
    Threads model.Relates net chain input out ↔
      out = model.applyAll (net.functionsOf chain) input := by
  induction chain generalizing input with
  | nil => rfl
  | cons id chain ih =>
    have here (between : Value) : model.Relates id [input] [between] (net.kindOf id) ↔ _ :=
      Interpretation.relates_map ((net.isMapShaped_eq id).symm.trans (shaped id mem_cons_self))
        (scalar id mem_cons_self) ..
    have behind :=
        ih (fun other listed => scalar other (mem_cons_of_mem _ listed)) fun other listed =>
      shaped other (mem_cons_of_mem _ listed)
    have fns :
      net.functionsOf (id :: chain) = (net.kindOf id).functions ++ net.functionsOf chain := rfl
    simp only [Threads, here, behind, fns, Interpretation.applyAll_append, exists_eq_left]

theorem scalar_of_threads (shaped : ∀ id ∈ chain, net.isMapShaped id) {out : Token}
    (threads : Threads Token.idle.Relates net chain (.atom 0) out) : net.Scalar chain := by
  induction chain with
  | nil => simp [Scalar]
  | cons id chain ih =>
    obtain ⟨between, relates, threads⟩ := threads
    have scalar : (net.kindOf id).isParallelMap = false := by
      cases kind : net.kindOf id with
      | parallelMap branches fns =>
        rw [kind] at relates
        obtain ⟨elements, -, isArray, -⟩ := relates
        cases (List.cons.inj isArray).1
      | _ => rfl
    rw [Interpretation.relates_map ((net.isMapShaped_eq id).symm.trans (shaped id mem_cons_self))
      scalar, Token.applyAll_idle] at relates
    subst relates
    exact forall_mem_cons.mpr
      ⟨scalar, ih (fun other listed => shaped other (mem_cons_of_mem _ listed)) threads⟩

theorem relates_coalesced (net : Network) (chain : List ProcessId) (id : ProcessId)
    (input out : Value) :
    model.Relates id [input] [out] (net.coalesced chain) ↔
      out = model.applyAll (net.functionsOf chain) input :=
  @Interpretation.relates_map _ _ (net.coalesced chain) rfl rfl id input out

/-- The values that a chain lets through, from the in-port of its first process to the out-port of
its last one. -/
def PassesChain (model : Interpretation Value) (net : Network) (chain : List ProcessId)
    (input output : Value) : Prop :=
  ∃ first last front back entry exit, chain.head? = some first ∧ chain.getLast? = some last ∧
    net.process? first = some front ∧ front.inPorts = [entry] ∧ net.process? last = some back ∧
    back.outPorts = [exit] ∧ model.Passes net chain entry exit input output

namespace Bundle

section

variable (bundle : net.Bundle region chains) (inv : net.Consistent) (listed : chain ∈ chains)

include bundle inv listed

theorem passesChain_iff (input out : Value) :
    PassesChain model net chain input out ↔ Threads model.Relates net chain input out := by
  obtain ⟨proc, key, -, -, -, branch⟩ := bundle.exists_branch listed
  have line := branch.line
  constructor
  · rintro ⟨first, last, front, back, entry, exit, starts, stops, got, ins, gotLast, outs, passes⟩
    exact (line.lets_iff inv starts stops (bundle.not_feeds inv listed starts stops) got ins
      gotLast outs).mp
      passes
  · intro threads
    obtain ⟨first, starts⟩ := branch.exists_first
    obtain ⟨last, stops, -⟩ := branch.leaves
    obtain ⟨front, entry, -, got, ins, -⟩ := line.simple first (mem_of_head? starts)
    obtain ⟨back, -, exit, gotLast, -, outs⟩ := line.simple last (mem_of_getLast? stops)
    refine ⟨first, last, front, back, entry, exit, starts, stops, got, ins, gotLast, outs, ?_⟩
    exact (line.lets_iff inv starts stops (bundle.not_feeds inv listed starts stops) got ins gotLast
      outs).mpr threads

theorem scalar_iff :
    net.Scalar chain ↔
      ∀ (Value : Type) (model : Interpretation Value) (id : ProcessId) (input out : Value),
        PassesChain model net chain input out ↔
          model.Relates id [input] [out] (net.coalesced chain) := by
  obtain ⟨proc, key, -, -, -, branch⟩ := bundle.exists_branch listed
  constructor
  · intro scalar Value model id input out
    rw [relates_coalesced, bundle.passesChain_iff inv listed, scalar.threads_iff branch.shaped]
  · intro equivalent
    have relates : Token.idle.Relates "" [.atom 0] [.atom 0] (net.coalesced chain) := by
      refine ⟨.atom 0, rfl, ?_⟩
      rw [Token.applyAll_idle]
      rfl
    have passes := (equivalent Token Token.idle "" _ _).mpr relates
    exact scalar_of_threads branch.shaped ((bundle.passesChain_iff inv listed _ _).mp passes)

end

end Bundle

theorem Renamed.preserves (renamed : net.Renamed next) (evo : net.Evolves next) :
    Preserves model.Relates net next := by
  refine ⟨evo, fun got => .inl ?_, fun value solves => ⟨value, ?_, ?_⟩, fun value solves =>
    ⟨value, ?_, ?_⟩⟩ <;>
    rw [renamed] at *
  · exact got
  · exact ⟨solves.connected, solves.related⟩
  · exact ⟨fun _ _ => rfl, rfl, rfl⟩
  · exact ⟨solves.connected, solves.related⟩
  · exact ⟨fun _ _ => rfl, rfl, rfl⟩

theorem CoalescesTo.preserves {part : Contraction} {cur : Network}
    (coalesces : net.CoalescesTo cur part next) (scalar : net.Scalar part.chain) :
    Preserves model.Relates cur next := by
  obtain ⟨region, chains, first, last, entry, exit, hier, bundle, listed, starts, stops, -, kind,
      exc, repl⟩ :=
    coalesces.replaced
  have inv := coalesces.ready.inv
  obtain ⟨proc, key, -, -, -, branch⟩ := bundle.exists_branch listed
  obtain ⟨front, gotFirst, ins⟩ := exc.starts
  obtain ⟨back, gotLast, outs⟩ := exc.stops
  have scalarNow : cur.Scalar part.chain := fun id isMem => by
    rw [kindOf, coalesces.same id isMem]
    exact scalar id isMem
  refine repl.preserves inv coalesces.ready.legal exc (branch.line.closes inv starts gotFirst ins)
    fun input out => ?_
  rw [branch.line.lets_iff inv starts stops (bundle.not_feeds inv listed starts stops) gotFirst ins
    gotLast outs, scalarNow.threads_iff branch.shaped, kind, relates_coalesced]

/--
When the replacement of the branches of data-parallel sections by single processes keeps the
meaning.

A branch lets through the same values as the process in its place, whatever values are, exactly if
it has no parallel map. If no branch that is replaced has one, the networks before and after have
the same solutions. This holds also where the replacement stops at a fault.
-/
theorem coalesceDataParallel_meaning (wellFormed : net.WellFormed) (valid : net.validate = []) :
    (∀ region chains, net.Coalesces region chains →
      ∀ chain ∈ chains, (net.Scalar chain ↔
        ∀ (Value : Type) (model : Interpretation Value) (id : ProcessId) (input output : Value),
          PassesChain model net chain input output ↔
            model.Relates id [input] [output] (net.coalesced chain))) ∧
    ((∀ region chains, net.Coalesces region chains → ∀ chain ∈ chains, net.Scalar chain) →
      ∀ (Value : Type u) (model : Interpretation Value),
        SameMeaning model net (Edit.coalesceDataParallel.after net)) := by
  -- Branches are replaced one after the other, and each replacement keeps the meaning.
  have consistent := wellFormed.toConsistent
  have legal := consistent.validate_eq_nil_iff.mp valid
  have ready := wellFormed.ready legal
  obtain ⟨regions, notes, asked, pending, -, -⟩ := ready.dataParallelSections_eq
  constructor
  · rintro region chains ⟨again, notesAgain, length, askedAgain, listed, -, branches⟩ chain isChain
    rw [asked] at askedAgain
    cases askedAgain
    obtain ⟨found, isSealed, -⟩ := pending.bundles _ listed
    rw [isSealed.branchChains_eq consistent] at branches
    cases branches
    exact isSealed.toBundle.scalar_iff consistent isChain
  · intro scalar Value model
    have ends :=
      ready.ends_coalesceDataParallel (Preserves model.Relates net) (fun preserves coalesces => by
        obtain ⟨region, chains, replaces, isChain⟩ := coalesces.member
        exact preserves.trans (coalesces.preserves (scalar region chains replaces _ isChain)))
        (.refl consistent)
    have ends : Edit.coalesceDataParallel.Ends net (fun _ next => Preserves model.Relates net next)
        (Preserves model.Relates net) :=
      ends.mono (fun _ _ done => done.2.2.1) fun _ ⟨_, _, preserves, renamed, evolves⟩ =>
        preserves.trans (renamed.preserves evolves)
    exact ends.after.equivalent consistent

/-- Two branches of two processes each, of which the first ones are of the given kind. -/
def twoStages (kind : Kind Composite) : Network :=
  Operation.build
    (Operation.addAll none [("u", .unzip, ["in"], ["out0", "out1"]), ("a", kind, ["in"], ["out"]),
        ("b", .map increment, ["in"], ["out"]), ("c", kind, ["in"], ["out"]),
        ("d", .map increment, ["in"], ["out"]), ("z", .zip, ["in0", "in1"], ["out"])] ++
      [.connect 1 3, .connect 2 7, .connect 4 5, .connect 8 9, .connect 6 11, .connect 10 12,
        .addInput 0, .addOutput 13])

theorem consistent_twoStages (kind : Kind Composite) : (twoStages kind).Consistent :=
  (Reachable.empty.foldl (by simp [Operation.Allowed])).inv

/-- Branches that apply three functions in two processes keep their meaning when one process does
it. -/
theorem coalesceDataParallel_meaning_scalar :
    (twoStages (.coalescedMap [increment, increment])).WellFormed ∧
    (twoStages (.coalescedMap [increment, increment])).validate = [] ∧
    (match Edit.coalesceDataParallel.run (twoStages (.coalescedMap [increment, increment])) with
      | .ok report next => decide (report.applied = 1 ∧ next.size = 4)
      | .error _ _ => false) = true ∧
    ∀ (Value : Type) (model : Interpretation Value),
      SameMeaning model (twoStages (.coalescedMap [increment, increment]))
        (Edit.coalesceDataParallel.after (twoStages (.coalescedMap [increment, increment]))) := by
  have wellFormed : (twoStages (.coalescedMap [increment, increment])).WellFormed :=
    ⟨consistent_twoStages _, by decide +kernel⟩
  have valid : (twoStages (.coalescedMap [increment, increment])).validate = [] :=
    List.isEmpty_iff.mp (by decide +kernel)
  refine ⟨wellFormed, valid, by decide +kernel,
    (coalesceDataParallel_meaning wellFormed valid).2 ?_⟩
  rintro region chains ⟨regions, notes, length, asked, listed, -, branches⟩
  -- There is one section, and none of its processes is a parallel map.
  have regionsFound :
      (twoStages (.coalescedMap [increment, increment])).dataParallelSections.toOption.map (·.1) =
      some [(⟨"u", "z"⟩, 2)] := by decide +kernel
  rw [asked] at regionsFound
  obtain rfl : regions = [(⟨"u", "z"⟩, 2)] := by simpa [Except.toOption] using regionsFound
  obtain ⟨rfl, rfl⟩ : region = ⟨"u", "z"⟩ ∧ length = 2 := by simpa using listed
  have chainsFound :
      ((twoStages (.coalescedMap [increment, increment])).branchChains ⟨"u", "z"⟩).toOption =
      some [["a", "b"], ["c", "d"]] := by decide +kernel
  rw [branches] at chainsFound
  obtain rfl : chains = [["a", "b"], ["c", "d"]] := by simpa [Except.toOption] using chainsFound
  have scalar : ([["a", "b"], ["c", "d"]].all fun chain => chain.all fun id =>
      !((twoStages (.coalescedMap [increment, increment])).kindOf id).isParallelMap) = true := by
      decide +kernel
  simpa [Scalar] using scalar

end Network

/-- Functions that put their argument into an array. -/
def Token.wrap : Interpretation Token where
  array := .array
  array_injective _ _ same := Token.array.inj same
  apply _ arguments := .array arguments
  stored _ := .atom 0

namespace Network

/-- Values at the ports of two branches that wrap each element of an array and then the array. -/
def stagedValue (key : PortKey) : Token :=
  let elements := Token.array [.atom 0, .atom 1]
  let wrapped := Token.array [.array [.atom 0], .array [.atom 1]]
  if key = 0 then .array [elements, elements]
  else if key ∈ [1, 2, 3, 7] then elements
  else if key ∈ [4, 5, 8, 9] then wrapped
  else if key ∈ [6, 10, 11, 12] then .array [wrapped]
  else .array [.array [wrapped], .array [wrapped]]

theorem solves_stagedValue :
    Token.wrap.Solves (twoStages (.parallelMap 2 [increment])) stagedValue := by
  -- Every connection joins two ports at the same stage.
  have joined : ((List.range (twoStages (.parallelMap 2 [increment])).ports.nextKey).all fun key =>
      ((twoStages (.parallelMap 2 [increment])).port? key).all fun port =>
      port.connection.all fun other =>
        key ≠ 0 ∧ other ≠ 0 ∧ (key ∈ [1, 2, 3, 7] ↔ other ∈ [1, 2, 3, 7]) ∧
        (key ∈ [4, 5, 8, 9] ↔ other ∈ [4, 5, 8, 9]) ∧
        (key ∈ [6, 10, 11, 12] ↔ other ∈ [6, 10, 11, 12])) = true := by decide +kernel
  have entries : (twoStages (.parallelMap 2 [increment])).processes.toList =
      [("a", ⟨.parallelMap 2 [increment], {}, [3], [4]⟩), ("b", ⟨.map increment, {}, [5], [6]⟩),
        ("c", ⟨.parallelMap 2 [increment], {}, [7], [8]⟩), ("d", ⟨.map increment, {}, [9], [10]⟩),
        ("u", ⟨.unzip, {}, [0], [1, 2]⟩), ("z", ⟨.zip, {}, [11, 12], [13]⟩)] := by
    decide +kernel
  refine .of_entries joined ?_ entries ?_
  · rintro key other ⟨notFirst, notFirstOther, entering, between, leaving⟩
    simp only [stagedValue, notFirst, notFirstOther, if_false, entering, between, leaving]
  · simp only [forall_mem_cons]
    exact ⟨⟨[.atom 0, .atom 1], rfl, rfl, rfl⟩, ⟨_, rfl, rfl⟩, ⟨[.atom 0, .atom 1], rfl, rfl, rfl⟩,
      ⟨_, rfl, rfl⟩, rfl, rfl, forall_mem_nil _⟩

/-- Branches with a parallel map are replaced by processes that work on whole arrays, which is not
what the branches do. -/
theorem coalesceDataParallel_meaning_parallel :
    (twoStages (.parallelMap 2 [increment])).WellFormed ∧
    (twoStages (.parallelMap 2 [increment])).validate = [] ∧
    ∃ report next,
      Edit.coalesceDataParallel.run (twoStages (.parallelMap 2 [increment])) = .ok report next ∧
      report.applied = 1 ∧
      ¬ SameMeaning Token.wrap (twoStages (.parallelMap 2 [increment])) next := by
  refine ⟨⟨consistent_twoStages _, by decide +kernel⟩, List.isEmpty_iff.mp (by decide +kernel), ?_⟩
  have replaced : Edit.coalesceDataParallel.succeeds (twoStages (.parallelMap 2 [increment]))
      (fun report next => report.applied = 1 ∧ next.process? "u" = some ⟨.unzip, {}, [0], [1, 2]⟩ ∧
        next.process? "z" = some ⟨.zip, {}, [11, 12], [13]⟩ ∧
        next.process? "_coalesced0" = some ⟨.coalescedMap [increment, increment], {}, [14], [15]⟩ ∧
        (next.port? 14).bind (·.connection) = some 1 ∧
        (next.port? 15).bind (·.connection) = some 11) := by decide +kernel
  obtain ⟨report, next, runs, applied, unzip, zip, stored, enters, leaves⟩ :=
    Edit.exists_run_of_succeeds replaced
  refine ⟨report, next, runs, applied, fun same => ?_⟩
  obtain ⟨after, solves, agree⟩ := same.forth stagedValue solves_stagedValue
  have unzipBefore : (twoStages (.parallelMap 2 [increment])).process? "u" =
      some ⟨.unzip, {}, [0], [1, 2]⟩ := by
    decide +kernel
  have zipBefore : (twoStages (.parallelMap 2 [increment])).process? "z" =
      some ⟨.zip, {}, [11, 12], [13]⟩ := by
    decide +kernel
  -- What the unzip emits and what the zip gets is as before.
  have emitted := agree.outs unzipBefore unzip
  have received := agree.ins zipBefore zip
  simp only [map_cons, map_nil, List.cons.injEq, and_true] at emitted received
  obtain ⟨port, found, connected⟩ := Option.bind_eq_some_iff.mp enters
  obtain ⟨peer, foundPeer, connectedPeer⟩ := Option.bind_eq_some_iff.mp leaves
  -- But the process in between wraps the whole array twice.
  obtain ⟨value, isInput, isOutput⟩ := solves.related stored
  simp only [map_cons, map_nil, List.cons.injEq, and_true] at isInput isOutput
  rw [← isInput, solves.connected found connected, ← emitted.1,
    solves.connected foundPeer connectedPeer, ← received.1] at isOutput
  simp [stagedValue, Interpretation.applyAll, Token.wrap] at isOutput

end Network

end Dataflow
