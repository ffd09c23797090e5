import Dataflow.Proofs.Meaning.Elementwise
import Dataflow.Proofs.Network.Reachable

/-! When the replacement of data-parallel sections by parallel maps keeps the meaning of a
network. -/

open List

namespace Dataflow

universe u

/-- Values that are nothing but themselves, or arrays. -/
inductive Token where
  /-- A value without parts. -/
  | atom (number : Nat)
  /-- An array. -/
  | array (elements : List Token)

namespace Token

/-- Functions that do nothing. -/
def idle : Interpretation Token where
  array := .array
  array_injective _ _ same := Token.array.inj same
  apply _ arguments := arguments.headD (.atom 0)
  stored _ := .atom 0

theorem applyAll_idle (fns : List Func) : idle.applyAll fns = id := by
  induction fns with
  | nil => rfl
  | cons fn fns ih => exact ih

/-- As many different atoms as wanted. -/
def atoms (count : Nat) : List Token :=
  (List.range count).map .atom

end Token

namespace Network

variable {net next : Network} {id : ProcessId} {region : Section} {chains : List (List ProcessId)}
  {opener closer : Process}
  {entry exit : PortKey}

theorem Sealed.elementwise (isSealed : net.Sealed region chains) (unif : net.Uniform chains 1)
    (ready : net.Ready) (got : net.process? region.start = some opener)
    (ins : opener.inPorts = [entry]) (gotStop : net.process? region.stop = some closer)
    (outs : closer.outPorts = [exit])
    (passes : Token.idle.Passes net (region.members chains) entry exit
      (.array (Token.atoms chains.length)) (.array (Token.atoms chains.length))) :
    net.Elementwise region chains := by
  have inv := ready.inv
  have bundle := isSealed.toBundle
  obtain ⟨val, within, atEntry, atExit⟩ := passes
  have unzips : opener.outPorts.map val = Token.atoms chains.length := by
    have rel := within.related got Section.start_mem
    simp only [bundle.kind_start got, ins, map_singleton, Interpretation.Relates, List.cons.injEq,
      and_true, atEntry]
      at rel
    exact (Token.array.inj rel).symm
  have zips : closer.inPorts.map val = Token.atoms chains.length := by
    have rel := within.related gotStop Section.stop_mem
    simp only [bundle.kind_stop gotStop, outs, map_singleton, Interpretation.Relates,
      List.cons.injEq, and_true, atExit]
      at rel
    exact (Token.array.inj rel).symm
  have singles := bundle.singles inv unif got
  -- A parallel map would want an array, but gets an atom.
  have scalar : ∀ chain ∈ chains, ∀ id ∈ chain, (net.kindOf id).isParallelMap = false :=
      fun chain mem id onChain => by
    obtain ⟨out, isOut, -, -, only, proc, first, last, single⟩ := exists_of_forall₂ singles mem
    have entering := single.value_entry within inv got isOut mem
    obtain rfl : id = only := by simpa [single.alone] using onChain
    have isAtom : val out ∈ Token.atoms chains.length := unzips ▸ mem_map_of_mem isOut
    obtain ⟨number, -, atOut⟩ := mem_map.mp isAtom
    have rel := within.related single.stored (Section.mem_members_of_mem mem onChain)
    rw [single.ins, map_singleton, ← entering, ← atOut] at rel
    cases kind : proc.kind with
    | parallelMap branches fns =>
      rw [kind] at rel
      obtain ⟨elements, -, isArray, -⟩ := rel
      cases (List.cons.inj isArray).1
    | _ => simp [kindOf, single.stored, kind, Kind.isParallelMap]
  refine ⟨⟨closer, gotStop, forall₂_iff_get.mpr ⟨?_, fun idx bound boundIns => ?_⟩⟩, scalar⟩
  · have lengths := congrArg List.length zips
    simpa [Token.atoms, eq_comm] using lengths
  have pos (keys : List PortKey) (mapped : keys.map val = Token.atoms chains.length) (idx : Nat)
      (bound : idx < keys.length) : val (keys.get ⟨idx, bound⟩) = .atom idx := by
    have here := congrArg (fun values => values[idx]?) mapped
    have short : idx < chains.length := by
      have lengths := congrArg List.length mapped
      simp [Token.atoms] at lengths
      omega
    simpa [Token.atoms, bound, short] using here
  obtain ⟨counted, paired⟩ := forall₂_iff_get.mp singles
  obtain ⟨isOut, mem, id, proc, first, last, single⟩ := paired idx (counted ▸ bound) bound
  have onChain : id ∈ chains.get ⟨idx, bound⟩ := single.alone ▸ mem_cons_self
  have shaped := bundle.isMapShaped mem onChain
  have kind : net.kindOf id = proc.kind := by simp [kindOf, single.stored]
  have rel := within.related single.stored (Section.mem_members_of_mem mem onChain)
  rw [single.ins, single.outs, map_singleton, map_singleton,
    Interpretation.relates_map (kind ▸ net.isMapShaped_eq id ▸ shaped)
    (kind ▸ scalar _ mem id onChain), Token.applyAll_idle,
    ← single.value_entry within inv got isOut mem, pos _ unzips] at rel
  obtain ⟨opening, key, -, -, -, branch⟩ := bundle.exists_branch mem
  obtain ⟨too, isLast, near, port, into, peer, has, leaves, conn, hasPeer, rfl, owned⟩ :=
    branch.leaves
  obtain rfl : id = port.owner := by
    rw [single.alone] at isLast
    simpa using isLast
  have delivers : net.Delivers port.owner into := ⟨near, port, has, rfl, leaves, conn⟩
  have isInto := inv.mem_ports gotStop hasPeer owned
  rw [inv.linked.crosses has conn hasPeer leaves] at isInto
  obtain ⟨other, rfl⟩ := mem_iff_get.mp isInto
  have arrives := single.value_exit within inv gotStop isInto mem delivers
  obtain rfl : idx = other :=
    Token.atom.inj ((rel.symm.trans arrives).trans (pos _ zips _ other.isLt))
  exact ⟨port.owner, isLast, delivers⟩

/-- The values that a section lets through, from the in-port of its start to the out-port of its
stop. -/
def PassesSection {Value : Type u} (model : Interpretation Value) (net : Network) (region : Section)
    (chains : List (List ProcessId)) (input output : Value) : Prop :=
  ∃ opener closer entry exit, net.process? region.start = some opener ∧ opener.inPorts = [entry] ∧
    net.process? region.stop = some closer ∧ closer.outPorts = [exit] ∧
    model.Passes net (region.members chains) entry exit input output

theorem Sealed.elementwise_iff (isSealed : net.Sealed region chains) (unif : net.Uniform chains 1)
    (ready : net.Ready) :
    net.Elementwise region chains ↔
      ∀ (Value : Type) (model : Interpretation Value) (input out : Value),
        PassesSection model net region chains input out ↔
          model.Relates region.start [input] [out] (net.fused chains) := by
  obtain ⟨entry, exit, exc⟩ := isSealed.excisable ready.inv ready.legal
  obtain ⟨opener, got, ins⟩ := exc.starts
  obtain ⟨closer, gotStop, outs⟩ := exc.stops
  constructor
  · intro elementwise Value model input out
    constructor
    · rintro ⟨opener, closer, entry, exit, got, ins, gotStop, outs, passes⟩
      exact elementwise.relates_of_passes isSealed unif ready got ins gotStop outs
        region.start passes
    · intro relates
      exact ⟨opener, closer, entry, exit, got, ins, gotStop, outs,
        elementwise.passes_of_relates isSealed unif ready exc got ins gotStop outs
        region.start relates⟩
  · intro equivalent
    have relates : Token.idle.Relates region.start [.array (Token.atoms chains.length)]
        [.array (Token.atoms chains.length)]
        (net.fused chains) := by
      refine ⟨Token.atoms chains.length, ?_, rfl, ?_⟩
      · simp [Token.atoms, ready.toNat_ofNat_length isSealed.toBundle]
      · rw [Token.applyAll_idle, map_id]
        rfl
    obtain ⟨opener, closer, entry, exit, got, ins, gotStop, outs, passes⟩ :=
      (equivalent Token Token.idle _ _).mpr relates
    exact isSealed.elementwise unif ready got ins gotStop outs passes

theorem Replaced.elementwise {start stop fresh : ProcessId} {gone : List ProcessId}
    {kind : Kind Composite} {hier : Hierarchy}
    (repl : net.Replaced gone entry exit fresh kind hier next) (inv : net.Consistent)
    (exc : net.Excisable start stop gone entry exit) (elementwise : net.Elementwise region chains)
    (bundle : net.Bundle region chains) (stays : ∀ id ∈ region.members chains, id ∉ gone) :
    next.Elementwise region chains := by
  obtain ⟨closer, gotStop, lanes⟩ := elementwise.lanes
  have stopStays := stays region.stop Section.stop_mem
  refine ⟨⟨closer, repl.process_of gotStop stopStays, (forall₂_mem lanes).imp ?_⟩,
    fun chain mem id onChain => ?_⟩
  · rintro chain key ⟨mem, isKey, id, isLast, out, port, has, owned, leaves, conn⟩
    obtain ⟨peer, hasPeer, ownedPeer, -⟩ := inv.listed_in gotStop isKey
    have idStays := stays id (Section.mem_members_of_mem mem (mem_of_getLast? isLast))
    refine ⟨id, isLast, out, _, repl.port_of has (owned ▸ idStays), owned, leaves, ?_⟩
    rw [conn, Option.bind_some, exc.rewire_of inv hasPeer (ownedPeer ▸ stopStays)]
  · obtain ⟨proc, key, -, -, -, branch⟩ := bundle.exists_branch mem
    obtain ⟨member, -, -, got, -⟩ := branch.line.simple id onChain
    have new := repl.process_of got (stays id (Section.mem_members_of_mem mem onChain))
    have scalar := elementwise.scalar chain mem id onChain
    simpa [kindOf, got, new] using scalar

/-- A section that is replaced by a parallel map, with its branches. -/
def Fuses (net : Network) (region : Section) (chains : List (List ProcessId)) : Prop :=
  ∃ regions notes, net.dataParallelSections = .ok (regions, notes) ∧ (region, 1) ∈ regions ∧
    net.branchChains region = .ok chains

/-- What is left of the replacement of elementwise sections when some of them have been replaced. -/
structure Fusing {Value : Type u} (model : Interpretation Value) (net : Network)
    (regions : List (Section × Nat)) (next : Network) : Prop where
  ready : next.Ready
  pending : next.Pending regions
  elementwise : ∀ entry ∈ regions, entry.2 = 1 →
    ∀ chains, next.Bundle entry.1 chains → next.Elementwise entry.1 chains
  preserves : Preserves model.Relates net next

/-- A section that is replaced has one process on each branch, and the replacement goes on with the
others. -/
theorem Fusing.step {Value : Type u} {model : Interpretation Value} {rest : List (Section × Nat)}
    {mid : Network} (fusing : Fusing model net ((region, 1) :: rest) mid)
    (runs : (Edit.fuseSection region).run mid = .ok () next) : Fusing model net rest next := by
  have ready := fusing.ready
  obtain ⟨chains, entry, exit, fresh, hier, isSealed, unif, exc, repl, readyNext, pending⟩ :=
    fusing.pending.step ready runs
  have elementwise := fusing.elementwise _ mem_cons_self rfl chains isSealed.toBundle
  obtain ⟨opener, got, ins⟩ := exc.starts
  obtain ⟨closer, gotStop, outs⟩ := exc.stops
  refine ⟨readyNext, pending, fun entry mem short has bundle => ?_, ?_⟩
  · -- The branches are the same as before.
    obtain ⟨pre, sealedPre, -⟩ := fusing.pending.bundles entry (mem_cons_of_mem _ mem)
    have outside : ∀ id ∈ entry.1.members pre, id ∉ region.members chains := fun id isMem =>
      fusing.pending.disjoint ready isSealed.toBundle mem sealedPre.toBundle isMem
    have new := repl.sealed ready.inv exc sealedPre outside
    obtain rfl : pre = has := Except.ok.inj
      ((new.branchChains_eq repl.inv).symm.trans (bundle.branchChains_eq repl.inv))
    exact repl.elementwise ready.inv exc
      (fusing.elementwise entry (mem_cons_of_mem _ mem) short pre sealedPre.toBundle)
        sealedPre.toBundle outside
  · refine fusing.preserves.trans (repl.preserves ready.inv ready.legal exc
      (elementwise.closes isSealed.toBundle ready.inv got ins) fun input out =>
        ⟨fun passes => ?_, fun relates => ?_⟩)
    · exact elementwise.relates_of_passes isSealed unif ready got ins gotStop outs fresh passes
    · exact elementwise.passes_of_relates isSealed unif ready exc got ins gotStop outs fresh relates

/--
When the replacement of data-parallel sections by parallel maps keeps the meaning.

A replaced section lets through the same values as its parallel map, whatever values are, exactly if
it is elementwise. If all replaced sections are elementwise, the networks before and after have the
same solutions. Parallel maps and unzips take arrays of exactly as many elements as they have
branches and out-ports.
-/
theorem fuseSections_meaning (wellFormed : net.WellFormed) (valid : net.validate = [])
    {report : Report} (runs : Edit.fuseSections.run net = .ok report next) :
    (∀ region chains, net.Fuses region chains →
      (net.Elementwise region chains ↔
        ∀ (Value : Type) (model : Interpretation Value) (input output : Value),
          PassesSection model net region chains input output ↔
            model.Relates region.start [input] [output] (net.fused chains))) ∧
    ((∀ region chains, net.Fuses region chains → net.Elementwise region chains) →
      ∀ (Value : Type u) (model : Interpretation Value), SameMeaning model net next) := by
  -- Every section waits unchanged until it is fused, so the meaning is kept step by step.
  have consistent := wellFormed.toConsistent
  have legal := consistent.validate_eq_nil_iff.mp valid
  have ready := wellFormed.ready legal
  obtain ⟨regions, notes, asked, pending, -, -⟩ := ready.dataParallelSections_eq
  constructor
  · rintro region chains ⟨again, notesAgain, askedAgain, listed, branches⟩
    rw [asked] at askedAgain
    cases askedAgain
    obtain ⟨found, isSealed, uniform⟩ := pending.bundles _ listed
    rw [isSealed.branchChains_eq consistent] at branches
    cases branches
    exact isSealed.elementwise_iff uniform ready
  · intro elementwise Value model
    have start : Fusing model net regions net := by
      refine ⟨ready, pending, fun (region, length) listed single chains bundle =>
        elementwise region chains ?_, .refl consistent⟩
      obtain rfl : length = 1 := single
      exact ⟨regions, notes, asked, listed, bundle.branchChains_eq consistent⟩
    have fusing :=
      (of_run_fuseSections (fun rest middle => Fusing model net rest middle) legal asked runs start
        fun fusing fuses => fusing.step fuses).1
    exact fusing.preserves.equivalent consistent

/-- A function of one number. -/
def increment : Func where
  name := "inc"
  params := [{ name := "x", dataType := { name := "int" } }]
  returnType := { name := "int" }
  body := "return x + 1;"

/-- Two branches with a map each, which lead to the given in-ports of a zip. -/
def twoBranches (first second : PortKey) : Network :=
  Operation.build
    (Operation.addAll none [("u", .unzip, ["in"], ["out0", "out1"]),
        ("a", .map increment, ["in"], ["out"]), ("b", .map increment, ["in"], ["out"]),
        ("z", .zip, ["in0", "in1"], ["out"])] ++
      [.connect 1 3, .connect 2 5, .connect 4 first, .connect 6 second, .addInput 0, .addOutput 9])

theorem consistent_twoBranches (first second : PortKey) : (twoBranches first second).Consistent :=
  (Reachable.empty.foldl (by simp [Operation.Allowed])).inv

/-- Two branches that lead to the in-ports at their own positions keep their meaning when they are
replaced. -/
theorem fuseSections_meaning_straight :
    (twoBranches 7 8).WellFormed ∧ (twoBranches 7 8).validate = [] ∧
    ∃ report next, Edit.fuseSections.run (twoBranches 7 8) = .ok report next ∧ report.applied = 1 ∧
      ∀ (Value : Type) (model : Interpretation Value),
        SameMeaning model (twoBranches 7 8) next := by
  have consistent := consistent_twoBranches 7 8
  have wellFormed : (twoBranches 7 8).WellFormed := ⟨consistent, by decide +kernel⟩
  have valid : (twoBranches 7 8).validate = [] := List.isEmpty_iff.mp (by decide +kernel)
  refine ⟨wellFormed, valid, ?_⟩
  have applied : Edit.fuseSections.succeeds (twoBranches 7 8)
    (fun report _ => report.applied = 1) := by decide +kernel
  obtain ⟨report, next, runs, applied⟩ := Edit.exists_run_of_succeeds applied
  refine ⟨report, next, runs, applied, (fuseSections_meaning wellFormed valid runs).2 ?_⟩
  rintro region chains ⟨regions, notes, asked, listed, branches⟩
  have regionsFound : (twoBranches 7 8).dataParallelSections.toOption.map (·.1) =
      some [(⟨"u", "z"⟩, 1)] := by
    decide +kernel
  rw [asked] at regionsFound
  obtain rfl : regions = [(⟨"u", "z"⟩, 1)] := by simpa [Except.toOption] using regionsFound
  obtain rfl : region = ⟨"u", "z"⟩ := by simpa using listed
  have chainsFound : ((twoBranches 7 8).branchChains ⟨"u", "z"⟩).toOption =
    some [["a"], ["b"]] := by decide +kernel
  rw [branches] at chainsFound
  obtain rfl : chains = [["a"], ["b"]] := by simpa [Except.toOption] using chainsFound
  have zip : (twoBranches 7 8).process? "z" = some ⟨.zip, {}, [7, 8], [9]⟩ := by decide +kernel
  have first : (twoBranches 7 8).port? 4 = some ⟨"out", "a", .output, none, some 7⟩ := by
    decide +kernel
  have second : (twoBranches 7 8).port? 6 = some ⟨"out", "b", .output, none, some 8⟩ := by
    decide +kernel
  refine ⟨⟨_, zip,
    .cons ⟨"a", rfl, 4, _, first, rfl, rfl, rfl⟩
    (.cons ⟨"b", rfl, 6, _, second, rfl, rfl, rfl⟩ .nil)⟩, ?_⟩
  have scalar :
      ([["a"], ["b"]].all fun chain => chain.all fun id =>
        !((twoBranches 7 8).kindOf id).isParallelMap) = true := by
    decide +kernel
  simpa using scalar

/-- Values at the ports of crossed branches, of which the first one is applied to zero and the
second one to one. -/
def crossedValue (key : PortKey) : Token :=
  if key = 0 then .array [.atom 0, .atom 1] else if key = 9 then .array [.atom 1, .atom 0]
  else if key ∈ [1, 3, 4, 8] then .atom 0 else .atom 1

theorem solves_crossedValue : Token.idle.Solves (twoBranches 8 7) crossedValue := by
  have joined :
      ((List.range (twoBranches 8 7).ports.nextKey).all fun key =>
        ((twoBranches 8 7).port? key).all fun port =>
      port.connection.all fun other => key ≠ 0 ∧ key ≠ 9 ∧ other ≠ 0 ∧ other ≠ 9 ∧
        (key ∈ [1, 3, 4, 8] ↔ other ∈ [1, 3, 4, 8])) = true := by decide +kernel
  have entries : (twoBranches 8 7).processes.toList =
      [("a", ⟨.map increment, {}, [3], [4]⟩), ("b", ⟨.map increment, {}, [5], [6]⟩),
        ("u", ⟨.unzip, {}, [0], [1, 2]⟩), ("z", ⟨.zip, {}, [7, 8], [9]⟩)] := by decide +kernel
  refine .of_entries joined ?_ entries ?_
  · rintro key other ⟨first, last, firstOther, lastOther, sides⟩
    simp [crossedValue, first, last, firstOther, lastOther, sides]
  · simp only [forall_mem_cons]
    exact ⟨⟨.atom 0, rfl, rfl⟩, ⟨.atom 1, rfl, rfl⟩, rfl, rfl, forall_mem_nil _⟩

/-- Two crossed branches are replaced by a parallel map, which does not swap the elements as they
do. -/
theorem fuseSections_meaning_crossed :
    (twoBranches 8 7).WellFormed ∧ (twoBranches 8 7).validate = [] ∧
    ∃ report next, Edit.fuseSections.run (twoBranches 8 7) = .ok report next ∧ report.applied = 1 ∧
      ¬ SameMeaning Token.idle (twoBranches 8 7) next := by
  refine ⟨⟨consistent_twoBranches 8 7, by decide +kernel⟩,
    List.isEmpty_iff.mp (by decide +kernel), ?_⟩
  have replaced : Edit.fuseSections.succeeds (twoBranches 8 7)
      (fun report next => report.applied = 1 ∧ next.inputs = [10] ∧ next.outputs = [11] ∧
        next.process? "_parallel0" = some ⟨.parallelMap 2 [increment], {}, [10], [11]⟩) := by
    decide +kernel
  obtain ⟨report, next, runs, applied, inputs, outputs, stored⟩ :=
    Edit.exists_run_of_succeeds replaced
  refine ⟨report, next, runs, applied, fun same => ?_⟩
  obtain ⟨after, solves, agree⟩ := same.forth crossedValue solves_crossedValue
  have boundary : (twoBranches 8 7).inputs = [0] ∧
    (twoBranches 8 7).outputs = [9] := by decide +kernel
  have atInput := agree.inputs
  have atOutput := agree.outputs
  rw [boundary.1, inputs] at atInput
  rw [boundary.2, outputs] at atOutput
  -- The parallel map would have to put out the elements in the order in which it gets them.
  obtain ⟨elements, -, isInput, isOutput⟩ := solves.related stored
  rw [Token.applyAll_idle, map_id, ← isInput] at isOutput
  simp only [map_singleton] at atInput atOutput isOutput
  rw [← atInput, ← atOutput] at isOutput
  simp [crossedValue] at isOutput

end Network

end Dataflow
