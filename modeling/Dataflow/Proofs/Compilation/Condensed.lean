import Dataflow.Proofs.Compilation.Run
import Dataflow.Proofs.Transform.Condensed

/-!
Equal branches between two maps end as one parallel map, whichever way they are shortened.

A fan is a row of one bundle, which no pass changes before the branches are shortened. From there on
it stays a row, until it is one process.
-/

open List

namespace Dataflow

open Segment

namespace Network.Fan

variable {net : Network} {source sink : ProcessId} {region : Section}
  {chains : List (List ProcessId)} {functions : List Func}
  {key other : PortKey} {port : Port}

section

variable (fan : net.Fan source sink region chains functions)

include fan

theorem prepared : net.Prepared fun _ => True where
  ready := fan.wellFormed.ready fan.legal
  top got := by rw [(fan.process_cases got).1]; rfl
  lasting := lasting_true
  holds := trivial

theorem run_removeRedundant : Edit.removeRedundant.run net = .ok {} net := by
  have several := fan.several
  have needed : (net.processes.toList.filter fun entry => isRedundant entry.2) = [] := by
    refine filter_eq_nil_iff.mpr fun entry mem redundant => ?_
    obtain ⟨kind, entry, exit, ins, outs⟩ := isRedundant_iff.mp redundant
    rcases (fan.process_cases (mem_toList.mp mem)).2
      with ⟨⟨fn, isMap⟩, -⟩ | ⟨-, -, counts⟩ | ⟨-, counts, -⟩
    · simp [isMap] at kind
    · simp [outs] at counts
      omega
    · simp [ins] at counts
      omega
  simp only [Edit.removeRedundant, EStateM.run_bind, EStateM.run_get, fan.legal.ensureFlat_eq,
    Edit.run_answer, needed]
  rfl

theorem run_combToMap : Edit.combToMap.run net = .ok {} net := by
  have named : (net.processes.toList.filterMap fun entry => (unaryComb? entry.2).map (entry.1, ·)) =
      [] := by
    refine filterMap_eq_nil_iff.mpr fun entry mem => ?_
    rcases (fan.process_cases (mem_toList.mp mem)).2
      with ⟨⟨fn, kind⟩, -⟩ | ⟨kind, -⟩ | ⟨kind, -⟩ <;> simp [unaryComb?, kind]
  simp only [Edit.combToMap, EStateM.run_bind, EStateM.run_get, fan.legal.ensureFlat_eq,
    Edit.run_answer, named]
  rfl

end

section Around

variable {entry exit : PortKey} (fan : net.Fan source sink region chains functions)
  (isEntry : net.portAt? region.start .input 0 = some entry)
  (isExit : net.portAt? region.stop .output 0 = some exit)

include fan

include isEntry in
theorem eq_entry (has : net.port? key = some port) (owned : port.owner = source)
    (conn : port.connection = some other) : port.direction = .output ∧ other = entry := by
  have inv := fan.wellFormed.toConsistent
  obtain ⟨fn, stores⟩ := fan.first
  have atFirst := stores.portAt?_eq inv has owned
  cases dir : port.direction with
  | input =>
    have free := fan.free key (by simp [fan.inputs, dir ▸ atFirst])
    simp [has, conn] at free
  | output =>
    rw [dir] at atFirst
    obtain ⟨exit, far, isKey, isFar, too, hasToo, -, leads⟩ := fan.enters.exists_connects inv
    obtain rfl := Option.mem_unique atFirst isKey
    obtain rfl := Option.mem_unique isEntry isFar
    obtain rfl := Option.mem_unique has hasToo
    exact ⟨rfl, Option.mem_unique conn leads⟩

include isExit in
theorem eq_exit (has : net.port? key = some port) (owned : port.owner = sink)
    (conn : port.connection = some other) : port.direction = .input ∧ other = exit := by
  have inv := fan.wellFormed.toConsistent
  obtain ⟨fn, stores⟩ := fan.last
  have atFirst := stores.portAt?_eq inv has owned
  cases dir : port.direction with
  | input =>
    rw [dir] at atFirst
    obtain ⟨near, entry, isNear, isKey, connects⟩ := fan.leaves.exists_connects inv
    obtain rfl := Option.mem_unique atFirst isKey
    obtain rfl := Option.mem_unique isExit isNear
    obtain ⟨-, leads⟩ := of_found has (connects.exists_target inv.linked)
    exact ⟨rfl, Option.mem_unique conn leads⟩
  | output =>
    have free := fan.free key (by simp [fan.outputs, dir ▸ atFirst])
    simp [has, conn] at free

include isEntry isExit

/-- The ends of a fan are a rim around its bundle. -/
theorem intact : (Rim.mk net source sink entry exit).Intact := by
  -- The two connections of the fan to its ends are followed to the ports on both sides.
  have inv := fan.wellFormed.toConsistent
  have apart : source ≠ sink := fun same => (nodup_cons.mp fan.once).1 (by simp [same])
  have ends {id} (isEnd : id ∈ (Rim.mk net source sink entry exit).ends) : id = source ∨
      id = sink := by
    simpa [Rim.ends] using isEnd
  obtain ⟨key, far, isKey, isFar, port, has, leaves, conn⟩ := fan.enters.exists_connects inv
  obtain ⟨near, other, isNear, isOther, connects⟩ := fan.leaves.exists_connects inv
  obtain ⟨peer, hasPeer, enters, connBack⟩ := connects.exists_target inv.linked
  obtain rfl := Option.mem_unique isEntry isFar
  obtain rfl := Option.mem_unique isExit isNear
  obtain ⟨owned, -⟩ := of_found has (inv.exists_port isKey)
  obtain ⟨ownedPeer, -⟩ := of_found hasPeer (inv.exists_port isOther)
  refine ⟨inv, apart, fun id isEnd => ?_, ⟨key, port, has, owned, leaves, conn⟩,
    ⟨other, peer, hasPeer, ownedPeer, enters, connBack⟩, fun hasPort isEnd leads => ?_,
    fun {key} onBdry => ?_, ?_⟩
  · rcases ends isEnd with rfl | rfl
    · obtain ⟨fn, proc, got, isMap, -⟩ := fan.first
      exact ⟨proc, fn, got, isMap⟩
    · obtain ⟨fn, proc, got, isMap, -⟩ := fan.last
      exact ⟨proc, fn, got, isMap⟩
  · rcases ends isEnd with isSrc | isSink
    · exact .inl (fan.eq_entry isEntry hasPort isSrc leads).2
    · exact .inr (fan.eq_exit isExit hasPort isSink leads).2
  · rw [Network.isBoundary, fan.inputs, fan.outputs] at onBdry
    simp only [Bool.or_eq_true, contains_iff_mem, Option.mem_toList] at onBdry
    rcases onBdry with atSrc | atSink
    · obtain ⟨port, has, owned, -⟩ := inv.exists_port atSrc
      exact ⟨port, has, by simp [Rim.ends, owned]⟩
    · obtain ⟨port, has, owned, -⟩ := inv.exists_port atSink
      exact ⟨port, has, by simp [Rim.ends, owned]⟩
  · obtain ⟨fn, proc, got, -, -, -, outs⟩ := fan.last
    obtain ⟨outer, isOuter⟩ := length_eq_one_iff.mp outs
    have atSink : net.portAt? sink .output 0 = some outer :=
      portAt?_eq_some.mpr ⟨proc, got, by simp [Process.ports, isOuter]⟩
    obtain ⟨port, has, owned, -⟩ := inv.exists_port atSink
    exact ⟨outer, by simp [fan.outputs, atSink], port, has, owned⟩

/-- A fan is a row of one bundle. -/
theorem row :
    Row ⟨net, source, sink, entry, exit⟩ chains.length [.bundle region chains functions] net := by
  have inv := fan.wellFormed.toConsistent
  obtain ⟨inner, hasInner, ownedInner, -⟩ := inv.exists_port isEntry
  obtain ⟨outer, hasOuter, ownedOuter, -⟩ := inv.exists_port isExit
  have once := fan.once
  simp only [nodup_cons, mem_cons, not_or] at once
  refine ⟨.refl inv,
    ⟨region.start, region.stop, entry, exit, rfl, rfl, fun _ _ => rfl, fun has _ => ?_, ?_, ?_, rfl,
      rfl⟩, fun seg mem => ?_, pairwise_singleton _ _, fun id isEnd => ?_, fun got => ?_,
    isChain_singleton _⟩
  · rw [has, reroute_self, Option.map_id_fun, id]
  · rw [hasInner, Option.map_some, ← ownedInner]
  · rw [hasOuter, Option.map_some, ← ownedOuter]
  · obtain rfl := mem_singleton.mp mem
    exact ⟨fan.enclosed, rfl, fun chain mem => fan.functionsOf_eq mem⟩
  · rw [within_bundle]
    simp only [Rim.ends, mem_cons, not_mem_nil, or_false] at isEnd
    rcases isEnd with rfl | rfl
    · exact once.1.2
    · exact once.2.1
  · rw [within_bundle]
    have covered := fan.covers _ (mem_ids.mpr ⟨_, got⟩)
    simpa [Rim.ends, or_assoc] using covered

end Around

end Network.Fan

/-- A pass takes prepared networks with one property to networks with another. -/
def Pass.Leads (kept : Network → Prop) (pass : Pass) (former later : Network → Prop) : Prop :=
  ∀ net, former net → net.Prepared kept → match pass.transformation? with
    | some edit => edit.Ends net (fun _ next => later next) fun _ => False
    | none => later net

/-- Passes one behind the other take networks with one property to networks with another. -/
inductive Course (kept : Network → Prop) :
    List Pass → (Network → Prop) → (Network → Prop) → Prop where
  | done {holds : Network → Prop} : Course kept [] holds holds
  | pass {pass : Pass} {passes : List Pass} {former between later : Network → Prop}
    (leads : pass.Leads kept former between) (course : Course kept passes between later) :
    Course kept (pass :: passes) former later

section Passes

variable {run : Run} {origin state : Compilation} {options : Options} {term pass : Pass}
  {done more left : List Pass}
  {kept old new : Network → Prop}

theorem Compilation.network_perform (inspects : pass.transformation? = none) :
    (state.perform pass).1.network = state.network := by
  rw [perform, inspects]
  dsimp only
  split
  · rw [findSchedule]
    split <;> rfl
  · rfl

theorem Run.Sound.holds_advance (inv : run.Sound kept origin done)
    (reduced : pass = .fuseSections →
      done.getLast? = some .coalesceDataParallel ∨ done.getLast? = some .splitSegments)
    (leads : pass.Leads kept old new) (pre : old run.state.network) :
    new (run.advance pass).state.network := by
  have ends := leads _ pre inv.prepared
  cases transforms : pass.transformation? with
  | some edit =>
    rw [transforms] at ends
    obtain ⟨report, next, runs, holds⟩ := ends.exists_run
    obtain ⟨too, runsToo⟩ := (inv.advance reduced).2 edit transforms
    cases runs.symm.trans runsToo
    exact holds
  | none =>
    rw [transforms] at ends
    rw [Run.advance_eq inv.unbroken]
    exact (Compilation.network_perform transforms).symm ▸ ends

theorem Course.holds_foldl (course : Course kept more old new) (inv : run.Sound kept origin done)
    (split : term.required options = done ++ more ++ left) (pre : old run.state.network) :
    new (more.foldl Run.advance run).state.network := by
  induction course generalizing run done with
  | done => exact pre
  | @pass pass passes old between new leads course ih =>
    rw [append_assoc] at split
    have reduced (fuses : pass = .fuseSections) := Pass.getLast?_of_required (fuses ▸ split)
    refine ih (inv.advance reduced).1 ?_ (inv.holds_advance reduced leads pre)
    simpa using split

end Passes

namespace Network.Fan

variable {state : Compilation} {source sink : ProcessId} {region : Section}
  {chains : List (List ProcessId)} {functions : List Func}
  {entry exit : PortKey}

variable (fan : state.network.Fan source sink region chains functions)

include fan

theorem leads {pass : Pass} (early : pass ∈ [.flatten, .validate, .removeRedundant, .combToMap]) :
    pass.Leads (fun _ => True) (· = state.network) (· = state.network) := by
  rintro net rfl -
  simp only [mem_cons, not_mem_nil, or_false] at early
  rcases early with rfl | rfl | rfl | rfl
  · exact (Edit.ends_of_run fan.legal.run_flatten).mpr rfl
  · exact rfl
  · exact (Edit.ends_of_run fan.run_removeRedundant).mpr rfl
  · exact (Edit.ends_of_run fan.run_combToMap).mpr rfl

section

variable (isEntry : state.network.portAt? region.start .input 0 = some entry)
  (isExit : state.network.portAt? region.stop .output 0 = some exit)

include isEntry isExit

theorem leads_reduction (options : Options) :
    options.reduction.Leads (fun _ => True) (· = state.network)
      (ShortRow ⟨state.network, source, sink, entry, exit⟩ chains.length functions) := by
  rintro net rfl prep
  have row := fan.row isEntry isExit
  have intact := fan.intact isEntry isExit
  rcases options with ⟨_ | _, _⟩
  · exact row.ends_coalesceDataParallel intact prep fan.uniform
  · exact row.ends_splitSegments intact prep fan.uniform

theorem exists_row (strategy : Strategy) :
    ∃ id, Row ⟨state.network, source, sink, entry, exit⟩ chains.length [.single id functions]
      ((Pass.schedule.required { strategy }).foldl Run.advance { state }).state.network := by
  have required : Pass.schedule.required { strategy } =
      [.flatten, .validate, .removeRedundant, .combToMap, ({ strategy } : Options).reduction,
        .fuseSections, .mergeParallelMaps, .schedule] := by
    cases strategy <;> decide +kernel
  have intact := fan.intact isEntry isExit
  obtain ⟨type, typed⟩ := fan.typed
  have course : Course (fun _ => True) (Pass.schedule.required { strategy })
      (· = state.network) fun net =>
      ∃ id, Row ⟨state.network, source, sink, entry, exit⟩ chains.length
        [.single id functions] net := by
    rw [required]
    refine .pass (fan.leads (by simp))
      (.pass (fan.leads (by simp))
        (.pass (fan.leads (by simp))
        (.pass (fan.leads (by simp))
        (.pass (fan.leads_reduction isEntry isExit _)
        (.pass (fun net shortened => shortened.ends_fuseSections intact)
        (.pass (fun net fused prep => fused.ends_mergeParallelMaps intact prep typed)
          (.pass (fun net row _ => row) .done)))))))
  have start := Run.sound_foldl fan.prepared (nil_append (Pass.schedule.required { strategy })).symm
  exact course.holds_foldl start (append_nil _).symm rfl

end

end Network.Fan

/--
Equal branches between two maps end as one parallel map, whichever way they are shortened.

No pass fails. What is left are the two maps and the parallel map between them, which applies the
functions of one branch in order to as many values as there were branches, and it is scheduled
between the maps. The ways of shortening differ in the name and the ports of the new process only,
as everything else is told by these.
-/
theorem Compilation.run_condenses (state : Compilation) {source sink : ProcessId} {region : Section}
    {chains : List (List ProcessId)} {functions : List Func}
    (fan : state.network.Fan source sink region chains functions) :
    (UInt64.ofNat chains.length).toNat = chains.length ∧
    ∃ entry exit, state.network.portAt? region.start .input 0 = some entry ∧
      state.network.portAt? region.stop .output 0 = some exit ∧
      ∀ strategy, (state.run { strategy } .schedule).failing = none ∧ ∃ fresh enter leave,
        let final := (state.run { strategy } .schedule).state
        state.network.Condensed (region.members chains) entry exit fresh
          (.parallelMap (UInt64.ofNat chains.length) functions) enter leave final.network ∧
        final.network.ids.Perm [source, fresh, sink] ∧ final.network.Joins source 0 fresh 0 ∧
        final.network.Joins fresh 0 sink 0 ∧
        final.schedule = some { order := [source, fresh, sink] } := by
  have consistent := fan.wellFormed.toConsistent
  obtain ⟨-, entry, -, isEntry, -⟩ := fan.enters.exists_connects consistent
  obtain ⟨exit, -, isExit, -, -⟩ := fan.leaves.exists_connects consistent
  have intact := fan.intact isEntry isExit
  have bundled := fan.row isEntry isExit
  refine ⟨fan.prepared.ready.toNat_ofNat_length fan.bundle, entry, exit, isEntry, isExit,
    fun strategy => ?_⟩
  -- The run ends in a row of one process, for which everything is known.
  have sound := Run.sound_foldl fan.prepared (append_nil (Pass.schedule.required { strategy })).symm
  obtain ⟨fresh, row⟩ := fan.exists_row isEntry isExit strategy
  obtain ⟨schedule, scheduled, fits⟩ := sound.scheduled (by cases strategy <;> decide +kernel)
  obtain ⟨provenance, concluded⟩ := sound.conclude_eq .schedule
  have concluded : state.run { strategy } .schedule = _ := concluded
  rw [concluded]
  obtain ⟨enter, leave, condensed⟩ := row.condensed intact sound.prepared
    (fun stored => (bundled.covers stored).imp_right within_bundle.mp) fun id isEnd =>
      mt within_bundle.mpr (bundled.outside id isEnd)
  obtain ⟨joins, joinsSink⟩ := row.joins intact sound.prepared.ready
  have ids := (perm_ext_iff_of_nodup (Network.nodup_ids _) (row.nodup intact)).mpr fun _ =>
    row.mem_ids_iff intact
  have order := row.order_eq intact sound.prepared.ready.inv fits
  exact ⟨sound.unbroken, fresh, enter, leave, condensed, ids, joins, joinsSink,
    scheduled.trans (congrArg _ (congrArg Schedule.mk order))⟩

/-- The function on integers with a given body. -/
def Func.onInt (body : String) : Func where
  name := "f"
  params := [{ name := "x", dataType := { name := "int" }, isConst := true }]
  returnType := { name := "int" }
  body := body

/-- Three branches of two maps each. -/
def Network.threeBranches : Network :=
  let first := Kind.map (.onInt "x + 1")
  let second := Kind.map (.onInt "x * 2")
  let int := some { name := "int" }
  Operation.build
    (Operation.addAll int [("src", .map (.onInt "x"), ["in"], ["out"]),
        ("dst", .map (.onInt "x"), ["in"], ["out"]),
        ("unzip", .unzip, ["in0"], ["out0", "out1", "out2"]),
        ("zip", .zip, ["in0", "in1", "in2"], ["out0"]), ("m0_0", first, ["in"], ["out"]),
        ("m0_1", second, ["in"], ["out"]), ("m1_0", first, ["in"], ["out"]),
        ("m1_1", second, ["in"], ["out"]), ("m2_0", first, ["in"], ["out"]),
        ("m2_1", second, ["in"], ["out"])] ++
      [.connect 1 4, .connect 11 2, .connect 5 12, .connect 13 14, .connect 15 8, .connect 6 16,
        .connect 17 18, .connect 19 9, .connect 7 20, .connect 21 22, .connect 23 10, .addInput 0,
        .addOutput 3])

/-- Both ways of shortening three branches end in one parallel map with two functions. -/
theorem Compilation.run_condenses_threeBranches :
    let region : Section := { start := "unzip", stop := "zip" }
    let chains := [["m0_0", "m0_1"], ["m1_0", "m1_1"], ["m2_0", "m2_1"]]
    let functions := [.onInt "x + 1", .onInt "x * 2"]
    let state : Compilation := { source := "", network := .threeBranches }
    Network.threeBranches.Fan "src" "dst" region chains functions ∧
    ∀ strategy, (state.run { strategy } .schedule).failing = none ∧ ∃ fresh enter leave,
      Network.threeBranches.Condensed (region.members chains) 4 11 fresh (.parallelMap 3 functions)
        enter leave (state.run { strategy } .schedule).state.network ∧
      (state.run { strategy } .schedule).state.schedule =
        some { order := ["src", fresh, "dst"] } := by
  intro region chains functions state
  have fan : Network.threeBranches.Fan "src" "dst" region chains functions :=
    { wellFormed := ⟨(Network.Reachable.empty.foldl (by simp [Operation.Allowed])).inv,
      by decide +kernel⟩
      covers := by decide +kernel
      once := by decide +kernel
      first := ⟨.onInt "x", by decide +kernel⟩
      last := ⟨.onInt "x", by decide +kernel⟩
      start := by decide +kernel
      stop := by decide +kernel
      maps := by decide +kernel
      enters := by decide +kernel
      opens := by decide +kernel
      chained := by decide +kernel
      closes := by decide +kernel
      leaves := by decide +kernel
      inputs := by decide +kernel
      outputs := by decide +kernel
      free := by decide +kernel
      several := by decide
      typed := ⟨{ name := "int" }, by decide +kernel⟩ }
  refine ⟨fan, ?_⟩
  have isEntry : Network.threeBranches.portAt? region.start .input 0 = some 4 := by decide +kernel
  have isExit : Network.threeBranches.portAt? region.stop .output 0 = some 11 := by decide +kernel
  have same : state.network = .threeBranches := by simp only [state]
  clear_value state
  rw [← same] at fan isEntry isExit ⊢
  obtain ⟨-, entry, exit, entryAt, exitAt, ends⟩ := run_condenses state fan
  obtain rfl := Option.mem_unique isEntry entryAt
  obtain rfl := Option.mem_unique isExit exitAt
  intro strategy
  obtain ⟨unbroken, fresh, enter, leave, condensed, -, -, -, scheduled⟩ := ends strategy
  exact ⟨unbroken, fresh, enter, leave, condensed, scheduled⟩

end Dataflow
