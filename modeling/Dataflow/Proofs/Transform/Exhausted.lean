import Dataflow.Proofs.Meaning.Fusion

/-! When the replacement of data-parallel sections by parallel maps leaves none. -/

open List

namespace Dataflow.Network

variable {net next last : Network} {id : ProcessId} {region : Section} {rounds : Nat}
  {chains : List (List ProcessId)}
  {regions : List (Section × Nat)} {notes : List Diagnostic} {report : Report}

/-- None of the sections that are found is data-parallel. -/
def Exhausted (net : Network) : Prop :=
  ∃ regions, net.sections = .ok regions ∧
    ∀ region ∈ regions, net.dataParallelLength? region = .ok none

theorem Ready.exhausted_iff (ready : net.Ready)
    (asked : net.dataParallelSections = .ok (regions, notes)) : net.Exhausted ↔ regions = [] := by
  obtain ⟨has, askedHas, reported, -⟩ := ready.inv.sections_eq
  obtain ⟨too, notesToo, askedToo, -, -, right⟩ := ready.dataParallelSections_eq
  rw [asked] at askedToo
  cases askedToo
  constructor
  · rintro ⟨mem, askedMem, none⟩
    rw [askedHas] at askedMem
    cases askedMem
    refine eq_nil_iff_forall_not_mem.mpr fun (region, len) isMem => ?_
    obtain ⟨isReported, chains, bundle, unif⟩ := (right region len).mp isMem
    have measured := none region ((reported region).mpr isReported)
    rw [bundle.dataParallelLength?_eq ready.inv unif] at measured
    cases measured
  · rintro rfl
    refine ⟨has, askedHas, fun region mem => ?_⟩
    have isReported := (reported region).mp mem
    obtain ⟨measured, ans, isLen⟩ := isReported.1.exists_length ready.inv ready.legal
    cases measured with
    | none => exact ans
    | some len => exact absurd ((right region len).mpr ⟨isReported, (isLen len).mp rfl⟩) not_mem_nil

theorem Ready.exhausted_of_run (ready : net.Ready)
    (runs : Edit.fuseSections.run net = .ok report next) (idle : report.applied = 0) :
    net.Exhausted := by
  obtain ⟨regions, notes, asked, -⟩ := ready.dataParallelSections_eq
  have counted :=
    (of_run_fuseSections (fun _ _ => True) ready.legal asked runs trivial fun _ _ => trivial).2
  exact (ready.exhausted_iff asked).mpr (length_eq_zero_iff.mp (counted.symm.trans idle))

theorem Ready.exhausted_iff_run (ready : net.Ready) :
    net.Exhausted ↔ ∃ report, Edit.fuseSections.run net = .ok report net ∧ report.applied = 0 := by
  constructor
  · intro exhausted
    obtain ⟨regions, notes, asked, -⟩ := ready.dataParallelSections_eq
    obtain rfl := (ready.exhausted_iff asked).mp exhausted
    exact ⟨{ notes }, (Edit.run_ask ready.legal.ensureFlat_eq).trans (Edit.run_ask asked), rfl⟩
  · rintro ⟨report, runs, idle⟩
    exact ready.exhausted_of_run runs idle

/-- The zips of the network. -/
def zips (net : Network) : List ProcessId :=
  net.ids.filter net.isZip

theorem mem_zips : id ∈ net.zips ↔ net.isZip id := by
  simp only [zips, mem_filter, and_iff_right_iff_imp]
  intro isZip
  obtain ⟨proc, got, -⟩ := (Option.any_eq_true _ _).mp isZip
  exact mem_ids.mpr ⟨proc, got⟩

theorem Bundle.zips_replaced {entry exit : PortKey} {fresh : ProcessId} {hier : Hierarchy}
    (bundle : net.Bundle region chains)
    (repl : net.Replaced (region.members chains) entry exit fresh (net.fused chains) hier next) :
    net.zips.length = next.zips.length + 1 := by
  have stays {id} (isZip : next.isZip id) : id ∉ region.members chains ∧ net.isZip id := by
    obtain ⟨proc, got, zips⟩ := (Option.any_eq_true _ _).mp isZip
    rcases repl.process_cases got with ⟨-, rfl⟩ | ⟨outer, pre⟩
    · simp [fused, Kind.isZip] at zips
    · exact ⟨outer, by simp [Network.isZip, pre, zips]⟩
  have isMem : region.stop ∈ region.members chains := Section.stop_mem
  -- The stop is the only zip among the members.
  have same (id : ProcessId) : id ∈ net.zips ↔ id ∈ region.stop :: next.zips := by
    simp only [mem_cons, mem_zips]
    constructor
    · intro isZip
      by_cases inside : id ∈ region.members chains
      · rcases Section.mem_members.mp inside with rfl | rfl | ⟨chain, mem, onChain⟩
        · exact absurd isZip (not_isZip_of_isUnzip bundle.isUnzip_start)
        · exact .inl rfl
        · exact absurd isZip (not_isZip_of_isMapShaped (bundle.isMapShaped mem onChain))
      · have known : id ≠ fresh := by
          rintro rfl
          simp [Network.isZip, repl.absent] at isZip
        exact .inr (by rwa [Network.isZip, repl.processes, if_neg known, if_neg inside])
    · rintro (rfl | isZip)
      · exact bundle.closes
      · exact (stays isZip).2
  have once : (region.stop :: next.zips).Nodup :=
    nodup_cons.mpr ⟨fun mem => (stays (mem_zips.mp mem)).1 isMem, next.nodup_ids.filter _⟩
  exact ((perm_ext_iff_of_nodup (net.nodup_ids.filter _) once).mpr same).length_eq

theorem Ready.zips_of_run_fuseSections (ready : net.Ready)
    (runs : Edit.fuseSections.run net = .ok report next) :
    next.Ready ∧ net.zips.length = next.zips.length + report.applied := by
  obtain ⟨regions, notes, asked, pending, -, -⟩ := ready.dataParallelSections_eq
  obtain ⟨⟨readyNext, -, counted⟩, applied⟩ := of_run_fuseSections
    (fun rest mid => mid.Ready ∧ mid.Pending rest ∧
      net.zips.length + rest.length = mid.zips.length + regions.length)
    ready.legal asked runs ⟨ready, pending, rfl⟩ fun ⟨readyMid, pending, counted⟩ fuses => by
      obtain ⟨chains, _, _, _, _, isSealed, -, -, repl, readyAfter, pendingAfter⟩ :=
        pending.step readyMid fuses
      have taken := isSealed.zips_replaced repl
      simp only [length_cons] at counted
      exact ⟨readyAfter, pendingAfter, by omega⟩
  exact ⟨readyNext, by simpa [applied] using counted⟩

theorem Ready.exhausted_of_zips (ready : net.Ready) (none : net.zips = []) : net.Exhausted := by
  obtain ⟨regions, notes, asked, -, -, has⟩ := ready.dataParallelSections_eq
  refine (ready.exhausted_iff asked).mpr (eq_nil_iff_forall_not_mem.mpr fun (region, len) mem => ?_)
  have isZip := mem_zips.mpr ((has region len).mp mem).1.1.1
  simp [none] at isZip

/-- One network comes from another by replacing its sections some number of times. -/
inductive FusedTimes : Nat → Network → Network → Prop
  | zero {net : Network} : FusedTimes 0 net net
  | succ {rounds : Nat} {net middle last : Network} {report : Report}
  (runs : Edit.fuseSections.run net = .ok report middle)
      (onwards : FusedTimes rounds middle last) : FusedTimes (rounds + 1) net last

theorem FusedTimes.eq_of_exhausted (times : FusedTimes rounds net last) (ready : net.Ready)
    (exhausted : net.Exhausted) : last = net := by
  induction times with
  | zero => rfl
  | succ runs onwards ih =>
    obtain ⟨too, runsToo, -⟩ := ready.exhausted_iff_run.mp exhausted
    rw [runsToo] at runs
    cases runs
    exact ih ready exhausted

theorem FusedTimes.exhausted (times : FusedTimes rounds net last) (ready : net.Ready)
    (enough : net.zips.length ≤ rounds) : last.Exhausted := by
  induction times with
  | zero => exact ready.exhausted_of_zips (length_eq_zero_iff.mp (Nat.le_zero.mp enough))
  | @succ rounds net mid last report runs onwards ih =>
    obtain ⟨readyMid, counted⟩ := ready.zips_of_run_fuseSections runs
    by_cases idle : report.applied = 0
    · have exhausted := ready.exhausted_of_run runs idle
      obtain rfl := (FusedTimes.succ runs onwards).eq_of_exhausted ready exhausted
      exact exhausted
    · exact ih readyMid (by omega)

/--
How often data-parallel sections have to be replaced by parallel maps until none is left.

None is left exactly if doing it again does nothing. Each section that is replaced is a zip less, so
none is left if all zips are gone. None is left either when it has been done again as often as there
are zips left, provided that it succeeded every time: a further round may stop at a fault.
-/
theorem fuseSections_exhausts (wellFormed : net.WellFormed) (valid : net.validate = [])
    (runs : Edit.fuseSections.run net = .ok report next) :
    (next.Exhausted ↔ ∃ again, Edit.fuseSections.run next = .ok again next ∧ again.applied = 0) ∧
    net.zips.length = next.zips.length + report.applied ∧
    (report.applied = net.zips.length → next.Exhausted) ∧
    ∀ last, FusedTimes next.zips.length next last → last.Exhausted := by
  -- A section that is replaced takes its zip along, so the zips count the rounds that are left.
  have ready := wellFormed.ready (wellFormed.toConsistent.validate_eq_nil_iff.mp valid)
  obtain ⟨readyNext, counted⟩ := ready.zips_of_run_fuseSections runs
  refine ⟨readyNext.exhausted_iff_run, counted, fun all => readyNext.exhausted_of_zips ?_,
    fun last times => times.exhausted readyNext le_rfl⟩
  exact length_eq_zero_iff.mp (by omega)

/-- An unzip, a zip and a map on each of the two branches between them, with ports from the given
key on. -/
def twoMaps (start first second stop : ProcessId) (key : PortKey) : List Operation :=
  Operation.addAll none [(start, .unzip, ["in"], ["out0", "out1"]),
      (first, .map increment, ["in"], ["out"]), (second, .map increment, ["in"], ["out"]),
      (stop, .zip, ["in0", "in1"], ["out"])] ++
    [.connect (key + 1) (key + 3), .connect (key + 2) (key + 5), .connect (key + 4) (key + 7),
      .connect (key + 6) (key + 8)]

/-- Two sections with two maps each, and what else is built. -/
def twoSectionsWith (others : List Operation) : Network :=
  Operation.build (twoMaps "u" "a" "b" "z" 0 ++ twoMaps "v" "c" "d" "w" 10 ++ others)

theorem consistent_twoSectionsWith {others : List Operation}
    (allowed : ∀ op ∈ others, ∀ net, op.Allowed net) : (twoSectionsWith others).Consistent := by
  have maps (start first second stop : ProcessId) (key : PortKey) :
      ∀ op ∈ twoMaps start first second stop key, ∀ net, op.Allowed net := by
    simp [twoMaps, Operation.Allowed]
  refine (Reachable.empty.foldl
    (forall_mem_append.mpr ⟨forall_mem_append.mpr ⟨?_, ?_⟩, allowed⟩)).inv
  · exact maps _ _ _ _ _
  · exact maps _ _ _ _ _

/-- Two sections, one after the other. -/
def twoSections : Network :=
  twoSectionsWith [.connect 9 10, .addInput 0, .addOutput 19]

/-- Two sections, one after the other, are replaced at once. -/
theorem fuseSections_exhausts_twoSections :
    twoSections.WellFormed ∧ twoSections.validate = [] ∧
    ∃ report next, Edit.fuseSections.run twoSections = .ok report next ∧ report.applied = 2 ∧
      next.Exhausted ∧
      ∃ again, Edit.fuseSections.run next = .ok again next ∧ again.applied = 0 := by
  have consistent : twoSections.Consistent :=
    consistent_twoSectionsWith (by simp [Operation.Allowed])
  have wellFormed : twoSections.WellFormed := ⟨consistent, by decide +kernel⟩
  have valid : twoSections.validate = [] := List.isEmpty_iff.mp (by decide +kernel)
  have zips : twoSections.zips.length = 2 := by decide +kernel
  have applied : Edit.fuseSections.succeeds twoSections (fun report _ => report.applied = 2) := by
    decide +kernel
  obtain ⟨report, next, runs, all⟩ := Edit.exists_run_of_succeeds applied
  obtain ⟨again, -, exhausts, -⟩ := fuseSections_exhausts wellFormed valid runs
  have exhausted := exhausts (all.trans zips.symm)
  exact ⟨wellFormed, valid, report, next, runs, all, exhausted, again.mp exhausted⟩

/-- Two sections on the branches of a third one. -/
def twoLevels : Network :=
  twoSectionsWith
    (Operation.addAll none [("U", .unzip, ["in"], ["out0", "out1"]),
        ("Z", .zip, ["in0", "in1"], ["out"])] ++
      [.connect 21 0, .connect 22 10, .connect 9 23, .connect 19 24, .addInput 20, .addOutput 25])

/-- Two sections on the branches of a third one, of which the first leads back to its own zip and to
the unzip of the third. -/
def backFed : Network :=
  twoSectionsWith
    ([.addPort "z" "in2" .input none] ++
      Operation.addAll none [("U", .unzip, ["in"], ["out0", "out1", "out2"]),
        ("f", .fanout, ["in"], ["out0", "out1"]), ("x", .delay "0", ["in"], ["out"]),
        ("y", .delay "0", ["in"], ["out"]), ("k", .comb increment, ["in0", "in1"], ["out"]),
        ("m", .fanout, ["in"], ["out"]), ("Z", .zip, ["in0", "in1"], ["out"])] ++
      [.connect 22 0, .connect 9 25, .connect 26 28, .connect 29 20, .connect 27 30, .connect 31 32,
        .connect 34 21, .connect 23 35, .connect 36 37, .connect 24 10, .connect 19 38,
        .addInput 33, .addOutput 39])

/-- A network in which replacing the sections leaves a data-parallel one, which is replaced when it
is done again. -/
def Relapses (net : Network) : Prop :=
  net.WellFormed ∧ net.validate = [] ∧
  ∃ report next, Edit.fuseSections.run net = .ok report next ∧ ¬ next.Exhausted ∧
    ∃ again last, Edit.fuseSections.run next = .ok again last ∧ again.applied = 1

/-- Sections on the branches of another one, and one whose zip is fed from elsewhere, leave
data-parallel sections behind. -/
theorem fuseSections_exhausts_nested : twoLevels.Relapses ∧ backFed.Relapses := by
  have levels : twoLevels.Consistent := consistent_twoSectionsWith (by simp [Operation.Allowed])
  have feedback : backFed.Consistent := consistent_twoSectionsWith (by simp [Operation.Allowed])
  have consistent : ∀ net ∈ [twoLevels, backFed], net.Consistent := by simp [levels, feedback]
  have fits : ∀ net ∈ [twoLevels, backFed], net.ports.nextKey ≤ UInt32.size := by decide +kernel
  have checked : ∀ net ∈ [twoLevels, backFed], net.validate.isEmpty ∧
      Edit.fuseSections.succeeds net (fun _ next => next.sections.toOption.any
        (·.any fun region => (next.dataParallelLength? region).toOption.join.isSome) ∧
        Edit.fuseSections.succeeds next fun again _ => again.applied = 1) := by decide +kernel
  suffices each : ∀ net ∈ [twoLevels, backFed],
    net.Relapses from ⟨each _ (by simp), each _ (by simp)⟩
  intro net listed
  obtain ⟨valid, replaced⟩ := checked net listed
  obtain ⟨report, next, runs, remains, repeated⟩ := Edit.exists_run_of_succeeds replaced
  refine ⟨⟨consistent net listed, fits net listed⟩, List.isEmpty_iff.mp valid, report, next, runs,
    ?_, Edit.exists_run_of_succeeds repeated⟩
  rintro ⟨regions, asked, none⟩
  simp only [asked, Except.toOption, Option.any_some, any_eq_true] at remains
  obtain ⟨region, listed, isParallel⟩ := remains
  simp [none region listed] at isParallel

end Dataflow.Network
