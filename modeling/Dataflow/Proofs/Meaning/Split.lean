import Dataflow.Proofs.Meaning.Fusion
import Dataflow.Proofs.Transform.Split

/-! A cut does not change the meaning: an unzip takes apart again what the zip in front of it has
put together. -/

open List

namespace Dataflow

universe u

variable {Value : Type u}

/-- What values are if zips make arrays and unzips take their elements, and what processes of other
kinds let through. -/
structure Semantics (Value : Type u) where
  /-- The array with the given elements. -/
  array : List Value → Value
  /-- The element at an index of an array. -/
  element : Value → Nat → Value
  /-- An array has the elements that it was made of. -/
  element_array : ∀ {values : List Value} {index : Nat} {value : Value},
    values[index]? = some value → element (array values) index = value
  /-- The values at in-ports and out-ports that a process lets through if it is neither a zip nor an
  unzip. -/
  others : ProcessId → Kind Composite → List Value → List Value → Prop

namespace Semantics

/-- The values that a process lets through: those at its in-ports and at its out-ports. -/
def Relates (model : Semantics Value) (id : ProcessId) (ins outs : List Value) :
    Kind Composite → Prop
  | .zip => outs = [model.array ins]
  | .unzip => ∃ value, ins = [value] ∧ outs = (List.range outs.length).map (model.element value)
  | kind => model.others id kind ins outs

/-- Values at the ports of a network that fit together if processes do what the semantics says. -/
abbrev Solves (model : Semantics Value) (net : Network) (value : PortKey → Value) : Prop :=
  Network.Solves model.Relates net value

/-- The values at the ports of one network that a solution of another one has there. -/
def SolvesOn (model : Semantics Value) (ports next : Network) (values : PortKey → Value) : Prop :=
  ∃ value, model.Solves next value ∧ ∀ key, (ports.port? key).isSome → value key = values key

end Semantics

namespace Cut

/-- The values at the ports after a cut, from those before it. -/
def extend (cut : Cut) (model : Semantics Value) (value : PortKey → Value) (key : PortKey) :
    Value :=
  if key < cut.base then value key
  else if key < cut.base + 2 then model.array (cut.lanes.map fun lane => value lane.1)
  else (cut.lanes[(key - cut.base - 2) / 2]?).elim (value key) fun lane => value lane.1

variable {cut : Cut} {model : Semantics Value} {val : PortKey → Value}

theorem extend_old {key : PortKey} (old : key < cut.base) : cut.extend model val key = val key := by
  rw [extend, if_pos old]

theorem extend_base :
    cut.extend model val cut.base = model.array (cut.lanes.map fun lane => val lane.1) ∧
    cut.extend model val (cut.base + 1) = model.array (cut.lanes.map fun lane => val lane.1) := by
  constructor
  · rw [extend, if_neg (by lia), if_pos (by lia)]
  · rw [extend, if_neg (by lia), if_pos (by lia)]

theorem extend_lane {branch : Nat} {lane : PortKey × PortKey}
    (isLane : cut.lanes[branch]? = some lane) :
    cut.extend model val (cut.inAt branch) = val lane.1 ∧
    cut.extend model val (cut.outAt branch) = val lane.1 := by
  have inIdx : (cut.inAt branch - cut.base - 2) / 2 = branch := by unfold inAt; lia
  have outIdx : (cut.outAt branch - cut.base - 2) / 2 = branch := by unfold outAt; lia
  constructor
  · rw [extend, if_neg (by unfold inAt; lia), if_neg (by unfold inAt; lia), inIdx, isLane,
      Option.elim_some]
  · rw [extend, if_neg (by unfold outAt; lia), if_neg (by unfold outAt; lia), outIdx, isLane,
      Option.elim_some]

end Cut

namespace Network

variable {law : Behaviour Value} {model : Semantics Value} {net next : Network} {cut : Cut}
  {cuts : List Cut} {val after : PortKey → Value}

theorem Solves.connects {src dst : PortKey} (solves : Solves law net val)
    (connects : net.Connects src dst) : val src = val dst := by
  obtain ⟨port, has, -, conn⟩ := connects
  exact solves.connected has conn

theorem Linked.solves (linked : net.Linked)
    (along : ∀ src dst, net.Connects src dst → val src = val dst)
    (rel : ∀ id proc, net.process? id = some proc →
      law id (proc.inPorts.map val) (proc.outPorts.map val) proc.kind) : Solves law net val where
  connected {key port other} has conn := by
    cases side : port.direction with
    | output => exact along key other ⟨port, has, side, conn⟩
    | input => exact (along other key ((linked.connection_eq_some has side).mp conn)).symm
  related := rel _ _

namespace Cuts

theorem solves_forth (isCut : net.Cuts cut next) (inv : net.Consistent)
    (solves : model.Solves net val) : model.Solves next (cut.extend model val) := by
  have old {key} (isOld : key < net.ports.nextKey) : cut.extend model val key = val key :=
    Cut.extend_old (isCut.base ▸ isOld)
  have values : (List.range cut.lanes.length).map
      (fun branch => cut.extend model val (cut.inAt branch)) = cut.lanes.map fun lane =>
      val lane.1 := by
    refine ext_getElem (by simp) fun branch bound boundLanes => ?_
    simp only [length_map, length_range] at bound
    simp only [getElem_map, getElem_range]
    exact (Cut.extend_lane (getElem?_eq_getElem bound)).1
  refine isCut.evolves.inv.linked.solves (fun src dst connects => ?_) fun id proc got => ?_
  · rcases isCut.connects.mp connects with ⟨kept, -⟩ | ⟨rfl, rfl⟩ |
      ⟨branch, lane, isLane, ⟨rfl, rfl⟩ | ⟨rfl, rfl⟩⟩
    · obtain ⟨oldSrc, oldDst⟩ := kept.lt_nextKey inv.linked
      rw [old oldSrc, old oldDst, solves.connects kept]
    · rw [Cut.extend_base.1, Cut.extend_base.2]
    · obtain ⟨oldSrc, -⟩ := (isCut.connects_of_mem (mem_of_getElem? isLane)).lt_nextKey inv.linked
      rw [old oldSrc, (Cut.extend_lane isLane).1]
    · have connectsLane := isCut.connects_of_mem (mem_of_getElem? isLane)
      obtain ⟨-, oldDst⟩ := connectsLane.lt_nextKey inv.linked
      rw [old oldDst, (Cut.extend_lane isLane).2, solves.connects connectsLane]
  · rcases isCut.process_cases got with ⟨rfl, rfl⟩ | ⟨rfl, rfl⟩ | pre
    · -- The zip puts the values together.
      show [cut.extend model val cut.base] =
        [model.array (((List.range cut.lanes.length).map cut.inAt).map _)]
      rw [map_map, Cut.extend_base.1]
      exact congrArg (fun values => [model.array values]) values.symm
    · refine ⟨model.array (cut.lanes.map fun lane => val lane.1),
        by simp [Cut.unzipper, Cut.extend_base.2], ?_⟩
      have count : (cut.unzipper.outPorts.map (cut.extend model val)).length =
        cut.lanes.length := by simp [Cut.unzipper]
      rw [count]
      show ((List.range cut.lanes.length).map cut.outAt).map _ = _
      rw [map_map]
      refine map_congr_left fun branch inRange => ?_
      obtain ⟨lane, isLane⟩ : ∃ lane, cut.lanes[branch]? = some lane :=
        ⟨_, getElem?_eq_getElem (mem_range.mp inRange)⟩
      have isVal : (cut.lanes.map fun lane => val lane.1)[branch]? = some (val lane.1) := by
        rw [getElem?_map, isLane, Option.map_some]
      rw [model.element_array isVal]
      exact (Cut.extend_lane isLane).2
    · exact inv.relates_congr pre (fun has _ => (old (lt_nextKey has)).symm) (solves.related pre)

theorem solves_back (isCut : net.Cuts cut next) (inv : net.Consistent)
    (solves : model.Solves next after) : model.Solves net after := by
  -- The value that leaves an index is the one that enters it.
  have passes {branch} (bound : branch < cut.lanes.length) : after (cut.outAt branch) =
      after (cut.inAt branch) := by
    have zips : [after cut.base] =
        [model.array (((List.range cut.lanes.length).map cut.inAt).map after)] :=
      solves.related isCut.zipped
    obtain ⟨array, ins, outs⟩ := solves.related isCut.unzipped
    have inside : after cut.base = after (cut.base + 1) := solves.connects isCut.connects_base
    have isArray : array =
        model.array (((List.range cut.lanes.length).map cut.inAt).map after) := by
      rw [← singleton_injective zips, inside]
      exact (singleton_injective ins).symm
    have atBranch : (((List.range cut.lanes.length).map cut.inAt).map after)[branch]? =
        some (after (cut.inAt branch)) := by
      simp [bound]
    have leaves : some (after (cut.outAt branch)) = some (model.element array branch) := by
      have atIdx := congrArg (·[branch]?) outs
      simpa [Cut.unzipper, bound] using atIdx
    rw [Option.some.inj leaves, isArray, model.element_array atBranch]
  refine inv.linked.solves (fun src dst connects => ?_) fun id proc got =>
    solves.related (isCut.process_of inv got)
  by_cases mem : (src, dst) ∈ cut.lanes
  · obtain ⟨branch, isLane⟩ := getElem?_of_mem mem
    have enters := solves.connects (isCut.connects_inAt isLane)
    have leaves := solves.connects (isCut.connects_outAt isLane)
    rw [enters, ← leaves, passes (List.getElem?_eq_some_iff.mp isLane).1]
  · exact solves.connects (isCut.connects.mpr (.inl ⟨connects, mem⟩))

end Cuts

theorem Cutting.solvesOn_iff (cutting : net.Cutting cuts next) (inv : net.Consistent)
    {ports : Network} (old : ports.ports.nextKey ≤ net.ports.nextKey) (values : PortKey → Value) :
    model.SolvesOn ports net values ↔ model.SolvesOn ports next values := by
  have step {pre behind cut} (isCut : pre.Cuts cut behind) (isInv : pre.Consistent)
      (grows : ports.ports.nextKey ≤ pre.ports.nextKey) :
      model.SolvesOn ports pre values ↔ model.SolvesOn ports behind values := by
    constructor
    · rintro ⟨val, solves, same⟩
      refine ⟨_, isCut.solves_forth isInv solves, fun key live => ?_⟩
      obtain ⟨port, has⟩ := Option.isSome_iff_exists.mp live
      rw [Cut.extend_old (Nat.lt_of_lt_of_le (lt_nextKey has) (isCut.base ▸ grows)), same key live]
    · rintro ⟨val, solves, same⟩
      exact ⟨val, isCut.solves_back isInv solves, same⟩
  suffices both : (model.SolvesOn ports net values ↔ model.SolvesOn ports next values) ∧
      next.Consistent ∧ net.ports.nextKey ≤ next.ports.nextKey from both.1
  induction cutting with
  | nil => exact ⟨.rfl, inv, Nat.le_refl _⟩
  | snoc earlier new ih =>
    obtain ⟨same, isInv, grows⟩ := ih
    exact ⟨same.trans (step new isInv (Nat.le_trans old grows)), new.evolves.inv,
      Nat.le_trans grows new.evolves.grows⟩

/-- A section that is reported, is data-parallel, and has branches of the given length, which is
more than one. -/
def Divisible (net : Network) (region : Section) (length : Nat) : Prop :=
  ∃ regions, net.sections = .ok regions ∧ region ∈ regions ∧
    net.dataParallelLength? region = .ok (some length) ∧ 1 < length

/-- The cuts of a section: one between any two positions of its branches, or none if it is not
data-parallel. -/
def Gains (net : Network) (region : Section) (group : List Cut) : Prop :=
  ∃ measured, net.dataParallelLength? region = .ok measured ∧
    group.length = measured.elim 0 (· - 1) ∧
    ∀ position cut, group[position]? = some cut →
      ∃ chains, net.branchChains region = .ok chains ∧ net.Stage chains position cut.lanes

theorem forall₂_of_mapM {α β : Type} {question : α → Except Fault β} {entries : List α}
    {answers : List β} (asked : entries.mapM question = .ok answers) :
    List.Forall₂ (fun entry ans => question entry = .ok ans) entries answers := by
  induction entries generalizing answers with
  | nil =>
    cases asked
    exact .nil
  | cons entry entries ih =>
    rw [mapM_cons] at asked
    cases first : question entry with
    | error fault => simp [first, bind, Except.bind] at asked
    | ok ans =>
      cases rest : entries.mapM question with
      | error fault => simp [first, rest, bind, Except.bind] at asked
      | ok others =>
        rw [first, rest] at asked
        cases asked
        exact .cons first (ih rest)

theorem exists_sections {regs : List (Section × Nat)} {notes : List Diagnostic}
    (asked : net.dataParallelSections = .ok (regs, notes)) :
    ∃ has measured, net.sections = .ok has ∧
      List.Forall₂ (fun reg len => net.dataParallelLength? reg = .ok len) has measured ∧
      regs = (has.zip measured).filterMap fun (reg, len) => len.map (reg, ·) := by
  unfold dataParallelSections at asked
  cases sections : net.sections with
  | error fault => simp [sections, bind, Except.bind] at asked
  | ok has =>
    rw [sections] at asked
    change (has.mapM (fun reg => return (reg, ← net.dataParallelLength? reg)) >>= _) = _ at asked
    cases measured : has.mapM (fun reg => return (reg, ← net.dataParallelLength? reg)) with
    | error fault =>
      rw [measured] at asked
      cases asked
    | ok pairs =>
      rw [measured] at asked
      cases asked
      -- Each section is paired with its own length.
      have paired : List.Forall₂
          (fun reg pair => pair.1 = reg ∧ net.dataParallelLength? reg = .ok pair.2) has pairs := by
        refine (forall₂_of_mapM measured).imp fun reg pair isPair => ?_
        cases len : net.dataParallelLength? reg with
        | error fault => simp [len, bind, Except.bind] at isPair
        | ok len =>
          rw [len] at isPair
          cases isPair
          exact ⟨rfl, rfl⟩
      refine ⟨has, pairs.map Prod.snd, rfl,
        forall₂_map_right_iff.mpr (paired.imp fun _ _ held => held.2), ?_⟩
      have whole : has.zip (pairs.map Prod.snd) = pairs := by
        clear sections measured
        induction paired with
        | nil => rfl
        | cons held _ ih => rw [map_cons, zip_cons_cons, ih, ← held.1]
      rw [whole]

theorem exists_gains {has : List Section} {measured : List (Option Nat)} {groups : List (List Cut)}
    (inv : net.Consistent)
    (measures : List.Forall₂ (fun reg len => net.dataParallelLength? reg = .ok len) has measured)
    (divided : List.Forall₂ net.Divides
      ((has.zip measured).filterMap fun (reg, len) => len.map (reg, ·)) groups) :
    ∃ all, List.Forall₂ net.Gains has all ∧ all.flatten = groups.flatten := by
  induction measures generalizing groups with
  | nil =>
    cases divided
    exact ⟨[], .nil, rfl⟩
  | @cons reg len has measured isLen _ ih =>
    cases len with
    | none =>
      obtain ⟨all, gains, same⟩ := ih (by simpa using divided)
      exact ⟨[] :: all, .cons ⟨none, isLen, rfl, by simp⟩ gains, by simpa using same⟩
    | some len =>
      obtain ⟨group, groups, first, rest, rfl⟩ := forall₂_cons_left_iff.mp divided
      obtain ⟨all, gains, same⟩ := ih rest
      obtain ⟨chains, proc, bundle, -, -, counts, segs, -⟩ := first
      refine ⟨group :: all, .cons ⟨some len, isLen, counts, fun pos cut isCut => ?_⟩ gains,
        by simp [same]⟩
      exact ⟨chains, bundle.branchChains_eq inv, (segs pos cut isCut).2⟩

/--
Cutting the branches of data-parallel sections into segments keeps the meaning.

The cuts are made unless a section that is to be cut does not start at top level.
The solutions before and after are the same at the ports that were there before, whatever the values
are and whatever processes other than zips and unzips do. Between any two positions of its branches
a data-parallel section gets one zip and one unzip, with one index for each branch, and no other
connection changes.
-/
theorem splitSegments_meaning (wellFormed : net.WellFormed) (valid : net.validate = []) :
    ((∃ report next, Edit.splitSegments.run net = .ok report next) ↔
      ∀ region length process, net.Divisible region length →
        net.process? region.start = some process → process.hierarchy.parent? = none) ∧
    ∀ report next, Edit.splitSegments.run net = .ok report next →
      (∀ (Value : Type u) (model : Semantics Value) (values : PortKey → Value),
        model.SolvesOn net net values ↔ model.SolvesOn net next values) ∧
      ∃ regions groups, net.sections = .ok regions ∧ List.Forall₂ net.Gains regions groups ∧
        net.Split groups.flatten next := by
  have consistent := wellFormed.toConsistent
  have legal := consistent.validate_eq_nil_iff.mp valid
  have ready := wellFormed.ready legal
  obtain ⟨regions, notes, asked, pending, -, reported⟩ := ready.dataParallelSections_eq
  obtain ⟨found, measured, sections, measures, isRegions⟩ := exists_sections asked
  have divisible {region : Section} {length : Nat} : net.Divisible region length ↔
      (region, length) ∈ regions ∧ 1 < length := by
    rw [isRegions, mem_filterMap]
    constructor
    · rintro ⟨again, sectionsAgain, listed, isLength, long⟩
      rw [sections] at sectionsAgain
      cases sectionsAgain
      obtain ⟨other, paired, isOther⟩ := exists_mem_zip measures listed
      rw [isLength] at isOther
      cases isOther
      exact ⟨⟨_, paired, rfl⟩, long⟩
    · rintro ⟨⟨⟨again, other⟩, paired, same⟩, long⟩
      obtain ⟨count, rfl, isPair⟩ := Option.map_eq_some_iff.mp same
      cases isPair
      exact ⟨found, sections, (of_mem_zip paired).1, (forall₂_iff_zip.mp measures).2 paired, long⟩
  have ends : Edit.splitSegments.Ends net
      (fun _ next => ∃ groups, List.Forall₂ net.Divides regions groups ∧
        net.Cutting groups.flatten next)
      (fun _ => ∃ entry ∈ regions, 1 < entry.2 ∧
        ∃ process, net.process? entry.1.start = some process ∧
        process.hierarchy.parent? ≠ none) := by
    simp only [Edit.splitSegments, Edit.ends_bind, Edit.ends_get, legal.ensureFlat_eq,
      Edit.ends_answer, asked]
    exact pending.ends_splitSections ready _
  refine ⟨⟨?_, fun top => ?_⟩, fun report next runs => ?_⟩
  · -- Every section that is cut starts at top level.
    rintro ⟨report, next, runs⟩ region length process isDivisible stored
    rw [Edit.Ends, runs] at ends
    obtain ⟨groups, divided, -⟩ := ends
    obtain ⟨listed, long⟩ := divisible.mp isDivisible
    obtain ⟨group, -, chains, again, -, -, storedAgain, -, -, top⟩ := exists_mem_zip divided listed
    obtain rfl := Option.mem_unique stored storedAgain
    exact top long
  · cases runs : Edit.splitSegments.run net with
    | ok report next => exact ⟨report, next, rfl⟩
    | error fault next =>
      rw [Edit.Ends, runs] at ends
      obtain ⟨⟨region, length⟩, listed, long, process, stored, below⟩ := ends
      exact absurd (top region length process (divisible.mpr ⟨listed, long⟩) stored) below
  · rw [Edit.Ends, runs] at ends
    obtain ⟨groups, divided, cutting⟩ := ends
    subst isRegions
    obtain ⟨all, gains, same⟩ := exists_gains consistent measures divided
    refine ⟨fun Value model values => cutting.solvesOn_iff consistent (Nat.le_refl _) values, found,
      all, sections, gains, ?_⟩
    rw [same]
    exact cutting.split consistent (connects_of_divides divided)

/-- Two branches of three maps each between an unzip at the given place and a zip. -/
def threeStages (place : Hierarchy) : List Operation :=
  [.addProcess "u" .unzip place, .addPort "u" "in" .input none, .addPort "u" "out0" .output none,
    .addPort "u" "out1" .output none] ++
    Operation.addAll none [("a", .map increment, ["in"], ["out"]),
      ("b", .map increment, ["in"], ["out"]), ("c", .map increment, ["in"], ["out"]),
      ("d", .map increment, ["in"], ["out"]), ("e", .map increment, ["in"], ["out"]),
      ("f", .map increment, ["in"], ["out"]), ("z", .zip, ["in0", "in1"], ["out"])] ++
    [.connect 1 3, .connect 4 5, .connect 6 7, .connect 8 15, .connect 2 9, .connect 10 11,
      .connect 12 13, .connect 14 16, .addInput 0, .addOutput 17]

theorem wellFormed_threeStages : (Operation.build (threeStages {})).WellFormed :=
  ⟨(Reachable.empty.foldl (by simp [Operation.Allowed, threeStages])).inv, by decide +kernel⟩

theorem valid_threeStages : (Operation.build (threeStages {})).validate = [] :=
  List.isEmpty_iff.mp (by decide +kernel)

/-- A section whose branches have three processes each gets two zips and two unzips. -/
theorem splitSegments_meaning_threeStages :
    (Operation.build (threeStages {})).WellFormed ∧
    (Operation.build (threeStages {})).validate = [] ∧
    (match Edit.splitSegments.run (Operation.build (threeStages {})) with
      | .ok report next => decide (report.applied = 1 ∧ next.size = 12)
      | .error _ _ => false) = true ∧
    ∀ report next, Edit.splitSegments.run (Operation.build (threeStages {})) = .ok report next →
      (∀ (Value : Type) (model : Semantics Value) (values : PortKey → Value),
        model.SolvesOn (Operation.build (threeStages {})) (Operation.build (threeStages {}))
            values ↔
          model.SolvesOn (Operation.build (threeStages {})) next values) ∧
      ∃ regions groups, (Operation.build (threeStages {})).sections = .ok regions ∧
        List.Forall₂ (Operation.build (threeStages {})).Gains regions groups ∧
        (Operation.build (threeStages {})).Split groups.flatten next :=
  ⟨wellFormed_threeStages,
    valid_threeStages,
    by decide +kernel, (splitSegments_meaning wellFormed_threeStages valid_threeStages).2⟩

/-- The section of an unzip that was inside a composite, which has been removed since. -/
def orphanedSection : Network :=
  Operation.build
    ([.addProcess "outer" (.composite {}) {}] ++ threeStages ⟨["outer"]⟩ ++
      [.removeProcess "outer"])

/-- A section is not cut if its start has lost the composite around it. -/
theorem splitSegments_meaning_orphaned :
    orphanedSection.WellFormed ∧ orphanedSection.validate = [] ∧
    ∃ fault next, Edit.splitSegments.run orphanedSection = .error fault next := by
  have wellFormed : orphanedSection.WellFormed :=
    ⟨(Reachable.empty.foldl (by simp [Operation.Allowed, threeStages])).inv,
      by decide +kernel⟩
  have valid : orphanedSection.validate = [] := List.isEmpty_iff.mp (by decide +kernel)
  have refuses : (Edit.splitSegments.refusal? orphanedSection).isSome := by decide +kernel
  exact ⟨wellFormed, valid, _, Edit.exists_run_of_refusal? (Option.eq_some_of_isSome refuses)⟩

end Network

end Dataflow
