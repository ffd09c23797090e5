import Dataflow.Proofs.Transform.Stranded

/-! Well-formed hierarchies: flattening takes all composites out of them, unless their boundary is
stranded. -/

open List

namespace Dataflow

namespace Process

/-- The helpers that a process lists for its ports in a direction, if it is a composite. -/
def listed (process : Process) (direction : Direction) : List ProcessId :=
  match process.kind with
  | .composite inside => inside.listed direction
  | _ => []

theorem listed_eq {proc : Process} {inside : Composite} (kind : proc.kind = .composite inside)
    (dir : Direction) : proc.listed dir = inside.listed dir := by
  rw [listed, kind]

theorem mem_listed {proc : Process} {dir : Direction} {helper : ProcessId}
    (isMem : helper ∈ proc.listed dir) :
    ∃ inside, proc.kind = .composite inside ∧ helper ∈ inside.listed dir := by
  unfold listed at isMem
  split at isMem
  · grind
  · cases isMem

end Process

namespace Network

variable {net : Network} {helper : ProcessId} {key : PortKey}

/-- All helpers that are listed. -/
def helperIds (net : Network) : List ProcessId :=
  net.processes.toList.flatMap fun entry => entry.2.listed .input ++ entry.2.listed .output

/-- Every process fits its kind, composites list helpers of their own, and the boundary leads to
processes that stay. -/
structure Hierarchical (net : Network) : Prop where
  fit : ∀ {id process}, net.process? id = some process → process.defect? = none
  /-- Helpers are of the right kind, and directly inside their composite. -/
  helpers : ∀ {composite direction index helper},
    net.helperAt? composite direction index = some helper →
    ∃ process, net.process? helper = some process ∧ process.kind = direction.helperKind ∧
      process.hierarchy.parent? = some composite
  once : net.helperIds.Nodup
  free : ∀ {side key}, key ∈ net.boundary side → net.peer? key = none
  outside : ∀ {side key port}, key ∈ net.boundary side → net.port? key = some port →
    port.owner ∉ net.helperIds
  ends : ∀ {side key}, key ∈ net.boundary side →
    ∃ trail target, net.Arrives side key trail target ∧ net.Stays target

theorem mem_helperIds_iff :
    helper ∈ net.helperIds ↔ ∃ comp dir idx, net.helperAt? comp dir idx = some helper := by
  simp only [helperIds, mem_flatMap]
  constructor
  · rintro ⟨⟨id, proc⟩, got, mem⟩
    obtain ⟨dir, isMem⟩ : ∃ dir, helper ∈ proc.listed dir := by
      rwa [Direction.exists_iff, ← mem_append]
    obtain ⟨inside, kind, inList⟩ := Process.mem_listed isMem
    obtain ⟨idx, atIdx⟩ := mem_iff_getElem?.mp inList
    exact ⟨id, dir, idx, helperAt?_eq_some.mpr ⟨proc, inside, mem_toList.mp got, kind, atIdx⟩⟩
  · rintro ⟨id, dir, idx, mem⟩
    obtain ⟨proc, inside, got, kind, atIdx⟩ := helperAt?_eq_some.mp mem
    refine ⟨(id, proc), mem_toList.mpr got, ?_⟩
    simp only [Process.listed_eq kind]
    exact Helpers.mem_iff.mpr ⟨dir, mem_of_getElem? atIdx⟩

theorem helperAt?_inj (once : net.helperIds.Nodup) {id other : ProcessId} {dir side : Direction}
    {idx place : Nat} (first : net.helperAt? id dir idx = some helper)
    (second : net.helperAt? other side place = some helper) :
    id = other ∧ dir = side ∧ idx = place := by
  -- No helper is listed twice, be it by two composites or by one.
  obtain ⟨proc, inside, got, kind, mem⟩ := helperAt?_eq_some.mp first
  obtain ⟨has, around, gotToo, kindToo, memToo⟩ := helperAt?_eq_some.mp second
  obtain ⟨each, apart⟩ := nodup_flatMap.mp once
  have isHelper {proc : Process} {inside : Composite} {dir : Direction} {idx : Nat}
      (kind : proc.kind = .composite inside)
      (atIdx : (inside.listed dir)[idx]? = some helper) : helper ∈ proc.listed .input ++
        proc.listed .output := by
    simp only [Process.listed_eq kind]
    exact Helpers.mem_iff.mpr ⟨dir, mem_of_getElem? atIdx⟩
  have same : id = other := by
    by_contra different
    have : Std.Symm
        (Function.onFun List.Disjoint fun entry : ProcessId × Process =>
          entry.2.listed .input ++ entry.2.listed .output) :=
      ⟨fun _ _ disjoint _ isOne isOther => disjoint isOther isOne⟩
    have disjoint := apart.forall (mem_toList.mpr got) (mem_toList.mpr gotToo) fun same =>
      different (Prod.mk.inj same).1
    exact disjoint (isHelper kind mem) (isHelper kindToo memToo)
  subst same
  obtain rfl := Option.mem_unique got gotToo
  obtain rfl := Kind.composite.inj (kind.symm.trans kindToo)
  have distinct := each _ (mem_toList.mpr got)
  simp only [Process.listed_eq kind] at distinct
  exact ⟨rfl, Helpers.listed_inj distinct mem memToo⟩

theorem Hierarchical.fitted (hierarchical : net.Hierarchical) : net.Fitted where
  counts got kind := (Process.defect?_composite_iff kind).mp (hierarchical.fit got)
  helpers mem := by
    obtain ⟨proc, got, kind, -⟩ := hierarchical.helpers mem
    exact ⟨proc, got, kind, Process.ports_ne_nil_of_helper kind (hierarchical.fit got)⟩
  once := helperAt?_inj hierarchical.once

theorem Hierarchical.orderly (hierarchical : net.Hierarchical) (inv : net.Consistent)
    (placed : net.Placed) (sided : net.Sided) : net.Orderly where
  inv := inv
  placed := placed
  fitted := hierarchical.fitted
  singlePort := hierarchical.fitted.singlePort fun _ => hierarchical.fit
  sided := sided
  guided := by
    refine ⟨fun {side key} mem src follows => ?_, hierarchical.ends⟩
    obtain ⟨port, has, rfl⟩ := sided mem
    have conn := (inv.peer?_eq_some has).mpr follows
    rw [hierarchical.free mem] at conn
    cases conn

/-- A well-formed hierarchy is flattened if and only if its boundary is not stranded. -/
theorem flatten_succeeds_iff {text : String} (loaded : load text = .ok net)
    (hierarchical : net.Hierarchical) :
    (∃ report next, Edit.flatten.run net = .ok report next) ↔ ¬ net.Stranded := by
  -- A network that was loaded and is hierarchical is orderly, and flattening is judged for those.
  obtain ⟨description, -, coherent, built⟩ := exists_description loaded
  exact (hierarchical.orderly built.declares.inv (built.placed coherent.toArranged)
    built.sided).exists_flatten_iff

/-- What can be read off processes and boundary of a well-formed hierarchy. -/
def tidy (net : Network) : Bool :=
  net.processes.toList.all
    (fun (id, process) => process.defect? = none && [Direction.input, .output].all fun direction =>
    (process.listed direction).all fun helper => (net.process? helper).any fun found =>
      found.kind = direction.helperKind && found.hierarchy.parent? = some id) &&
    decide net.helperIds.Nodup && (net.inputs ++ net.outputs).all fun key => net.peer? key =
      none && (net.port? key).all (·.owner ∉ net.helperIds)

/-- A port of a leaf that is not listed as a helper. -/
def staysAt (net : Network) (key : PortKey) : Bool :=
  (net.port? key).any fun port =>
    (net.process? port.owner).any (·.kind.isLeaf) && port.owner ∉ net.helperIds

theorem stays_of_staysAt (stays : net.staysAt key) : net.Stays key := by
  simp only [staysAt, Option.any_eq_true, Bool.and_eq_true, decide_eq_true_eq] at stays
  obtain ⟨port, has, ⟨proc, got, leaf⟩, unlisted⟩ := stays
  refine ⟨port, has, ?_⟩
  rintro (⟨too, gotToo, comp⟩ | mem)
  · grind
  · exact unlisted (mem_helperIds_iff.mpr mem)

theorem Hierarchical.of_tidy (tidy : net.tidy)
    (ends : ∀ {side key}, key ∈ net.boundary side →
      ∃ trail dst, net.Arrives side key trail dst ∧ net.Stays dst) : net.Hierarchical := by
  simp only [Network.tidy, Bool.and_eq_true, all_eq_true, decide_eq_true_eq] at tidy
  obtain ⟨⟨each, once⟩, bdry⟩ := tidy
  have outer {side key} (mem : key ∈ net.boundary side) : key ∈ net.inputs ++ net.outputs :=
    mem_append.mpr (by simpa [isBoundary] using isBoundary_iff.mpr ⟨side, mem⟩)
  refine ⟨fun got => (each _ (mem_toList.mpr got)).1, fun {comp dir idx helper} mem => ?_, once,
    fun mem => (bdry _ (outer mem)).1, fun {side key port} mem has => ?_, ends⟩
  · obtain ⟨proc, inside, got, kind, atIdx⟩ := helperAt?_eq_some.mp mem
    have inList : helper ∈ proc.listed dir := by
      rw [Process.listed_eq kind]
      exact mem_of_getElem? atIdx
    have known := (each _ (mem_toList.mpr got)).2 dir (by cases dir <;> simp) helper inList
    simpa only [Option.any_eq_true, Bool.and_eq_true, decide_eq_true_eq] using known
  · grind

theorem connects_of_any {src dst : PortKey}
    (leads : (net.port? src).any fun port =>
      port.direction = .output && port.connection = some dst) : net.Connects src dst := by
  simp only [Option.any_eq_true, Bool.and_eq_true, decide_eq_true_eq] at leads
  exact leads

end Network

/-- Composites inside each other, with the boundary at one of them, are a well-formed hierarchy;
their boundary is not stranded. -/
theorem Network.flatten_succeeds_nestedPassage :
    ∃ net report next, load Description.nestedPassage.compact = .ok net ∧ net.Hierarchical ∧
      Edit.flatten.run net = .ok report next ∧ ¬ net.Stranded := by
  obtain ⟨net, loaded, passed⟩ :=
    exists_load .nestedPassage
      (fun net => net.tidy && [0, 5, 12, 13].all net.staysAt && net.inputs = [0, 6] && net.outputs =
        [5, 13] && net.helperAt? "e" .input 0 = some "e1" && net.portAt? "e" .input 0 =
        some 6 && net.portAt? "e1" .output 0 =
        some 11 &&
        ((net.port? 11).any fun port => port.direction = .output && port.connection = some 12) &&
        Edit.flatten.succeeds net (fun _ _ => True)) (by decide +kernel) (by decide +kernel)
      (by decide +kernel)
  simp only [Bool.and_eq_true, decide_eq_true_eq] at passed
  obtain ⟨⟨⟨⟨⟨⟨⟨⟨tidy, stays⟩, inputs⟩, outputs⟩, isHelper⟩, atOuter⟩, atInner⟩, leads⟩,
    flattened⟩ := passed
  have stays {key : PortKey} (listed : key ∈ [0, 5, 12, 13]) : net.Stays key :=
    stays_of_staysAt (all_eq_true.mp stays key listed)
  have hierarchical : net.Hierarchical := by
    refine .of_tidy tidy fun {side key} listed => ?_
    cases side with
    | input =>
      rw [boundary, inputs] at listed
      rcases mem_cons.mp listed with rfl | listed
      · exact ⟨[], 0, .stay, stays (by decide)⟩
      · obtain rfl := mem_singleton.mp listed
        exact ⟨["e1"], 12,
          .cross (.inl ⟨"e", 0, isHelper, atOuter, atInner⟩) (.join (connects_of_any leads)),
          stays (by decide)⟩
    | output =>
      rw [boundary, outputs] at listed
      exact ⟨[], key, .stay, stays (by revert key; decide)⟩
  obtain ⟨report, next, runs, -⟩ := Edit.exists_run_of_succeeds flattened
  exact ⟨net, report, next, loaded, hierarchical, runs,
    (flatten_succeeds_iff loaded hierarchical).mp ⟨report, next, runs⟩⟩

/-- A composite on the boundary passes its input on to its output. -/
def Description.boundaryPassage : Description where
  processes := [
    { id := "c", kind := .composite { inputs := ["h"], outputs := ["g"] },
      inPorts := [{ name := "i" }], outPorts := [{ name := "o" }] },
    { id := "x", kind := .delay "0", inPorts := [{ name := "i" }], outPorts := [{ name := "o" }] },
    { id := "h", parent := some "c", kind := .inport, outPorts := [{ name := "o" }] },
    { id := "g", parent := some "c", kind := .outport, inPorts := [{ name := "i" }] }]
  connections := [{ source := "h.o", target := "g.i" }, { source := "c.o", target := "x.i" }]
  inputs := ["c.i"]
  outputs := ["x.o"]

/-- When its first helper goes, the boundary is left at the second one, and that one cannot go. -/
theorem Network.flatten_fails_boundaryPassage :
    ∃ net next, load Description.boundaryPassage.compact = .ok net ∧ net.Hierarchical ∧
      Edit.flatten.run net = .error (.danglingBoundary 5 "g") next := by
  obtain ⟨net, loaded, passed⟩ :=
    exists_load .boundaryPassage
      (fun net => net.tidy && [2, 3].all net.staysAt && net.inputs = [0] && net.outputs =
        [3] && net.helperAt? "c" .input 0 = some "h" && net.portAt? "c" .input 0 =
        some 0 && net.portAt? "h" .output 0 = some 4 && net.helperAt? "c" .output 0 =
        some "g" && net.portAt? "c" .output 0 = some 1 && net.portAt? "g" .input 0 =
        some 5 &&
        ((net.port? 4).any fun port => port.direction = .output && port.connection = some 5) &&
        ((net.port? 1).any fun port => port.direction = .output && port.connection = some 2) &&
        Edit.flatten.refusal? net = some (.danglingBoundary 5 "g")) (by decide +kernel)
      (by decide +kernel) (by decide +kernel)
  simp only [Bool.and_eq_true, decide_eq_true_eq] at passed
  obtain ⟨⟨⟨⟨⟨⟨⟨⟨⟨⟨⟨⟨tidy, stays⟩, inputs⟩, outputs⟩, isFirst⟩, atFirst⟩, inFirst⟩, isSecond⟩,
    atSecond⟩, inSecond⟩, leads⟩, leadsToo⟩, flattened⟩ := passed
  have stays {key : PortKey} (listed : key ∈ [2, 3]) : net.Stays key :=
    stays_of_staysAt (all_eq_true.mp stays key listed)
  have hierarchical : net.Hierarchical := by
    refine .of_tidy tidy fun {side key} listed => ?_
    cases side with
    | input =>
      -- The way from the boundary leads into the composite, out of it again and on to the delay.
      rw [boundary, inputs] at listed
      obtain rfl := mem_singleton.mp listed
      exact ⟨["h", "g"], 2,
        .cross (.inl ⟨"c", 0, isFirst, atFirst, inFirst⟩)
        (.cross (connects_of_any leads) (.inr ⟨"c", 0, isSecond, atSecond, inSecond⟩)
          (.join (connects_of_any leadsToo))), stays (by decide)⟩
    | output =>
      rw [boundary, outputs] at listed
      exact ⟨[], 3, mem_singleton.mp listed ▸ .stay, stays (by decide)⟩
  obtain ⟨next, runs⟩ := Edit.exists_run_of_refusal? flattened
  exact ⟨net, next, loaded, hierarchical, runs⟩

end Dataflow
