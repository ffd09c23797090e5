import Dataflow.Proofs.Transform.Passage
import Dataflow.Proofs.Transform.Release

/-! Inlining a composite: its gates are bridged in turn, its children move up, and it goes. -/

open List

namespace Dataflow

/-- An opening as it is listed, with its position. -/
def Opening.ofEntry (direction : Direction) (entry : (PortKey × ProcessId) × Nat) : Opening where
  direction := direction
  outer := entry.1.1
  helper := entry.1.2

/-- The ports of a process in a direction, with the helpers that stand for them. -/
def Process.openings (process : Process) (helpers : Helpers) (direction : Direction) :
    List Opening :=
  ((process.ports direction).zip (helpers.listed direction)).map fun (outer, helper) =>
    { direction, outer, helper }

/-- All ports of a process with their helpers, in the order in which they are bridged. -/
def Process.gates (process : Process) (helpers : Helpers) : List Opening :=
  process.openings helpers .input ++ process.openings helpers .output

theorem Process.map_helper_gates {proc : Process} {helpers : Helpers}
    (counts : ∀ dir, (proc.ports dir).length = (helpers.listed dir).length) :
    (proc.gates helpers).map (·.helper) = helpers.inputs ++ helpers.outputs := by
  have each (dir : Direction) : (proc.openings helpers dir).map (·.helper) =
      helpers.listed dir := by
    rw [openings, map_map]
    exact map_snd_zip (Nat.le_of_eq (counts dir).symm)
  rw [gates, map_append, each, each]
  rfl

theorem Helpers.mem_iff {helpers : Helpers} {helper : ProcessId} :
    helper ∈ helpers.inputs ++ helpers.outputs ↔ ∃ dir, helper ∈ helpers.listed dir := by
  rw [Direction.exists_iff]
  exact mem_append

theorem Helpers.listed_inj {helpers : Helpers} {helper : ProcessId} {dir side : Direction}
    {idx place : Nat} (distinct : (helpers.inputs ++ helpers.outputs).Nodup)
    (first : (helpers.listed dir)[idx]? = some helper)
    (second : (helpers.listed side)[place]? = some helper) : dir = side ∧ idx = place := by
  obtain ⟨distinctIns, distinctOuts, disjoint⟩ := nodup_append.mp distinct
  have once (dir : Direction) : (helpers.listed dir).Nodup := by
    cases dir
    · exact distinctIns
    · exact distinctOuts
  have same : dir = side := by
    cases dir <;> cases side
    · rfl
    · exact absurd rfl (disjoint helper (mem_of_getElem? first) helper (mem_of_getElem? second))
    · exact absurd rfl (disjoint helper (mem_of_getElem? second) helper (mem_of_getElem? first))
    · rfl
  subst same
  exact ⟨rfl, (getElem?_inj (List.getElem?_eq_some_iff.mp first).1 (once dir)).mp
    (first.trans second.symm)⟩

theorem Process.mem_gates {proc : Process} {helpers : Helpers} {dir : Direction} {idx : Nat}
    (inRange : idx < (proc.ports dir).length) (inRangeToo : idx < (helpers.listed dir).length) :
    { direction := dir, outer := (proc.ports dir)[idx], helper := (helpers.listed dir)[idx] } ∈
      proc.gates helpers := by
  have both : idx < ((proc.ports dir).zip (helpers.listed dir)).length := by grind
  have paired := getElem_mem both
  rw [getElem_zip] at paired
  have isOpening :=
    mem_map_of_mem (f := fun (outer, helper) => ({ direction := dir, outer, helper } : Opening))
      paired
  cases dir with
  | input => exact mem_append_left _ isOpening
  | output => exact mem_append_right _ isOpening

namespace Network

variable {net mid next : Network} {id helper other : ProcessId} {proc new : Process}
  {inside : Composite}
  {openings goal front back : List Opening} {opening : Opening} {lost : List ProcessId}
  {dir : Direction}

theorem opens_of_mem (got : net.process? id = some proc) (kind : proc.kind = .composite inside)
    (mem : opening ∈ proc.gates inside.toHelpers) : net.Opens id opening := by
  obtain ⟨dir, isOpening⟩ : ∃ dir, opening ∈ proc.openings inside.toHelpers dir := by
    rwa [Direction.exists_iff, ← mem_append]
  obtain ⟨⟨outer, helper⟩, paired, rfl⟩ := mem_map.mp isOpening
  obtain ⟨idx, inRange, same⟩ := mem_iff_getElem.mp paired
  rw [getElem_zip, Prod.mk.injEq] at same
  refine ⟨idx, (helperAt?_of_composite got kind).trans ?_, portAt?_eq_some.mpr ⟨proc, got, ?_⟩⟩
  · exact List.getElem?_eq_some_iff.mpr ⟨_, same.2⟩
  · exact List.getElem?_eq_some_iff.mpr ⟨_, same.1⟩

namespace BridgedAll

variable (all : net.BridgedAll openings mid)

include all

section

variable (inv : net.Consistent) (placed : net.Placed)

include inv placed

theorem dissolved : net.Dissolved (openings.map (·.helper)) mid := by
  induction all with
  | nil => exact .refl inv placed
  | snoc _ _ bridged ih =>
    rw [map_append]
    exact ih.trans bridged.dissolved

/-- The helpers at bridged gates were helpers of the right kinds, all different. -/
theorem helpers :
    (openings.map (·.helper)).Nodup ∧
    ∀ opening ∈ openings, ∃ proc, net.process? opening.helper = some proc ∧
      proc.kind = opening.direction.helperKind ∧ proc.ports opening.direction.opposite ≠ [] := by
  induction all with
  | nil => exact ⟨nodup_nil, by simp⟩
  | @snoc openings mid next opening gone inner pre bridging bridged ih =>
    obtain ⟨distinct, known⟩ := ih
    obtain ⟨still, old, got, core, -⟩ := (pre.dissolved inv placed).exists_former bridging.stored
    constructor
    · rw [map_append]
      refine nodup_append.mpr
        ⟨distinct, nodup_singleton _, fun helper mem other isNew same => still ?_⟩
      rw [same, mem_singleton.mp isNew] at mem
      exact mem
    · intro other mem
      rcases mem_append.mp mem with early | here
      · exact known other early
      obtain rfl := mem_singleton.mp here
      have leaf : gone.kind.isLeaf := by rw [bridging.kind]; exact other.direction.isLeaf_helperKind
      refine ⟨old, got, (Process.kind_eq core leaf).trans bridging.kind, fun empty => ?_⟩
      rw [← Process.ports_core, core, Process.ports_core] at empty
      have first := bridging.first
      simp [empty] at first

theorem leaves :
    ∀ id ∈ openings.map (·.helper), ∃ proc, net.process? id = some proc ∧ proc.kind.isLeaf := by
  intro id mem
  obtain ⟨opening, isOpening, rfl⟩ := mem_map.mp mem
  obtain ⟨proc, got, kind, -⟩ := (all.helpers inv placed).2 opening isOpening
  exact ⟨proc, got, by rw [kind]; exact opening.direction.isLeaf_helperKind⟩

end

/-- Nothing leads to the port of a bridged gate. -/
theorem unconnected (mem : opening ∈ openings) (src : PortKey) :
    ¬ mid.Follows opening.direction src opening.outer := by
  induction all generalizing src with
  | nil => cases mem
  | @snoc openings mid next last gone inner pre bridging bridged ih =>
    intro follows
    rcases mem_append.mp mem with early | here
    · have free := ih early
      by_cases along : opening.direction = last.direction
      · rw [along] at follows free
        obtain ⟨-, -, -, -, still | ⟨-, still⟩⟩ := bridged.follows.mp follows
        · exact free _ still
        · exact free _ still
      · rw [eq_opposite_of_ne along] at follows free
        obtain ⟨-, -, -, -, still | ⟨still, -⟩⟩ := bridged.follows.mp (follows_opposite.mp follows)
        · exact free _ (follows_opposite.mpr still)
        · exact free _ (follows_opposite.mpr still)
    · obtain rfl := mem_singleton.mp here
      obtain ⟨-, -, -, apart, -⟩ := bridged.follows.mp follows
      exact apart rfl

theorem midway (start : net.Midway [] net) (opens : ∀ opening ∈ openings, net.Opens id opening) :
    net.Midway (openings.map (·.helper)) mid ∧ net.Rerouted (openings.map (·.helper)) mid := by
  induction all with
  | nil => exact ⟨start, .refl⟩
  | snoc _ bridging bridged ih =>
    obtain ⟨midway, rerouted⟩ := ih fun opening mem => opens opening (mem_append_left _ mem)
    have opensLast := opens _ (mem_append_right _ (mem_singleton_self _))
    rw [map_append]
    exact ⟨midway.step opensLast bridging bridged,
      rerouted.trans (midway.rerouted opensLast bridging bridged) bridged.dissolved⟩

end BridgedAll

section

variable (all : net.BridgedAll openings mid) (inv : net.Consistent) (placed : net.Placed)

include all inv placed

section

variable (got : net.process? id = some proc) (comp : proc.kind.isLeaf = false)

include got comp

theorem BridgedAll.not_mem : id ∉ openings.map (·.helper) := fun isLost => by
  have leaf := of_found got (all.leaves inv placed id isLost)
  simp [leaf] at comp

/-- The ports of a composite are live while its gates are bridged. -/
theorem BridgedAll.exists_outer (opens : net.Opens id opening) :
    ∃ port, mid.port? opening.outer = some port ∧ port.direction = opening.direction := by
  have dissolved := all.dissolved inv placed
  obtain ⟨idx, -, atOuter⟩ := opens
  have atOuterStill : mid.portAt? id opening.direction idx = some opening.outer := by
    rw [dissolved.portAt?_eq, if_neg (all.not_mem inv placed got comp), atOuter]
  obtain ⟨port, has, -, facing⟩ := dissolved.evolves.inv.exists_port atOuterStill
  exact ⟨port, has, facing⟩

end

end

/-- Some gate could not be bridged, though those before it were. -/
def Halted (net : Network) (goal : List Opening) : Prop :=
  ∃ front opening back middle, goal = front ++ opening :: back ∧ net.BridgedAll front middle ∧
    ∀ gone inner, middle.Bridging opening.direction opening.helper gone opening.outer inner →
      middle.Stuck opening.direction gone opening.outer inner

theorem BridgedAll.ends_step {α : Type} {edit : Edit α} (all : net.BridgedAll front mid)
    (inv : net.Consistent) (placed : net.Placed) (got : net.process? id = some proc)
    (comp : proc.kind.isLeaf = false) (opens : ∀ opening ∈ goal, net.Opens id opening)
    (split : front ++ opening :: back = goal)
    (bridges : edit.Bridges opening.direction opening.outer opening.helper) :
    edit.Ends mid (fun _ next => net.BridgedAll (front ++ [opening]) next) fun next =>
      net.Halted goal ∧ ∃ lost, net.Dissolved lost next := by
  have dissolved := all.dissolved inv placed
  have outerHas :=
    all.exists_outer inv placed got comp (opens opening (split ▸ mem_append_right _ mem_cons_self))
  refine (bridges mid dissolved.evolves.inv dissolved.placed outerHas).mono ?_ ?_
  · rintro _ next ⟨gone, inner, bridging, bridged⟩
    exact .snoc all bridging bridged
  · exact fun _ ⟨stuck, left⟩ =>
      ⟨⟨front, opening, back, mid, split.symm, all, stuck⟩, _, dissolved.trans left⟩

theorem Dissolved.hierarchy_eq (dissolved : net.Dissolved lost mid) (placed : net.Placed)
    (leaves : ∀ id ∈ lost, ∃ proc, net.process? id = some proc ∧ proc.kind.isLeaf)
    (gotNew : mid.process? id = some new) (got : net.process? id = some proc) :
    new.hierarchy = proc.hierarchy := by
  obtain ⟨-, old, gotOld, -, place⟩ := dissolved.exists_former gotNew
  obtain rfl := Option.mem_unique got gotOld
  rw [place]
  refine Hierarchy.outside_eq_self fun around isAround isLost => ?_
  obtain ⟨leaf, gotLeaf, isLeaf⟩ := leaves around isLost
  exact placed.not_mem_path_of_leaf gotLeaf isLeaf got isAround

/-- What is left when a composite was inlined. -/
structure Inlined (net : Network) (id : ProcessId) (process : Process) (inside : Composite)
    (next : Network) : Prop where
  counts : ∀ direction, (process.ports direction).length = (inside.listed direction).length
  steps : ∃ middle later around, net.BridgedAll (process.gates inside.toHelpers) middle ∧
    middle.process? id = some later ∧ later.core = process.core ∧ later.kind = .composite around ∧
    middle.Innermost later ∧ middle.Vacated id later around next

/-- What keeps a composite from being inlined. -/
inductive Uninlinable (net : Network) (process : Process) (inside : Composite) : Prop where
  | counts (direction : Direction)
    (differ : (process.ports direction).length ≠ (inside.listed direction).length)
  | halted (halted : net.Halted (process.gates inside.toHelpers))
  | occupied {middle : Network} {key : PortKey}
    (all : net.BridgedAll (process.gates inside.toHelpers) middle) (listed : key ∈ process.allPorts)
    (onBoundary : middle.isBoundary key)

/-- A composite one of whose helpers is gone, so that it can never be inlined. -/
def Jammed (net : Network) : Prop :=
  ∃ id process inside helper, net.process? id = some process ∧ process.kind = .composite inside ∧
    helper ∈ inside.inputs ++ inside.outputs ∧ net.process? helper = none

theorem ends_inlineComposite (inv : net.Consistent) (placed : net.Placed)
    (got : net.process? id = some proc) (kind : proc.kind = .composite inside)
    (innermost : net.Innermost proc) :
    (Edit.inlineComposite id).Ends net (fun _ next => net.Inlined id proc inside next) fun next =>
      net.Uninlinable proc inside ∧ ((∃ lost, net.Dissolved lost next) ∨ next.Jammed) := by
  have comp : proc.kind.isLeaf = false := by rw [kind]; rfl
  have opens : ∀ opening ∈ proc.gates inside.toHelpers, net.Opens id opening :=
    fun _ mem => opens_of_mem got kind mem
  unfold Edit.inlineComposite
  simp only [Edit.ends_bind, Edit.ends_get]
  rw [process_eq_ok.mpr got, Edit.ends_answer, kind]
  simp only
  split
  · rename_i differ
    have still := Dissolved.refl inv placed
    rcases differ with differ | differ
    · exact ⟨.counts .input differ, .inl ⟨_, still⟩⟩
    · exact ⟨.counts .output differ, .inl ⟨_, still⟩⟩
  rename_i same
  rw [not_or, not_not, not_not] at same
  have counts (dir : Direction) : (proc.ports dir).length = (inside.listed dir).length := by
    cases dir
    · exact same.1
    · exact same.2
  have pairs (dir : Direction) : ((proc.ports dir).zip (inside.listed dir)).zipIdx.map
      (Opening.ofEntry dir) = proc.openings inside.toHelpers dir := by
    conv_rhs =>
      rw [Process.openings, ← zipIdx_map_fst 0 ((proc.ports dir).zip (inside.listed dir)), map_map]
    rfl
  -- Each step bridges the gate that is next in line, first where values enter and then where they
  -- leave.
  refine Edit.ends_bind.mpr <| (Edit.ends_mapM (fun rest mid => ∃ front, net.BridgedAll front mid ∧
    front ++ (rest.map (Opening.ofEntry .input) ++ proc.openings inside.toHelpers .output) =
    proc.gates inside.toHelpers)
    ?_ ⟨[], .nil, ?_⟩).imp fun notes mid entered => ?_
  · rintro ⟨⟨outer, helper⟩, idx⟩ rest mid ⟨front, all, split⟩
    refine (all.ends_step inv placed got comp opens
      split (Edit.bridges_inlineInput id idx outer helper)).mono
      (fun _ next all => ⟨_, all, ?_⟩) fun _ failed => ⟨.halted failed.1, .inl failed.2⟩
    rw [append_assoc]
    exact split
  · exact congrArg (· ++ proc.openings inside.toHelpers .output) (pairs .input)
  obtain ⟨front, all, split⟩ := entered
  refine Edit.ends_bind.mpr <| (Edit.ends_forM (fun rest mid => ∃ front, net.BridgedAll front mid ∧
    front ++ rest.map (Opening.ofEntry .output) = proc.gates inside.toHelpers)
    ?_ ⟨front, all, ?_⟩).imp fun _ mid left => ?_
  · rintro ⟨⟨outer, helper⟩, idx⟩ rest mid ⟨front, all, split⟩
    refine (all.ends_step inv placed got comp opens
      split (Edit.bridges_inlineOutput id idx outer helper)).mono
      (fun _ next all => ⟨_, all, ?_⟩) fun _ failed => ⟨.halted failed.1, .inl failed.2⟩
    rw [append_assoc]
    exact split
  · rw [← split]
    exact congrArg (front ++ ·) (pairs .output)
  obtain ⟨front, all, split⟩ := left
  rw [map_nil, append_nil] at split
  subst split
  have dissolved := all.dissolved inv placed
  have leaves := all.leaves inv placed
  obtain ⟨new, gotNew, core, -⟩ := dissolved.exists_later got (all.not_mem inv placed got comp)
  have place : new.hierarchy = proc.hierarchy := dissolved.hierarchy_eq placed leaves gotNew got
  have newComp : new.kind.isLeaf = false := by rw [Process.isLeaf_eq core, comp]
  obtain ⟨around, newKind⟩ : ∃ around, new.kind = .composite around := by
    cases newKind : new.kind <;> simp_all [Kind.isLeaf, Kind.inside?]
  have innermostNew : mid.Innermost new := by
    intro other has gotHas isComp
    obtain ⟨-, old, gotOld, coreOld, -⟩ := dissolved.exists_former gotHas
    rw [dissolved.hierarchy_eq placed leaves gotHas gotOld, place]
    refine innermost other old gotOld ?_
    rw [Process.isLeaf_eq coreOld, isComp]
  have ports : new.allPorts = proc.allPorts := (congrArg Process.allPorts core :)
  have vacates := ends_vacate dissolved.evolves.inv dissolved.placed gotNew newKind
  have occupied (next : Network) :
      ((∃ key ∈ new.allPorts, mid.isBoundary key) ∧ next.process? id = some new ∧
        ∀ other, mid.process? other = none → next.process? other = none) →
      net.Uninlinable proc inside ∧ ((∃ lost, net.Dissolved lost next) ∨ next.Jammed) := by
    rintro ⟨⟨key, mem, onBdry⟩, gotNext, absent⟩
    refine ⟨.occupied all (ports ▸ mem) onBdry, .inr ?_⟩
    obtain ⟨dir, isPort⟩ := Process.mem_allPorts.mp (ports ▸ mem)
    obtain ⟨idx, inRange, -⟩ := mem_iff_getElem.mp isPort
    have isLost :=
      mem_map_of_mem (f := (·.helper)) (Process.mem_gates inRange (counts dir ▸ inRange))
    obtain ⟨outline, outlineKind, same⟩ := Process.exists_composite core kind
    refine ⟨id, new, outline, _, gotNext, outlineKind, ?_,
      absent _ (dissolved.process?_eq_none isLost)⟩
    rw [same]
    rwa [Process.map_helper_gates counts] at isLost
  rw [place] at vacates
  simp only [Edit.ends_bind, Edit.ends_discard, Edit.ends_pure] at vacates ⊢
  refine vacates.mono (fun _ between ends => ends.mono (fun _ next vacated => ?_) occupied) occupied
  exact ⟨counts, mid, new, around, all, gotNew, core, newKind, innermostNew, vacated⟩

/-- Nothing leads to or from a composite all of whose gates are bridged. -/
theorem BridgedAll.bare (all : net.BridgedAll (proc.gates inside.toHelpers) mid)
    (counts : ∀ dir, (proc.ports dir).length = (inside.listed dir).length) (inv : mid.Consistent)
    (gotNew : mid.process? id = some new) (core : new.core = proc.core) {src dst : PortKey}
    (connects : mid.Connects src dst) : src ∉ new.allPorts ∧ dst ∉ new.allPorts := by
  have unconnected {dir key} (mem : key ∈ proc.ports dir) (other : PortKey) :
      ¬ mid.Follows dir other key := by
    obtain ⟨idx, inRange, rfl⟩ := mem_iff_getElem.mp mem
    exact all.unconnected (Process.mem_gates inRange (counts dir ▸ inRange)) other
  have facing {key port} (has : mid.port? key = some port) (mem : key ∈ new.allPorts) :
      key ∈ proc.ports port.direction := by
    obtain ⟨dir, isPort⟩ := Process.mem_allPorts.mp mem
    obtain ⟨-, rfl⟩ := of_found has (inv.listed gotNew isPort)
    rwa [← Process.ports_core, core] at isPort
  obtain ⟨peer, hasPeer, enters, -⟩ := connects.exists_target inv.linked
  have ⟨port, has, leaves, _⟩ := connects
  refine ⟨fun mem => ?_, fun mem => ?_⟩
  · have isOut : src ∈ proc.ports .output := leaves ▸ facing has mem
    exact unconnected isOut dst connects
  · have isIn : dst ∈ proc.ports .input := enters ▸ facing hasPeer mem
    exact unconnected isIn src connects

theorem Midway.not_mem_of_gate (midway : net.Midway (inside.inputs ++ inside.outputs) mid)
    (got : net.process? id = some proc) (kind : proc.kind = .composite inside) {comp : ProcessId}
    {outer inner : PortKey} (gate : mid.Gate comp dir helper outer inner) :
    comp ∉ [id] ∧ helper ∉ [id] := by
  obtain ⟨-, still, idx, mem, -⟩ := midway.dissolved.gate_iff.mp gate
  obtain ⟨helperProc, gotHelper, kindHelper, -⟩ := midway.fitted.helpers mem
  refine ⟨fun isId => ?_, fun isId => ?_⟩
  · rw [mem_singleton.mp isId, helperAt?_of_composite got kind] at mem
    exact still (Helpers.mem_iff.mpr ⟨_, mem_of_getElem? mem⟩)
  · rw [mem_singleton.mp isId, got] at gotHelper
    obtain rfl := Option.some.inj gotHelper
    have leaf := dir.isLeaf_helperKind
    rw [← kindHelper, kind] at leaf
    cases leaf

theorem Vacated.alike {around : Composite} (vacated : mid.Vacated id new around next)
    (midway : net.Midway (inside.inputs ++ inside.outputs) mid) (left : mid.Dissolved [id] next)
    (bare : ∀ {src dst}, mid.Connects src dst → src ∉ new.allPorts ∧ dst ∉ new.allPorts)
    (got : net.process? id = some proc) (kind : proc.kind = .composite inside) :
    mid.Alike next where
  follows {dir first second} := by
    cases dir with
    | input =>
      exact vacated.connects.trans
        ⟨fun kept => kept.2.2, fun kept => ⟨(bare kept).1, (bare kept).2, kept⟩⟩
    | output =>
      exact vacated.connects.trans
        ⟨fun kept => kept.2.2, fun kept => ⟨(bare kept).1, (bare kept).2, kept⟩⟩
  passes := by
    have gates {comp helper dir outer inner} :
        next.Gate comp dir helper outer inner ↔ mid.Gate comp dir helper outer inner := by
      refine left.gate_iff.trans ⟨fun kept => kept.2.2, fun gate => ?_⟩
      obtain ⟨apart, apartToo⟩ := midway.not_mem_of_gate got kind gate
      exact ⟨apart, apartToo, gate⟩
    simp only [Passes, gates, implies_true]
  boundary side := by
    cases side
    · exact vacated.inputs
    · exact vacated.outputs

theorem Alike.sided (alike : mid.Alike next) (left : mid.Dissolved lost next) (sided : mid.Sided) :
    next.Sided := by
  intro side key mem
  obtain ⟨port, has, facing⟩ := sided (alike.boundary side ▸ mem)
  have live : (next.port? key).isSome :=
    left.evolves.inv.boundary (isBoundary_iff.mpr ⟨side, mem⟩)
  obtain ⟨still, hasStill⟩ := Option.isSome_iff_exists.mp live
  obtain ⟨-, old, hasOld, same⟩ := left.exists_former_port hasStill
  obtain rfl := Option.mem_unique has hasOld
  exact ⟨still, hasStill, (Port.unlinked_eq.mp same).2.2.1.symm.trans facing⟩

namespace Inlined

variable (inlined : net.Inlined id proc inside next) (inv : net.Consistent) (placed : net.Placed)

include inlined inv placed

theorem dissolved : net.Dissolved (inside.inputs ++ inside.outputs ++ [id]) next := by
  obtain ⟨counts, mid, new, around, all, gotNew, core, newKind, innermost, vacated⟩ := inlined
  have dissolved := all.dissolved inv placed
  rw [Process.map_helper_gates counts] at dissolved
  exact dissolved.trans (vacated.dissolved dissolved.placed gotNew newKind innermost)

theorem helpers :
    (inside.inputs ++ inside.outputs).Nodup ∧
    ∀ dir, ∀ helper ∈ inside.listed dir, ∃ gate, net.process? helper = some gate ∧
      gate.kind = dir.helperKind ∧ gate.ports dir.opposite ≠ [] := by
  obtain ⟨counts, mid, new, around, all, -⟩ := inlined
  obtain ⟨distinct, known⟩ := all.helpers inv placed
  refine ⟨by rwa [Process.map_helper_gates counts] at distinct, fun dir helper mem => ?_⟩
  obtain ⟨idx, inRange, rfl⟩ := mem_iff_getElem.mp mem
  exact known _ (Process.mem_gates (counts dir ▸ inRange) inRange)

theorem leaves (mem : helper ∈ inside.inputs ++ inside.outputs) :
    ∃ gate, net.process? helper = some gate ∧ gate.kind.isLeaf := by
  obtain ⟨dir, isMem⟩ := Helpers.mem_iff.mp mem
  obtain ⟨gate, got, kind, -⟩ := (inlined.helpers inv placed).2 dir helper isMem
  exact ⟨gate, got, by rw [kind]; exact dir.isLeaf_helperKind⟩

theorem not_mem {has : Process} (got : net.process? other = some has)
    (comp : has.kind.isLeaf = false) (apart : other ≠ id) :
    other ∉ inside.inputs ++ inside.outputs ++ [id] := fun mem => by
  rcases mem_append.mp mem with isHelper | isId
  · have leaf := of_found got (inlined.leaves inv placed isHelper)
    simp [leaf] at comp
  · exact apart (mem_singleton.mp isId)

theorem helperAt?_eq {idx : Nat} :
    next.helperAt? other dir idx = some helper ↔
      other ≠ id ∧ net.helperAt? other dir idx = some helper := by
  rw [(inlined.dissolved inv placed).helperAt?_eq]
  constructor
  · grind
  · rintro ⟨apart, mem⟩
    obtain ⟨has, within, got, kind, -⟩ := helperAt?_eq_some.mp mem
    rw [if_neg (inlined.not_mem inv placed got (by rw [kind]; rfl) apart)]
    exact mem

section

variable (got : net.process? id = some proc) (kind : proc.kind = .composite inside)

include got kind

theorem fitted_of (fitted : next.Fitted) :
    net.Fitted := by
  have dissolved := inlined.dissolved inv placed
  obtain ⟨distinct, known⟩ := inlined.helpers inv placed
  have own {dir idx helper} (mem : net.helperAt? id dir idx = some helper) :
      (inside.listed dir)[idx]? = some helper := (helperAt?_of_composite got kind).symm.trans mem
  have new {other helper dir idx} (apart : other ≠ id)
      (mem : net.helperAt? other dir idx = some helper) : next.helperAt? other dir idx =
        some helper :=
    (inlined.helperAt?_eq inv placed).mpr ⟨apart, mem⟩
  -- No other composite lists a helper of this one, which is gone.
  have foreign {other helper dir side idx} (apart : other ≠ id)
      (mem : net.helperAt? other dir idx = some helper) : helper ∉ inside.listed side :=
        fun isOwn => by
    obtain ⟨gate, gotGate, -⟩ := fitted.helpers (new apart mem)
    exact (dissolved.exists_former gotGate).1
      (mem_append_left _ (Helpers.mem_iff.mpr ⟨side, isOwn⟩))
  constructor
  · intro other has within gotOther kindOther dir
    by_cases here : other = id
    · subst here
      obtain rfl := Option.mem_unique got gotOther
      obtain rfl := Kind.composite.inj (kind.symm.trans kindOther)
      exact inlined.counts dir
    · obtain ⟨left, gotLeft, core, -⟩ := dissolved.exists_later gotOther
        (inlined.not_mem inv placed gotOther (by rw [kindOther]; rfl) here)
      obtain ⟨around, kindLeft, helpers⟩ := Process.exists_composite core kindOther
      have counts := fitted.counts gotLeft kindLeft dir
      rwa [← Process.ports_core, core, helpers] at counts
  · intro other dir idx helper mem
    by_cases here : other = id
    · subst here
      exact known dir helper (mem_of_getElem? (own mem))
    · obtain ⟨left, gotLeft, kindLeft, ports⟩ := fitted.helpers (new here mem)
      obtain ⟨-, old, gotOld, core, -⟩ := dissolved.exists_former gotLeft
      have leaf : left.kind.isLeaf := by rw [kindLeft]; exact dir.isLeaf_helperKind
      exact ⟨old, gotOld, (Process.kind_eq core leaf).trans kindLeft,
        by rwa [← Process.ports_core, core]⟩
  · intro first dir idx helper second side place mem memToo
    by_cases here : first = id
    · subst here
      by_cases hereToo : second = first
      · subst hereToo
        exact ⟨rfl, Helpers.listed_inj distinct (own mem) (own memToo)⟩
      · exact absurd (mem_of_getElem? (own mem)) (foreign hereToo memToo)
    · by_cases hereToo : second = id
      · grind
      · exact fitted.once (new here mem) (new hereToo memToo)

/-- What is left of a network that fits does. -/
theorem fitted (fitted : net.Fitted) :
    next.Fitted := by
  have dissolved := inlined.dissolved inv placed
  constructor
  · intro other has within gotOther kindOther dir
    obtain ⟨-, old, gotOld, core, -⟩ := dissolved.exists_former gotOther
    obtain ⟨around, kindOld, helpers⟩ := Process.exists_composite core kindOther
    have counts := fitted.counts gotOld kindOld dir
    rwa [← Process.ports_core, core, helpers] at counts
  · intro other dir idx helper mem
    obtain ⟨apart, memPre⟩ := (inlined.helperAt?_eq inv placed).mp mem
    obtain ⟨old, gotOld, kindOld, ports⟩ := fitted.helpers memPre
    have still : helper ∉ inside.inputs ++ inside.outputs ++ [id] := fun isLost => by
      rcases mem_append.mp isLost with isHelper | isId
      · -- A helper of this composite is not that of another one.
        obtain ⟨side, memHere⟩ := Helpers.mem_iff.mp isHelper
        obtain ⟨place, isMem⟩ := mem_iff_getElem?.mp memHere
        exact apart (fitted.once memPre ((helperAt?_of_composite got kind).trans isMem)).1
      · rw [mem_singleton.mp isId, got] at gotOld
        obtain rfl := Option.some.inj gotOld
        have leaf := dir.isLeaf_helperKind
        rw [← kindOld, kind] at leaf
        cases leaf
    obtain ⟨left, gotLeft, core, -⟩ := dissolved.exists_later gotOld still
    have leaf : old.kind.isLeaf := by rw [kindOld]; exact dir.isLeaf_helperKind
    exact ⟨left, gotLeft, (Process.kind_eq core leaf).trans kindOld,
      by rwa [← Process.ports_core, core]⟩
  · intro first dir idx helper second side place mem memToo
    exact fitted.once ((inlined.helperAt?_eq inv placed).mp mem).2
      ((inlined.helperAt?_eq inv placed).mp memToo).2

end

theorem singlePort (singlePort : net.SinglePortHelpers) : next.SinglePortHelpers := by
  have dissolved := inlined.dissolved inv placed
  intro other dir idx helper gate mem gotGate key isPort
  obtain ⟨still, old, gotOld, core, -⟩ := dissolved.exists_former gotGate
  rw [dissolved.portAt?_eq, if_neg still]
  have ports : old.allPorts = gate.allPorts := (congrArg Process.allPorts core :)
  exact singlePort ((inlined.helperAt?_eq inv placed).mp mem).2 gotOld key (ports ▸ isPort)

section

variable (got : net.process? id = some proc) (kind : proc.kind = .composite inside)
  (fitted : net.Fitted)

include got kind fitted

theorem exists_midway (singlePort : net.SinglePortHelpers) (sided : net.Sided) :
    ∃ mid, net.BridgedAll (proc.gates inside.toHelpers) mid ∧
      net.Midway (inside.inputs ++ inside.outputs) mid ∧
      net.Rerouted (inside.inputs ++ inside.outputs) mid ∧ mid.Dissolved [id] next ∧
      mid.Alike next := by
  obtain ⟨counts, mid, new, around, all, gotNew, core, newKind, innermost, vacated⟩ := inlined
  have start : net.Midway [] net := ⟨inv, fitted, singlePort, .refl inv placed, by simp, sided⟩
  obtain ⟨midway, rerouted⟩ := all.midway start fun _ mem => opens_of_mem got kind mem
  have left := vacated.dissolved midway.dissolved.placed gotNew newKind innermost
  have bare {src dst} (connects : mid.Connects src dst) :=
    all.bare counts midway.dissolved.evolves.inv gotNew core connects
  rw [Process.map_helper_gates counts] at midway rerouted
  exact ⟨mid, all, midway, rerouted, left, vacated.alike midway left bare got kind⟩

theorem rerouted (singlePort : net.SinglePortHelpers) (sided : net.Sided) :
    net.Rerouted (inside.inputs ++ inside.outputs ++ [id]) next ∧ next.Sided := by
  obtain ⟨mid, -, midway, rerouted, left, alike⟩ :=
    inlined.exists_midway inv placed got kind fitted singlePort sided
  refine ⟨rerouted.trans (.of_alike alike ?_) left, alike.sided left midway.sided⟩
  rintro dir helper near far (⟨comp, gate⟩ | ⟨comp, gate⟩) <;>
    exact (midway.not_mem_of_gate got kind gate).2

end

end Inlined

end Network

end Dataflow
