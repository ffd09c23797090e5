import Dataflow.Proofs.Description.Loaded
import Dataflow.Proofs.Transform.Flatten

/-! What is left of a flattened network: everything but composites and helpers, connected where ways
led past those. -/

open List

namespace Dataflow

theorem Process.defect?_composite_iff {process : Process} {inside : Composite}
    (kind : process.kind = .composite inside) :
    process.defect? = none ↔ ∀ dir, (process.ports dir).length = (inside.listed dir).length := by
  have both : (∀ dir, (process.ports dir).length = (inside.listed dir).length) ↔
      process.inPorts.length = inside.inputs.length ∧
      process.outPorts.length = inside.outputs.length :=
    ⟨fun counts => ⟨counts .input, counts .output⟩,
      fun counts dir => by cases dir; exacts [counts.1, counts.2]⟩
  rw [both]
  simp [defect?, arityDefect?, kind, Kind.payloadDefect?, Kind.arity, Arity.admits]

theorem Process.defect?_helper_iff {process : Process} {dir : Direction}
    (kind : process.kind = dir.helperKind) :
    process.defect? = none ↔
      process.ports dir = [] ∧ ∃ key, process.ports dir.opposite = [key] := by
  obtain ⟨own, hier, inPorts, outPorts⟩ := process
  obtain rfl : own = dir.helperKind := kind
  rw [← length_eq_zero_iff, ← length_eq_one_iff]
  cases dir
  all_goals
    simp only [defect?, arityDefect?, Direction.helperKind, Kind.payloadDefect?, Kind.arity,
      Arity.admits, ports, Direction.opposite]
    simp [and_comm]

theorem Process.ports_ne_nil_of_helper {process : Process} {dir : Direction}
    (kind : process.kind = dir.helperKind) (fits : process.defect? = none) :
    process.ports dir.opposite ≠ [] := by
  obtain ⟨-, key, only⟩ := (defect?_helper_iff kind).mp fits
  simp [only]

theorem Process.eq_of_mem_helper {process : Process} {dir : Direction}
    (kind : process.kind = dir.helperKind) (fits : process.defect? = none) {key : PortKey}
    (mem : key ∈ process.allPorts) : (process.ports dir.opposite)[0]? = some key := by
  obtain ⟨none, inner, only⟩ := (defect?_helper_iff kind).mp fits
  obtain ⟨side, isPort⟩ := mem_allPorts.mp mem
  by_cases outside : side = dir
  · simp [outside, none] at isPort
  · rw [Network.eq_opposite_of_ne outside, only] at isPort
    simp [only, mem_singleton.mp isPort]

namespace Network

variable {net next : Network} {id helper : ProcessId} {process : Process} {dir side : Direction}
  {key near far source target : PortKey} {trail : List ProcessId}

/-- A port of a process that is neither a composite nor a helper. -/
def Stays (net : Network) (key : PortKey) : Prop :=
  ∃ port, net.port? key = some port ∧ ¬ net.Passing port.owner

theorem Fitted.singlePort (fitted : net.Fitted)
    (fit : ∀ {id process}, net.Passing id → net.process? id = some process →
      process.defect? = none) : net.SinglePortHelpers := by
  intro id dir idx helper process mem got key isPort
  obtain ⟨kind, -⟩ := of_found got (fitted.helpers mem)
  exact portAt?_eq_some.mpr
    ⟨process, got, Process.eq_of_mem_helper kind (fit (.inr ⟨id, dir, idx, mem⟩) got) isPort⟩

theorem Passes.passing (passes : net.Passes dir helper near far) : net.Passing helper := by
  obtain ⟨comp, idx, mem, -⟩ | ⟨comp, idx, mem, -⟩ := passes
  · exact .inr ⟨comp, _, idx, mem⟩
  · exact .inr ⟨comp, _, idx, mem⟩

theorem Passes.not_stays (passes : net.Passes dir helper near far) (inv : net.Consistent) :
    ¬ net.Stays near := by
  rintro ⟨port, has, stays⟩
  rcases passes with ⟨comp, gate⟩ | ⟨comp, gate⟩
  · obtain ⟨rfl, -⟩ := of_found has (gate.exists_outer inv)
    exact stays (.inl gate.exists_composite)
  · obtain ⟨rfl, -⟩ := of_found has (gate.exists_inner inv)
    exact stays (Passes.passing (.inl ⟨comp, gate⟩))

/-- One way leads from the boundary to a port that stays. -/
theorem Arrives.unique (inv : net.Consistent) (fitted : net.Fitted) {others : List ProcessId}
    {stop : PortKey} (arrives : net.Arrives side source trail target) (stays : net.Stays target)
    (too : net.Arrives side source others stop) (staysToo : net.Stays stop) :
    trail = others ∧ target = stop :=
  Graph.Lands.unique arrives (Follows.unique inv.linked) (Passes.near_unique · inv fitted)
    (fun _ _ passes => passes.not_stays inv stays) too fun _ _ passes =>
      passes.not_stays inv staysToo

theorem Flat.not_passes (flat : net.Flat) : ¬ net.Passes dir helper near far :=
  fun passes => flat.not_passing passes.passing

theorem Flat.travels_iff (flat : net.Flat) :
    net.Travels dir source trail target ↔ trail = [] ∧ net.Follows dir source target := by
  constructor
  · intro travels
    cases travels with
    | join follows => exact ⟨rfl, follows⟩
    | cross _ passes _ => exact absurd passes flat.not_passes
  · rintro ⟨rfl, follows⟩
    exact .join follows

namespace Flattens

variable (flattens : net.Flattens next) (inv : net.Consistent) (placed : net.Placed)

include flattens inv placed

theorem process?_eq_some :
    next.process? id = some process ↔
      ¬ net.Passing id ∧
      ∃ old, net.process? id = some old ∧ process = { old with hierarchy := {} } := by
  obtain ⟨lost, dissolved, isLost, -⟩ := flattens.exists_lost inv placed
  -- All that was around a process are composites, and they are lost.
  have root {old new} (got : net.process? id = some old) (leaf : old.kind.isLeaf)
      (core : new.core = old.core) (place : new.hierarchy = old.hierarchy.outside lost) :
      new = { old with hierarchy := {} } := by
    have around : old.hierarchy.outside lost = {} := by
      refine congrArg Hierarchy.mk (filter_eq_nil_iff.mpr fun comp around => ?_)
      obtain ⟨outer, gotOuter, isComp, -⟩ := placed.exists_composite got around
      simpa using (isLost comp).mpr (.inl ⟨outer, gotOuter, isComp⟩)
    have kind := Process.kind_eq core leaf
    have inPorts : new.inPorts = old.inPorts := (congrArg Process.inPorts core :)
    have outPorts : new.outPorts = old.outPorts := (congrArg Process.outPorts core :)
    obtain ⟨_, _, _, _⟩ := new
    simp_all
  constructor
  · intro got
    obtain ⟨still, old, gotOld, core, place⟩ := dissolved.exists_former got
    have leaf : old.kind.isLeaf := by rw [Process.isLeaf_eq core]; exact flattens.flat got
    exact ⟨(isLost id).not.mp still, old, gotOld, root gotOld leaf core.symm place⟩
  · rintro ⟨stays, old, gotOld, rfl⟩
    obtain ⟨new, got, core, place⟩ := dissolved.exists_later gotOld ((isLost id).not.mpr stays)
    have leaf : old.kind.isLeaf := by rw [← Process.isLeaf_eq core]; exact flattens.flat got
    rw [got, root gotOld leaf core place]

theorem declared_eq_some {port : Port} : (next.port? key).map Port.unlinked = some port ↔
    (net.port? key).map Port.unlinked = some port ∧ ¬ net.Passing port.owner := by
  obtain ⟨lost, dissolved, isLost, -⟩ := flattens.exists_lost inv placed
  rw [dissolved.declared, Option.filter_eq_some_iff, decide_eq_true_eq, isLost]

theorem atLeaf_iff : next.AtLeaf key ↔ net.Stays key := by
  have declared {port} := @declared_eq_some _ _ key flattens inv placed port
  constructor
  · rintro ⟨port, process, has, -, -⟩
    obtain ⟨isDeclared, stays⟩ := declared.mp (by rw [has]; rfl)
    obtain ⟨old, hasOld, same⟩ := Option.map_eq_some_iff.mp isDeclared
    exact ⟨old, hasOld, by rwa [(Port.unlinked_eq.mp same).2.1]⟩
  · rintro ⟨port, has, stays⟩
    obtain ⟨new, hasNew, -⟩ :=
      Option.map_eq_some_iff.mp (declared.mpr ⟨congrArg (Option.map Port.unlinked) has, stays⟩)
    obtain ⟨process, got, -⟩ :=
      (flattens.exists_lost inv placed).choose_spec.1.evolves.inv.owned hasNew
    exact ⟨new, process, hasNew, got, flattens.flat got⟩

variable (singlePort : net.SinglePortHelpers) (sided : net.Sided)

include singlePort sided

theorem connects_iff : next.Connects source target ↔
    net.Stays source ∧ net.Stays target ∧ ∃ trail, net.Travels .input source trail target := by
  obtain ⟨lost, dissolved, isLost, rerouted⟩ := flattens.exists_lost inv placed
  have leaf {key} := @atLeaf_iff _ _ key flattens inv placed
  have travels (stays : net.Stays source) (staysToo : net.Stays target) : next.Travels .input source
      [] target ↔ ∃ trail, net.Travels .input source trail target ∧ trail.filter (· ∉ lost) = [] :=
    (rerouted (flattens.fitted inv placed) singlePort sided).travels (leaf.mpr stays)
      (leaf.mpr staysToo)
  have live {key dir} (has : ∃ port, next.port? key = some port ∧ port.direction = dir) :
      net.Stays key := by
    obtain ⟨port, isPort, -⟩ := has
    obtain ⟨process, got, -⟩ := dissolved.evolves.inv.owned isPort
    exact leaf.mp ⟨port, process, isPort, got, flattens.flat got⟩
  constructor
  · intro connects
    obtain ⟨isSrc, isDst⟩ :=
      dissolved.evolves.inv.exists_follows
        (show next.Follows .input source target from connects)
    obtain ⟨trail, way, -⟩ := (travels (live isSrc) (live isDst)).mp (.join connects)
    exact ⟨live isSrc, live isDst, trail, way⟩
  · rintro ⟨stays, staysToo, trail, way⟩
    -- All helpers on the way are lost.
    have passed : trail.filter (· ∉ lost) = [] := filter_eq_nil_iff.mpr fun helper mem => by
      obtain ⟨near, far, passes⟩ := way.exists_crossed mem
      simpa using (isLost helper).mpr passes.passing
    have flat : next.Flat := flattens.flat
    exact (flat.travels_iff.mp ((travels stays staysToo).mpr ⟨trail, way, passed⟩)).2

theorem boundary_forall₂ (side : Direction) :
    List.Forall₂
      (fun pre after => net.Stays after ∧ (∃ trail, net.Arrives side pre trail after) ∧
        ∀ trail other, net.Arrives side pre trail other → net.Stays other → other = after)
      (net.boundary side) (next.boundary side) := by
  obtain ⟨lost, dissolved, isLost, rerouted⟩ := flattens.exists_lost inv placed
  have fitted := flattens.fitted inv placed
  have stays {key} (mem : key ∈ next.boundary side) : net.Stays key := by
    have live : (next.port? key).isSome :=
      dissolved.evolves.inv.boundary (isBoundary_iff.mpr ⟨side, mem⟩)
    obtain ⟨port, has⟩ := Option.isSome_iff_exists.mp live
    obtain ⟨process, got, -⟩ := dissolved.evolves.inv.owned has
    exact (flattens.atLeaf_iff inv placed).mp ⟨port, process, has, got, flattens.flat got⟩
  have arrives := (rerouted fitted singlePort sided).arrives side
  refine ((forall₂_and_left _ _).mpr ⟨fun key mem => stays mem, arrives.flip⟩).flip.imp
    fun pre after both => ?_
  obtain ⟨isStaying, leads⟩ := both
  obtain ⟨trail, way, -⟩ := leads ((flattens.atLeaf_iff inv placed).mpr isStaying) .stay
  exact ⟨isStaying, ⟨trail, way⟩, fun _ _ wayToo isStayingToo =>
    (wayToo.unique inv fitted isStayingToo way isStaying).2⟩

end Flattens

/-- Flattening a loaded network takes out composites and helpers, and connects what ways past them
led to. -/
theorem flatten_connects {text : String} {report : Report} (loaded : load text = .ok net)
    (fit : ∀ {id process}, net.Passing id → net.process? id = some process → process.defect? = none)
    (flattened : Edit.flatten.run net = .ok report next) :
    next.Flat ∧
    (∀ id process, next.process? id = some process ↔
      ¬ net.Passing id ∧ ∃ former, net.process? id = some former ∧
        process = { former with hierarchy := {} }) ∧
    (∀ key port, (next.port? key).map Port.unlinked = some port ↔
      (net.port? key).map Port.unlinked = some port ∧ ¬ net.Passing port.owner) ∧
    (∀ source target, next.Connects source target ↔
      net.Stays source ∧ net.Stays target ∧ ∃ trail, net.Travels .input source trail target) ∧
    ∀ side, List.Forall₂
      (fun before after => net.Stays after ∧ (∃ trail, net.Arrives side before trail after) ∧
        ∀ trail other, net.Arrives side before trail other → net.Stays other → other = after)
      (net.boundary side) (next.boundary side) := by
  -- What was loaded is built of a coherent description, and flattening is followed from there.
  obtain ⟨description, -, coherent, built⟩ := exists_description loaded
  have consistent := built.declares.inv
  have placed := built.placed coherent.toArranged
  have flattens := (Edit.ends_of_run flattened).mp (ends_flatten consistent placed)
  have singlePort : net.SinglePortHelpers := (flattens.fitted consistent placed).singlePort fit
  exact ⟨flattens.flat, fun _ _ => flattens.process?_eq_some consistent placed,
    fun _ _ => flattens.declared_eq_some consistent placed,
    fun _ _ => flattens.connects_iff consistent placed singlePort built.sided,
    flattens.boundary_forall₂ consistent placed singlePort built.sided⟩

end Network

/-- A composite inside another passes its input on to its output, and a third one has its input on
the boundary. -/
def Description.nestedPassage : Description where
  processes := [
    { id := "a", kind := .delay "0", inPorts := [{ name := "i" }], outPorts := [{ name := "o" }] },
    { id := "b", kind := .composite { inputs := ["b1"], outputs := ["b2"] },
      inPorts := [{ name := "i" }], outPorts := [{ name := "o" }] },
    { id := "d", kind := .delay "0", inPorts := [{ name := "i" }], outPorts := [{ name := "o" }] },
    { id := "e", kind := .composite { inputs := ["e1"] }, inPorts := [{ name := "i" }] },
    { id := "b1", parent := some "b", kind := .inport, outPorts := [{ name := "o" }] },
    { id := "b2", parent := some "b", kind := .outport, inPorts := [{ name := "i" }] },
    { id := "c", parent := some "b", kind := .composite { inputs := ["c1"], outputs := ["c2"] },
      inPorts := [{ name := "i" }],
      outPorts := [{ name := "o" }] },
    { id := "e1", parent := some "e", kind := .inport, outPorts := [{ name := "o" }] },
    { id := "f", parent := some "e", kind := .delay "0", inPorts := [{ name := "i" }],
      outPorts := [{ name := "o" }] },
    { id := "c1", parent := some "c", kind := .inport, outPorts := [{ name := "o" }] },
    { id := "c2", parent := some "c", kind := .outport, inPorts := [{ name := "i" }] }]
  connections := [
    { source := "a.o", target := "b.i" }, { source := "b1.o", target := "c.i" },
    { source := "c1.o", target := "c2.i" }, { source := "c.o", target := "b2.i" },
    { source := "b.o", target := "d.i" }, { source := "e1.o", target := "f.i" }]
  inputs := ["a.i", "e.i"]
  outputs := ["d.o", "f.o"]

/-- The way through both composites becomes a connection, and the process behind the boundary takes
the place of its composite. -/
theorem Network.flatten_connects_nestedPassage :
    ∃ net report next, load Description.nestedPassage.compact = .ok net ∧
      Edit.flatten.run net = .ok report next ∧ next.Flat ∧
      (∃ trail, net.Travels .input 1 trail 4) ∧
      next.inputs = [0, 12] ∧ ∃ trail, net.Arrives .input 6 trail 12 := by
  obtain ⟨net, loaded, passed⟩ :=
    exists_load .nestedPassage
      (fun net => net.processes.toList.all (fun entry => entry.2.defect? = none) && net.inputs =
        [0, 6] && Edit.flatten.succeeds net (fun _ next => next.inputs = [0, 12] ∧
        (next.port? 1).any fun port => port.direction = .output && port.connection = some 4))
        (by decide +kernel) (by decide +kernel) (by decide +kernel)
  simp only [Bool.and_eq_true, all_eq_true, decide_eq_true_eq] at passed
  obtain ⟨⟨fit, inputs⟩, flattened⟩ := passed
  obtain ⟨report, next, runs, inputsToo, leads⟩ := Edit.exists_run_of_succeeds flattened
  simp only [Bool.and_eq_true, decide_eq_true_eq, Option.any_eq_true] at leads
  obtain ⟨port, found, leaves, connected⟩ := leads
  obtain ⟨flat, -, -, connects, boundary⟩ :=
    flatten_connects loaded (fun _ stored => fit _ (mem_toList.mpr stored)) runs
  obtain ⟨-, -, travels⟩ := (connects 1 4).mp ⟨port, found, leaves, connected⟩
  have entries := boundary .input
  rw [show net.boundary .input = [0, 6] from inputs, show next.boundary .input = [0, 12]
    from inputsToo] at entries
  obtain _ | ⟨-, _ | ⟨⟨-, arrives, -⟩, -⟩⟩ := entries
  exact ⟨net, report, next, loaded, runs, flat, travels, inputsToo, arrives⟩

end Dataflow
