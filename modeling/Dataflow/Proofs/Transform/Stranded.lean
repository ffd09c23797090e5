import Dataflow.Proofs.Transform.Flattened

/-!
When flattening fails: the boundary is left at a helper.

An entry of the boundary moves on whenever the helper behind it goes. It must not stand at a helper
when that one goes.
-/

open List Option

namespace Dataflow.Network

variable {net mid next last : Network} {dir side : Direction} {id comp helper other : ProcessId}
  {proc gone : Process} {inside : Composite} {key outer inner src dst : PortKey}
  {lost trail helpers others : List ProcessId} {openings : List Opening}

/-- The helpers of a composite in the order in which they go. -/
def helpersOf? (net : Network) (composite : ProcessId) : Option (List ProcessId) :=
  ((net.process? composite).bind (·.kind.inside?)).map fun inside => inside.inputs ++ inside.outputs

/-- A composite is inlined before another one: it is deeper, or as deep with a smaller name. -/
def Sooner (net : Network) (composite other : ProcessId) : Prop :=
  ∃ process found, net.process? composite = some process ∧ net.process? other = some found ∧
    (found.hierarchy.depth < process.hierarchy.depth ∨
      found.hierarchy.depth = process.hierarchy.depth ∧ composite < other)

/-- A helper goes before another one: its composite does, or it stands before the other in the same
composite. -/
def Earlier (net : Network) (first second : ProcessId) : Prop :=
  ∃ composite other helpers others, net.helpersOf? composite = some helpers ∧
    net.helpersOf? other = some others ∧ first ∈ helpers ∧ second ∈ others ∧
    (net.Sooner composite other ∨ composite = other ∧ others.idxOf first < others.idxOf second)

/-- The way from an entry of the boundary comes out of a composite past a helper that goes after all
those before it on the way. -/
def Stranded (net : Network) : Prop :=
  ∃ side, ∃ key ∈ net.boundary side, ∃ before helper behind target,
    net.Arrives side key (before ++ helper :: behind) target ∧ net.Stays target ∧
    (∃ composite index, net.helperAt? composite side.opposite index = some helper) ∧
    ∀ other ∈ before, net.Earlier other helper

/-- Every entry of the boundary is the start of a way, which ends at a port that stays. -/
structure Guided (net : Network) : Prop where
  unfed : ∀ {side key}, key ∈ net.boundary side → ∀ source, ¬ net.Follows side source key
  ends : ∀ {side key}, key ∈ net.boundary side →
    ∃ trail target, net.Arrives side key trail target ∧ net.Stays target

/-- The entries of the boundary get to where they got, past fewer helpers. -/
def Tracked (net : Network) (lost : List ProcessId) (next : Network) : Prop :=
  ∀ side, List.Forall₂
    (fun before after => ∀ {trail target}, net.Stays target → net.Arrives side before trail target →
      next.Arrives side after (trail.filter (· ∉ lost)) target)
    (net.boundary side) (next.boundary side)

theorem helpersOf?_eq_some :
    net.helpersOf? comp = some helpers ↔
      ∃ proc inside, net.process? comp = some proc ∧ proc.kind = .composite inside ∧
        inside.inputs ++ inside.outputs = helpers := by
  simp [helpersOf?, map_eq_bind, bind_inside?_eq_some]

theorem Stays.atLeaf (stays : net.Stays key) (inv : net.Consistent)
    (dissolved : net.Dissolved lost next) (passing : ∀ id ∈ lost, net.Passing id) :
    next.AtLeaf key := by
  obtain ⟨port, has, still⟩ := stays
  obtain ⟨proc, got, -⟩ := inv.owned has
  have leaf : proc.kind.isLeaf := by
    cases isLeaf : proc.kind.isLeaf with
    | true => rfl
    | false => exact absurd (.inl ⟨proc, got, isLeaf⟩) still
  have left : port.owner ∉ lost := fun isLost => still (passing _ isLost)
  obtain ⟨newPort, hasNew, same⟩ := dissolved.exists_later_port has left
  obtain ⟨new, gotNew, core, -⟩ := dissolved.exists_later got left
  refine ⟨newPort, new, hasNew, by rw [(Port.unlinked_eq.mp same).2.1, gotNew], ?_⟩
  rw [Process.isLeaf_eq core]
  exact leaf

/-- Bridging a gate leaves the entries of the boundary unconnected. -/
theorem Bridged.unfed (bridging : mid.Bridging dir helper gone outer inner)
    (bridged : mid.Bridged dir helper gone outer inner next) (sided : mid.Sided)
    (unfed : ∀ {side key}, key ∈ mid.boundary side → ∀ src, ¬ mid.Follows side src key)
    (mem : key ∈ next.boundary side) (src : PortKey) : ¬ next.Follows side src key := by
  intro follows
  rw [bridged.boundary] at mem
  obtain ⟨old, wasMem, rfl⟩ := mem_map.mp mem
  rw [PortKey.exchange] at follows
  split at follows
  · rename_i here
    subst here
    have along : side = dir := by
      obtain ⟨port, has, rfl⟩ := sided wasMem
      obtain ⟨too, hasToo, rfl⟩ := bridging.outerFound
      rw [mem_unique has hasToo]
    subst along
    rw [landing] at follows
    split at follows
    · -- What the gate led to was led to by the gate alone.
      rename_i far _ isPeer
      obtain ⟨-, -, notInner, -, still | ⟨still, -⟩⟩ := bridged.follows.mp follows
      · have leads := bridging.peer?_inner.mp isPeer
        exact notInner
          (Follows.unique bridging.inv.linked (follows_opposite.mpr still)
            (follows_opposite.mpr leads))
      · exact unfed wasMem _ still
    · exact (bridged.follows.mp follows).2.2.2.1 rfl
  · by_cases along : side = dir
    · subst along
      obtain ⟨-, -, -, -, still | ⟨-, still⟩⟩ := bridged.follows.mp follows
      · exact unfed wasMem _ still
      · exact unfed wasMem _ still
    · obtain rfl := eq_opposite_of_ne along
      obtain ⟨-, -, -, -, still | ⟨still, -⟩⟩ := bridged.follows.mp (follows_opposite.mp follows)
      · exact unfed wasMem _ (follows_opposite.mpr still)
      · exact unfed wasMem _ (follows_opposite.mpr still)

theorem Opens.passing {opening : Opening} (opens : net.Opens id opening) :
    net.Passing opening.helper := by
  obtain ⟨idx, mem, -⟩ := opens
  exact .inr ⟨id, _, idx, mem⟩

theorem BridgedAll.tracked (all : net.BridgedAll openings mid) (start : net.Midway [] net)
    (opens : ∀ opening ∈ openings, net.Opens id opening) (guided : net.Guided) :
    net.Tracked (openings.map (·.helper)) mid ∧
    ∀ {side key}, key ∈ mid.boundary side → ∀ src, ¬ mid.Follows side src key := by
  induction all with
  | nil =>
    refine ⟨fun side => forall₂_same.mpr fun key _ trail dst _ arrives => ?_, guided.unfed⟩
    simpa using arrives
  | @snoc openings mid next opening gone inner pre bridging bridged ih =>
    have opensPre : ∀ opening ∈ openings, net.Opens id opening :=
      fun opening mem => opens opening (mem_append_left _ mem)
    have opensLast := opens opening (mem_append_right _ (mem_singleton_self _))
    obtain ⟨tracked, unfed⟩ := ih opensPre
    obtain ⟨midway, -⟩ := pre.midway start opensPre
    have after := midway.step opensLast bridging bridged
    refine ⟨fun side => ?_, fun mem src => bridged.unfed bridging midway.sided unfed mem src⟩
    have passing : ∀ helper ∈ openings.map (·.helper) ++ [opening.helper], net.Passing helper := by
      intro helper isLost
      rcases mem_append.mp isLost with early | here
      · obtain ⟨other, mem, rfl⟩ := mem_map.mp early
        exact (opensPre other mem).passing
      · exact mem_singleton.mp here ▸ opensLast.passing
    have step : List.Forall₂
        (fun between after => ∀ {trail dst}, net.Stays dst → mid.Arrives side between trail dst →
          next.Arrives side after (trail.filter (· ∉ [opening.helper])) dst) (mid.boundary side)
        (next.boundary side) := by
      rw [bridged.boundary, forall₂_map_right_iff]
      exact forall₂_same.mpr fun key mem trail dst stays arrives =>
        midway.arrives_after opensLast bridging bridged mem
        (unfed mem) (stays.atLeaf midway.inv after.dissolved passing) arrives
    refine forall₂_trans (fun {first between last} earlier new trail dst stays arrives => ?_)
      (tracked side) step
    rw [map_append, filter_not_mem_append]
    exact new stays (earlier stays arrives)

theorem Tracked.exists_former (tracked : net.Tracked lost next) (guided : net.Guided)
    (mem : key ∈ next.boundary side) :
    ∃ old ∈ net.boundary side, ∃ trail dst, net.Arrives side old trail dst ∧ net.Stays dst ∧
      next.Arrives side key (trail.filter (· ∉ lost)) dst := by
  obtain ⟨old, wasMem, leads⟩ := exists_of_forall₂ (tracked side) mem
  obtain ⟨trail, dst, arrives, stays⟩ := guided.ends wasMem
  exact ⟨old, wasMem, trail, dst, arrives, stays, leads stays arrives⟩

/-- A network that can be flattened unless its boundary is stranded. -/
structure Orderly (net : Network) : Prop where
  inv : net.Consistent
  placed : net.Placed
  fitted : net.Fitted
  singlePort : net.SinglePortHelpers
  sided : net.Sided
  guided : net.Guided

theorem Orderly.midway (orderly : net.Orderly) : net.Midway [] net :=
  ⟨orderly.inv, orderly.fitted, orderly.singlePort,
    .refl orderly.inv orderly.placed, by simp, orderly.sided⟩

theorem Fitted.nodup_helpers (fitted : net.Fitted) (got : net.process? id = some proc)
    (kind : proc.kind = .composite inside) : (inside.inputs ++ inside.outputs).Nodup := by
  have mem {dir idx helper} (isMem : (inside.listed dir)[idx]? = some helper) :
      net.helperAt? id dir idx = some helper := (helperAt?_of_composite got kind).trans isMem
  have each (dir : Direction) : (inside.listed dir).Nodup := by
    refine nodup_iff_getElem?_ne_getElem?.mpr fun first second less inRange same => ?_
    have isMem := getElem?_eq_getElem inRange
    exact Nat.ne_of_lt less (fitted.once (mem (same.trans isMem)) (mem isMem)).2.2
  refine nodup_append.mpr ⟨each .input, each .output, ?_⟩
  rintro helper isInput _ isOut rfl
  obtain ⟨first, isFirst⟩ := mem_iff_getElem?.mp isInput
  obtain ⟨second, isSecond⟩ := mem_iff_getElem?.mp isOut
  cases (fitted.once (mem (show (inside.listed .input)[first]? = _ from isFirst))
    (mem (show (inside.listed .output)[second]? = _ from isSecond))).2.1

section Turn

variable {front back : List Opening} {opening : Opening} (orderly : net.Orderly)
  (got : net.process? id = some proc)
  (kind : proc.kind = .composite inside)
  (split : proc.gates inside.toHelpers = front ++ opening :: back)

include orderly got kind split

theorem Orderly.helpers_eq :
    inside.inputs ++ inside.outputs =
      front.map (·.helper) ++ opening.helper :: back.map (·.helper) := by
  rw [← Process.map_helper_gates (orderly.fitted.counts got kind), split, map_append, map_cons]

theorem Orderly.not_mem_front : opening.helper ∉ front.map (·.helper) := fun early => by
  have distinct := orderly.fitted.nodup_helpers got kind
  rw [orderly.helpers_eq got kind split] at distinct
  exact (nodup_append.mp distinct).2.2 _ early _ mem_cons_self rfl

theorem Orderly.idxOf_lt_iff :
    (inside.inputs ++ inside.outputs).idxOf helper <
      (inside.inputs ++ inside.outputs).idxOf opening.helper ↔
      helper ∈ front.map (·.helper) := by
  have here : (front.map (·.helper) ++ opening.helper :: back.map (·.helper)).idxOf opening.helper =
      (front.map (·.helper)).length := by
    rw [idxOf_append_of_notMem (orderly.not_mem_front got kind split), idxOf_cons_self,
      Nat.add_zero]
  rw [orderly.helpers_eq got kind split, here]
  constructor
  · intro less
    by_contra late
    rw [idxOf_append_of_notMem late] at less
    exact Nat.not_lt.mpr (Nat.le_add_right _ _) less
  · intro early
    rw [idxOf_append_of_mem early]
    exact idxOf_lt_length_iff.mpr early

theorem BridgedAll.turn (all : net.BridgedAll front mid) :
    net.Opens id opening ∧ net.Midway (front.map (·.helper)) mid ∧
    net.Tracked (front.map (·.helper)) mid ∧
    ∀ {side key}, key ∈ mid.boundary side → ∀ src, ¬ mid.Follows side src key := by
  have opens : ∀ other ∈ front, net.Opens id other :=
    fun _ mem => opens_of_mem got kind (split ▸ mem_append_left _ mem)
  exact ⟨opens_of_mem got kind (split ▸ mem_append_right _ mem_cons_self),
    (all.midway orderly.midway opens).1, all.tracked orderly.midway opens orderly.guided⟩

theorem BridgedAll.exists_bridging (all : net.BridgedAll front mid) :
    ∃ gone inner, mid.Bridging opening.direction opening.helper gone opening.outer inner := by
  have dissolved := all.dissolved orderly.inv orderly.placed
  obtain ⟨opens, -⟩ := all.turn orderly got kind split
  have outerHas := all.exists_outer orderly.inv orderly.placed got (by rw [kind]; rfl) opens
  obtain ⟨idx, mem, -⟩ := opens
  obtain ⟨old, gotOld, isHelper, ports⟩ := orderly.fitted.helpers mem
  obtain ⟨gone, gotGone, core, -⟩ :=
    dissolved.exists_later gotOld (orderly.not_mem_front got kind split)
  have leaf : old.kind.isLeaf := by rw [isHelper]; exact opening.direction.isLeaf_helperKind
  rw [← Process.ports_core, ← core, Process.ports_core] at ports
  obtain ⟨inner, rest, isPort⟩ := exists_cons_of_ne_nil ports
  exact ⟨gone, inner, dissolved.evolves.inv, dissolved.placed, gotGone,
    (Process.kind_eq core leaf).trans isHelper, by rw [isPort]; rfl, outerHas⟩

section

variable (all : net.BridgedAll front mid)
  (bridging : mid.Bridging opening.direction opening.helper gone opening.outer inner)

include all bridging

theorem BridgedAll.stranded (mem : inner ∈ mid.boundary opening.direction.opposite) :
    net.Stranded := by
  obtain ⟨opensHere, midway, tracked, -⟩ := all.turn orderly got kind split
  obtain ⟨old, wasMem, trail, dst, arrives, stays, left⟩ := tracked.exists_former orderly.guided mem
  obtain ⟨-, gate⟩ := midway.gate opensHere bridging
  have passesOut := passes_opposite.mpr gate.passes
  -- The rest of the way begins at the helper.
  obtain ⟨kept, isFirst⟩ : ∃ kept, trail.filter (· ∉ front.map (·.helper)) =
      opening.helper :: kept := by
    generalize trail.filter (· ∉ front.map (·.helper)) = rest at left
    cases left with
    | stay => exact absurd stays (passesOut.not_stays orderly.inv)
    | cross passes _ =>
      obtain ⟨-, passed⟩ := (midway.dissolved.passes_iff midway.leaves).mp passes
      obtain ⟨rfl, -⟩ := passed.near_unique orderly.inv orderly.fitted passesOut
      exact ⟨_, rfl⟩
  obtain ⟨pre, behind, rfl, gone, -⟩ := filter_eq_cons_iff.mp isFirst
  obtain ⟨idx, isHelper, -⟩ := opensHere
  have helpers : net.helpersOf? id = some (inside.inputs ++ inside.outputs) :=
    helpersOf?_eq_some.mpr ⟨proc, inside, got, kind, rfl⟩
  refine ⟨_, old, wasMem, pre, opening.helper, behind, dst, arrives, stays,
    ⟨id, idx, by simpa using isHelper⟩, fun other isPre => ?_⟩
  have early : other ∈ front.map (·.helper) := by simpa using gone other isPre
  refine ⟨id, id, _, _, helpers, helpers, ?_, ?_,
    .inr ⟨rfl, (orderly.idxOf_lt_iff got kind split).mpr early⟩⟩
  · rw [orderly.helpers_eq got kind split]
    exact mem_append_left _ early
  · rw [orderly.helpers_eq got kind split]
    exact mem_append_right _ mem_cons_self

theorem Stuck.stranded (stuck : mid.Stuck opening.direction gone opening.outer inner) :
    net.Stranded := by
  obtain ⟨opensHere, midway, tracked, unfed⟩ := all.turn orderly got kind split
  obtain ⟨-, gate⟩ := midway.gate opensHere bridging
  rcases stuck with ⟨onBdry, ended⟩ | ⟨key, isPort, onBdry⟩
  · -- The way from the entry leads past the gate and on.
    obtain ⟨side, mem⟩ := isBoundary_iff.mp onBdry
    obtain rfl := midway.side_eq bridging mem
    obtain ⟨old, wasMem, trail, dst, arrives, stays, left⟩ :=
      tracked.exists_former orderly.guided mem
    generalize trail.filter (· ∉ front.map (·.helper)) = rest at left
    cases left with
    | stay => exact absurd stays (gate.passes.not_stays orderly.inv)
    | cross passes onwards =>
      obtain ⟨-, passed⟩ := (midway.dissolved.passes_iff midway.leaves).mp passes
      obtain ⟨rfl, rfl⟩ := passed.near_unique orderly.inv orderly.fitted gate.passes
      obtain ⟨near, follows, -⟩ := Graph.route_iff_lands.mp onwards
      obtain rfl := ended near follows
      exact absurd follows (unfed mem _)
  · obtain rfl := midway.eq_inner opensHere bridging isPort
    obtain ⟨port, has, facing⟩ := bridging.innerFound
    rcases isBoundary_exchange onBdry with ⟨wasOn, same⟩ | ⟨still, -⟩
    · rw [landing] at same
      split at same
      · rename_i isPeer
        obtain ⟨too, hasToo, facingToo⟩ :=
          (bridging.inv.exists_follows (bridging.peer?_inner.mp isPeer)).2
        obtain rfl := mem_unique has (same ▸ hasToo)
        exact absurd (facing.symm.trans facingToo) opening.direction.opposite_ne
      · exact absurd same.symm (gate.outer_ne_inner orderly.inv orderly.fitted gate)
    · obtain ⟨side, mem⟩ := isBoundary_iff.mp still
      obtain rfl := of_found has (midway.sided mem)
      exact all.stranded orderly got kind split bridging (facing ▸ mem)

end

end Turn

theorem Uninlinable.stranded (fails : net.Uninlinable proc inside) (orderly : net.Orderly)
    (got : net.process? id = some proc) (kind : proc.kind = .composite inside) : net.Stranded := by
  have opens : ∀ opening ∈ proc.gates inside.toHelpers, net.Opens id opening :=
    fun _ mem => opens_of_mem got kind mem
  cases fails with
  | counts dir differ => exact absurd (orderly.fitted.counts got kind dir) differ
  | halted halted =>
    obtain ⟨front, opening, back, mid, split, all, stuck⟩ := halted
    obtain ⟨gone, inner, bridging⟩ := all.exists_bridging orderly got kind split
    exact (stuck gone inner bridging).stranded orderly got kind split all bridging
  | @occupied mid key all isPort onBdry =>
    -- Nothing leads on from the port of a composite whose gates are all bridged.
    obtain ⟨midway, -⟩ := all.midway orderly.midway opens
    obtain ⟨tracked, -⟩ := all.tracked orderly.midway opens orderly.guided
    rw [Process.map_helper_gates (orderly.fitted.counts got kind)] at midway tracked
    obtain ⟨side, mem⟩ := isBoundary_iff.mp onBdry
    obtain ⟨old, wasMem, trail, dst, -, stays, left⟩ := tracked.exists_former orderly.guided mem
    obtain ⟨dir, isPort⟩ := Process.mem_allPorts.mp isPort
    obtain ⟨port, has, isOwner, -⟩ := orderly.inv.listed got isPort
    have owner {new} (hasNew : mid.port? key = some new) : new.owner = id := by
      obtain ⟨-, pre, hasPre, same⟩ := midway.dissolved.exists_former_port hasNew
      obtain rfl := mem_unique has hasPre
      rw [← (Port.unlinked_eq.mp same).2.1, isOwner]
    generalize trail.filter (· ∉ inside.inputs ++ inside.outputs) = rest at left
    cases left with
    | stay =>
      have still := of_found has stays
      exact absurd (.inl ⟨proc, isOwner ▸ got, by rw [kind]; rfl⟩) still
    | cross passes _ =>
      rcases passes with ⟨comp, gate⟩ | ⟨comp, gate⟩
      · obtain ⟨new, hasNew, rfl, -⟩ := gate.exists_outer midway.dissolved.evolves.inv
        exact absurd (mem_singleton.mpr (owner hasNew)) (midway.not_mem_of_gate got kind gate).1
      · obtain ⟨new, hasNew, rfl, -⟩ := gate.exists_inner midway.dissolved.evolves.inv
        exact absurd (mem_singleton.mpr (owner hasNew)) (midway.not_mem_of_gate got kind gate).2

theorem BridgedAll.exists_front {front back : List Opening} {opening : Opening}
    (all : net.BridgedAll openings last) (split : openings = front ++ opening :: back) :
    ∃ mid next gone inner, net.BridgedAll front mid ∧
      mid.Bridging opening.direction opening.helper gone opening.outer inner ∧
      mid.Bridged opening.direction opening.helper gone opening.outer inner next := by
  induction all generalizing back with
  | nil => cases front <;> cases split
  | snoc pre bridging bridged ih =>
    rcases eq_nil_or_concat' back with rfl | ⟨rest, final, rfl⟩
    · obtain ⟨rfl, same⟩ := append_inj' split rfl
      obtain rfl := (List.cons.inj same).1
      exact ⟨_, _, _, _, pre, bridging, bridged⟩
    · rw [← cons_append, ← append_assoc] at split
      exact ih (append_inj' split rfl).1

theorem mem_helpersOf?_iff : (∃ helpers, net.helpersOf? comp = some helpers ∧ helper ∈ helpers) ↔
    ∃ dir idx, net.helperAt? comp dir idx = some helper := by
  constructor
  · rintro ⟨helpers, isMem, mem⟩
    obtain ⟨proc, inside, got, kind, rfl⟩ := helpersOf?_eq_some.mp isMem
    obtain ⟨dir, inList⟩ := Helpers.mem_iff.mp mem
    obtain ⟨idx, atIdx⟩ := mem_iff_getElem?.mp inList
    exact ⟨dir, idx, (helperAt?_of_composite got kind).trans atIdx⟩
  · rintro ⟨dir, idx, mem⟩
    obtain ⟨proc, inside, got, kind, atIdx⟩ := helperAt?_eq_some.mp mem
    exact ⟨_, helpersOf?_eq_some.mpr ⟨proc, inside, got, kind, rfl⟩,
      Helpers.mem_iff.mpr ⟨dir, mem_of_getElem? atIdx⟩⟩

theorem Fitted.composite_unique (fitted : net.Fitted) (first : net.helpersOf? comp = some helpers)
    (second : net.helpersOf? other = some others) (mem : helper ∈ helpers)
    (memToo : helper ∈ others) : comp = other := by
  obtain ⟨_, _, isHelper⟩ := mem_helpersOf?_iff.mp ⟨helpers, first, mem⟩
  obtain ⟨_, _, isHelperToo⟩ := mem_helpersOf?_iff.mp ⟨others, second, memToo⟩
  exact (fitted.once isHelper isHelperToo).1

namespace First

variable (first : net.First id proc inside)

include first

theorem helpersOf?_eq : net.helpersOf? id = some (inside.inputs ++ inside.outputs) :=
  helpersOf?_eq_some.mpr ⟨proc, inside, first.stored, first.kind, rfl⟩

theorem sooner (isMem : net.helpersOf? other = some others) (apart : other ≠ id) :
    net.Sooner id other := by
  obtain ⟨has, around, got, kind, -⟩ := helpersOf?_eq_some.mp isMem
  exact ⟨proc, has, first.stored, got,
    (first.before other has got (by rw [kind]; rfl)).resolve_left apart⟩

theorem not_sooner (isMem : net.helpersOf? other = some others) : ¬ net.Sooner other id := by
  rintro ⟨has, too, got, gotToo, less⟩
  obtain rfl := mem_unique first.stored gotToo
  obtain ⟨_, around, storedToo, kind, -⟩ := helpersOf?_eq_some.mp isMem
  obtain rfl := mem_unique got storedToo
  rcases first.before other has got (by rw [kind]; rfl) with rfl | deeper | ⟨same, pre⟩
  · obtain rfl := mem_unique got first.stored
    rcases less with less | ⟨-, less⟩
    · exact Nat.lt_irrefl _ less
    · exact lt_irrefl _ less
  · rcases less with less | ⟨same, -⟩
    · exact Nat.lt_asymm less deeper
    · exact Nat.ne_of_lt deeper same.symm
  · rcases less with less | ⟨-, less⟩
    · exact Nat.ne_of_lt less same.symm
    · exact lt_asymm pre less

theorem earlier {stranger : ProcessId} (own : helper ∈ inside.inputs ++ inside.outputs)
    (isMem : net.helpersOf? other = some others) (mem : stranger ∈ others) (apart : other ≠ id) :
    net.Earlier helper stranger :=
  ⟨id, other, _, others, first.helpersOf?_eq, isMem, own, mem, .inl (first.sooner isMem apart)⟩

theorem idxOf_lt (fitted : net.Fitted) (own : helper ∈ inside.inputs ++ inside.outputs)
    (earlier : net.Earlier other helper) :
    (inside.inputs ++ inside.outputs).idxOf other <
      (inside.inputs ++ inside.outputs).idxOf helper := by
  obtain ⟨comp, second, helpers, others, isMem, isMemToo, mem, memToo, pre⟩ := earlier
  obtain rfl := fitted.composite_unique isMemToo first.helpersOf?_eq memToo own
  obtain rfl := mem_unique isMemToo first.helpersOf?_eq
  exact (pre.resolve_left (first.not_sooner isMem)).2

end First

namespace Inlined

variable (inlined : net.Inlined id proc inside next) (orderly : net.Orderly)
  (first : net.First id proc inside)

include inlined orderly first

theorem exists_not_earlier {pre behind : List ProcessId} {idx : Nat} (mem : key ∈ net.boundary side)
    (arrives : net.Arrives side key (pre ++ helper :: behind) dst) (stays : net.Stays dst)
    (isHelper : net.helperAt? id side.opposite idx = some helper) :
    ∃ other ∈ pre, ¬ net.Earlier other helper := by
  have counts := orderly.fitted.counts first.stored first.kind
  obtain ⟨_, _, _, all, -⟩ := inlined.steps
  obtain ⟨inRange, isAt⟩ :=
    List.getElem?_eq_some_iff.mp
      ((helperAt?_of_composite first.stored first.kind).symm.trans isHelper)
  obtain ⟨front, back, split⟩ :=
    append_of_mem (Process.mem_gates (counts side.opposite ▸ inRange) inRange)
  rw [isAt] at split
  -- The gate was bridged when those before it were; then its helper was not on the boundary.
  obtain ⟨mid, after, gone, inner, allFront, bridging, bridged⟩ := all.exists_front split
  obtain ⟨opensHere, midway, tracked, -⟩ := allFront.turn orderly first.stored first.kind split
  obtain ⟨-, gate⟩ := midway.gate opensHere bridging
  by_contra none
  simp only [not_exists, not_and, not_not] at none
  have own : helper ∈ inside.inputs ++ inside.outputs := by
    rw [orderly.helpers_eq first.stored first.kind split]
    exact mem_append_right _ mem_cons_self
  have early : ∀ other ∈ pre, other ∈ front.map (·.helper) := fun other isPre =>
    (orderly.idxOf_lt_iff first.stored first.kind split).mp
      (first.idxOf_lt orderly.fitted own (none other isPre))
  obtain ⟨entry, isEntry, leads⟩ := exists_of_forall₂ (tracked side).flip mem
  have left := leads stays arrives
  have skipped : pre.filter (· ∉ front.map (·.helper)) = [] :=
    filter_eq_nil_iff.mpr fun other isPre => by simpa using early other isPre
  have late : helper ∉ front.map (·.helper) := orderly.not_mem_front first.stored first.kind split
  rw [filter_append, skipped, filter_cons_of_pos (by simpa using late)] at left
  cases left with
  | cross passes _ =>
    obtain ⟨-, passed⟩ := (midway.dissolved.passes_iff midway.leaves).mp passes
    rcases passed with ⟨comp, gateToo⟩ | ⟨comp, gateToo⟩
    · exact side.opposite_ne (gate.helper_unique orderly.fitted gateToo).2.1
    · obtain ⟨-, -, -, rfl⟩ := gate.helper_unique orderly.fitted gateToo
      exact midway.inner_not_boundary opensHere bridging bridged isEntry

omit first in
theorem helpersOf?_eq_some :
    next.helpersOf? other = some helpers ↔ other ≠ id ∧ net.helpersOf? other = some helpers := by
  have dissolved := inlined.dissolved orderly.inv orderly.placed
  constructor
  · intro isMem
    obtain ⟨new, around, got, kind, rfl⟩ := Network.helpersOf?_eq_some.mp isMem
    obtain ⟨still, old, gotOld, core, -⟩ := dissolved.exists_former got
    obtain ⟨within, kindOld, same⟩ := Process.exists_composite core kind
    exact ⟨fun here => still (mem_append_right _ (mem_singleton.mpr here)),
      Network.helpersOf?_eq_some.mpr ⟨old, within, gotOld, kindOld, by rw [same]⟩⟩
  · rintro ⟨apart, isMem⟩
    obtain ⟨old, within, got, kind, rfl⟩ := Network.helpersOf?_eq_some.mp isMem
    obtain ⟨new, gotNew, core, -⟩ := dissolved.exists_later got
      (inlined.not_mem orderly.inv orderly.placed got (by rw [kind]; rfl) apart)
    obtain ⟨around, kindNew, same⟩ := Process.exists_composite core kind
    exact Network.helpersOf?_eq_some.mpr ⟨new, around, gotNew, kindNew, by rw [same]⟩

theorem exists_depth_eq {has : Process} (got : net.process? other = some has)
    (comp : has.kind.isLeaf = false) (apart : other ≠ id) :
    ∃ new, next.process? other = some new ∧ new.hierarchy.depth = has.hierarchy.depth := by
  obtain ⟨new, gotNew, -, place⟩ :=
    (inlined.dissolved orderly.inv orderly.placed).exists_later got
      (inlined.not_mem orderly.inv orderly.placed got comp apart)
  refine ⟨new, gotNew, ?_⟩
  rw [place, Hierarchy.outside_eq_self fun around isAround => ?_]
  obtain ⟨outer, gotOuter, isComp, less⟩ := orderly.placed.exists_composite got isAround
  refine inlined.not_mem orderly.inv orderly.placed gotOuter isComp ?_
  rintro rfl
  obtain rfl := mem_unique first.stored gotOuter
  exact Nat.not_lt.mpr (first.innermost other has got comp) less

theorem sooner_iff {second : ProcessId} (isMem : next.helpersOf? comp = some helpers)
    (isMemToo : next.helpersOf? second = some others) :
    next.Sooner comp second ↔ net.Sooner comp second := by
  have depth {other helpers} (isMem : next.helpersOf? other = some helpers) : ∃ has new,
      net.process? other = some has ∧ next.process? other = some new ∧
      new.hierarchy.depth = has.hierarchy.depth := by
    obtain ⟨apart, wasMem⟩ := (inlined.helpersOf?_eq_some orderly).mp isMem
    obtain ⟨has, around, got, kind, -⟩ := Network.helpersOf?_eq_some.mp wasMem
    obtain ⟨new, gotNew, same⟩ :=
      inlined.exists_depth_eq orderly first got (by rw [kind]; rfl) apart
    exact ⟨has, new, got, gotNew, same⟩
  obtain ⟨has, new, got, gotNew, same⟩ := depth isMem
  obtain ⟨hasToo, newToo, gotToo, gotNewToo, sameToo⟩ := depth isMemToo
  simp [Sooner, got, gotNew, gotToo, gotNewToo, same, sameToo]

theorem earlier_iff {one another : ProcessId} :
    next.Earlier one another ↔
      net.Earlier one another ∧ one ∉ inside.inputs ++ inside.outputs ∧
      another ∉ inside.inputs ++ inside.outputs := by
  have foreign {other helper helpers} (apart : other ≠ id)
      (isMem : net.helpersOf? other = some helpers)
      (mem : helper ∈ helpers) : helper ∉ inside.inputs ++ inside.outputs := fun own =>
    apart (orderly.fitted.composite_unique isMem first.helpersOf?_eq mem own)
  have new {other helper helpers} (isMem : net.helpersOf? other = some helpers)
      (mem : helper ∈ helpers)
      (notOwn : helper ∉ inside.inputs ++ inside.outputs) : next.helpersOf? other =
        some helpers := by
    refine (inlined.helpersOf?_eq_some orderly).mpr ⟨?_, isMem⟩
    rintro rfl
    obtain rfl := mem_unique isMem first.helpersOf?_eq
    exact notOwn mem
  constructor
  · rintro ⟨comp, second, helpers, others, isMem, isMemToo, mem, memToo, pre⟩
    obtain ⟨apart, wasMem⟩ := (inlined.helpersOf?_eq_some orderly).mp isMem
    obtain ⟨apartToo, wasMemToo⟩ := (inlined.helpersOf?_eq_some orderly).mp isMemToo
    rw [inlined.sooner_iff orderly first isMem isMemToo] at pre
    exact ⟨⟨comp, second, helpers, others, wasMem, wasMemToo, mem, memToo, pre⟩,
      foreign apart wasMem mem, foreign apartToo wasMemToo memToo⟩
  · rintro ⟨⟨comp, second, helpers, others, wasMem, wasMemToo, mem, memToo, pre⟩, notOwn, notOwnToo⟩
    have isMem := new wasMem mem notOwn
    have isMemToo := new wasMemToo memToo notOwnToo
    rw [← inlined.sooner_iff orderly first isMem isMemToo] at pre
    exact ⟨comp, second, helpers, others, isMem, isMemToo, mem, memToo, pre⟩

theorem stays_iff : next.Stays key ↔ net.Stays key := by
  have dissolved := inlined.dissolved orderly.inv orderly.placed
  have passing {other} :=
    @Inlined.passing_iff _ _ _ _ _ inlined orderly.inv orderly.placed first other
  constructor
  · rintro ⟨port, has, still⟩
    obtain ⟨left, old, hasOld, same⟩ := dissolved.exists_former_port has
    refine ⟨old, hasOld, fun goes => ?_⟩
    rw [(Port.unlinked_eq.mp same).2.1] at goes
    exact (passing.mp goes).elim left still
  · rintro ⟨port, has, still⟩
    obtain ⟨left, stillToo⟩ := not_or.mp (passing.not.mp still)
    obtain ⟨new, hasNew, same⟩ := dissolved.exists_later_port has left
    exact ⟨new, hasNew, by rwa [(Port.unlinked_eq.mp same).2.1]⟩

theorem tracked : net.Tracked (inside.inputs ++ inside.outputs) next ∧ next.Guided := by
  obtain ⟨mid, all, midway, -, left, alike⟩ :=
    inlined.exists_midway orderly.inv orderly.placed first.stored first.kind orderly.fitted
      orderly.singlePort orderly.sided
  obtain ⟨tracked, unfed⟩ :=
    all.tracked orderly.midway (fun _ mem => opens_of_mem first.stored first.kind mem)
      orderly.guided
  rw [Process.map_helper_gates (orderly.fitted.counts first.stored first.kind)] at tracked
  have trackedToo : net.Tracked (inside.inputs ++ inside.outputs) next := fun side => by
    rw [alike.boundary]
    refine (tracked side).imp fun pre after leads => ?_
    exact fun stays arrives => alike.arrives_iff.mpr (leads stays arrives)
  refine ⟨trackedToo, fun mem src follows => ?_, fun mem => ?_⟩
  · exact unfed (alike.boundary _ ▸ mem) src (alike.follows.mp follows)
  · obtain ⟨-, -, trail, dst, -, stays, arrives⟩ := trackedToo.exists_former orderly.guided mem
    exact ⟨_, dst, arrives, (inlined.stays_iff orderly first).mpr stays⟩

theorem orderly_after : next.Orderly where
  inv := (inlined.dissolved orderly.inv orderly.placed).evolves.inv
  placed := (inlined.dissolved orderly.inv orderly.placed).placed
  fitted := inlined.fitted orderly.inv orderly.placed first.stored first.kind orderly.fitted
  singlePort := inlined.singlePort orderly.inv orderly.placed orderly.singlePort
  sided :=
    (inlined.rerouted orderly.inv orderly.placed first.stored first.kind orderly.fitted
      orderly.singlePort orderly.sided).2
  guided := (inlined.tracked orderly first).2

theorem stranded_iff : next.Stranded ↔ net.Stranded := by
  have ⟨tracked, _⟩ := inlined.tracked orderly first
  have new := inlined.orderly_after orderly first
  have foreign {comp helper dir idx} (apart : comp ≠ id)
      (isHelper : net.helperAt? comp dir idx = some helper) : ∃ helpers,
        net.helpersOf? comp = some helpers ∧ helper ∈ helpers ∧
        helper ∉ inside.inputs ++ inside.outputs := by
    obtain ⟨helpers, isMem, mem⟩ := mem_helpersOf?_iff.mpr ⟨dir, idx, isHelper⟩
    exact ⟨helpers, isMem, mem,
      fun own => apart (orderly.fitted.composite_unique isMem first.helpersOf?_eq mem own)⟩
  constructor
  · rintro ⟨side, key, mem, pre, helper, behind, dst, arrives, stays, ⟨comp, idx, isHelper⟩, early⟩
    obtain ⟨apart, wasHelper⟩ :=
      (inlined.helperAt?_eq orderly.inv orderly.placed).mp isHelper
    obtain ⟨helpers, isMem, isOne, notOwn⟩ := foreign apart wasHelper
    obtain ⟨old, wasMem, trail, stop, arrivesOld, staysOld, arrivesToo⟩ :=
      tracked.exists_former orderly.guided mem
    obtain ⟨same, rfl⟩ :=
      arrives.unique new.inv new.fitted stays arrivesToo
        ((inlined.stays_iff orderly first).mpr staysOld)
    -- The way that led here came past more helpers, all of the composite that is gone.
    obtain ⟨front, back, rfl, isFront, isBack⟩ := filter_eq_append_iff.mp same.symm
    obtain ⟨skipped, rest, rfl, areSkipped, -⟩ := filter_eq_cons_iff.mp isBack
    refine ⟨side, old, wasMem, front ++ skipped, helper, rest,
      dst, by simpa using arrivesOld, staysOld, ⟨comp, idx, wasHelper⟩, fun other isPre => ?_⟩
    by_cases own : other ∈ inside.inputs ++ inside.outputs
    · exact first.earlier own isMem isOne apart
    rcases mem_append.mp isPre with inFront | inSkipped
    · have isLeft : other ∈ pre := isFront ▸ mem_filter.mpr ⟨inFront, by simpa using own⟩
      exact ((inlined.earlier_iff orderly first).mp (early other isLeft)).1
    · grind
  · rintro ⟨side, key, mem, pre, helper, behind, dst, arrives, stays, ⟨comp, idx, isHelper⟩, early⟩
    by_cases here : comp = id
    · subst here
      obtain ⟨other, isPre, late⟩ :=
        inlined.exists_not_earlier orderly first mem arrives stays isHelper
      exact absurd (early other isPre) late
    obtain ⟨-, -, -, notOwn⟩ := foreign here isHelper
    obtain ⟨after, isAfter, leads⟩ := exists_of_forall₂ (tracked side).flip mem
    have left := leads stays arrives
    rw [filter_append, filter_cons_of_pos (by simpa using notOwn)] at left
    refine ⟨side, after, isAfter, _, helper, _, dst, left,
      (inlined.stays_iff orderly first).mpr stays,
      ⟨comp, idx, (inlined.helperAt?_eq orderly.inv orderly.placed).mpr ⟨here, isHelper⟩⟩,
      fun other isPre => ?_⟩
    obtain ⟨wasPre, notLost⟩ := mem_filter.mp isPre
    exact (inlined.earlier_iff orderly first).mpr
      ⟨early other wasPre, by simpa using notLost, notOwn⟩

end Inlined

theorem Flattens.not_stranded (flattens : net.Flattens next) (orderly : net.Orderly) :
    ¬ net.Stranded := by
  induction flattens with
  | done flat =>
    rintro ⟨_, _, -, _, _, _, _, -, -, ⟨_, _, isHelper⟩, -⟩
    exact flat.helperAt?_ne isHelper
  | step first inlined _ ih =>
    rw [← inlined.stranded_iff orderly first]
    exact ih (inlined.orderly_after orderly first)

theorem Unflattenable.stranded (fails : net.Unflattenable) (orderly : net.Orderly) :
    net.Stranded := by
  induction fails with
  | here first fails => exact fails.stranded orderly first.stored first.kind
  | behind first inlined _ ih =>
    rw [← inlined.stranded_iff orderly first]
    exact ih (inlined.orderly_after orderly first)

theorem Orderly.exists_flatten_iff (orderly : net.Orderly) :
    (∃ report next, Edit.flatten.run net = .ok report next) ↔ ¬ net.Stranded := by
  have ends := ends_flatten orderly.inv orderly.placed
  rw [Edit.Ends] at ends
  cases runs : Edit.flatten.run net with
  | ok report next =>
    rw [runs] at ends
    exact iff_of_true ⟨report, next, rfl⟩ (ends.not_stranded orderly)
  | error fault after =>
    rw [runs] at ends
    exact iff_of_false (by rintro ⟨_, _, done⟩; cases done) (not_not.mpr (ends.1.stranded orderly))

end Dataflow.Network
