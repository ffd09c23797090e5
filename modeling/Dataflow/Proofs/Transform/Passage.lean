import Dataflow.Proofs.Graph.Related
import Dataflow.Proofs.Transform.Bridge

/-! Bridging the gates of a composite in turn: ways lead where they led, and come past fewer
helpers. -/

open List

namespace Dataflow

/-- A port of a composite, and the helper that stands for it. -/
structure Opening where
  direction : Direction
  outer : PortKey
  helper : ProcessId

theorem filter_not_mem_append (trail lost more : List ProcessId) :
    trail.filter (· ∉ lost ++ more) = (trail.filter (· ∉ lost)).filter (· ∉ more) := by
  rw [filter_filter]
  congr 1
  simp [Bool.and_comm]

namespace Network

variable {net mid next last : Network} {dir side : Direction} {comp helper : ProcessId}
  {gone : Process}
  {key outer inner src dst : PortKey} {lost more trail kept : List ProcessId}
  {openings : List Opening}

/-- A port that belongs to a process with nothing inside. -/
def AtLeaf (net : Network) (key : PortKey) : Prop :=
  ∃ port process, net.port? key = some port ∧ net.process? port.owner = some process ∧
    process.kind.isLeaf

/-- A composite lists a helper for one of its ports. -/
def Opens (net : Network) (composite : ProcessId) (opening : Opening) : Prop :=
  ∃ index, net.helperAt? composite opening.direction index = some opening.helper ∧
    net.portAt? composite opening.direction index = some opening.outer

/-- Gates that were bridged one after the other. -/
inductive BridgedAll (net : Network) : List Opening → Network → Prop where
  | nil : BridgedAll net [] net
  | snoc {openings : List Opening} {middle next : Network} {opening : Opening} {gone : Process}
    {inner : PortKey} (before : BridgedAll net openings middle)
    (bridging : middle.Bridging opening.direction opening.helper gone opening.outer inner)
    (bridged : middle.Bridged opening.direction opening.helper gone opening.outer inner next) :
    BridgedAll net (openings ++ [opening]) next

/-- Ways between what is left lead where they led, but for the helpers that are gone. -/
structure Rerouted (net : Network) (lost : List ProcessId) (next : Network) : Prop where
  travels : ∀ {direction source kept target}, next.AtLeaf source → next.AtLeaf target →
    (next.Travels direction source kept target ↔
      ∃ trail, net.Travels direction source trail target ∧ trail.filter (· ∉ lost) = kept)
  arrives : ∀ side, List.Forall₂
    (fun before after => ∀ {kept target}, next.AtLeaf target → next.Arrives side after kept target →
      ∃ trail, net.Arrives side before trail target ∧ trail.filter (· ∉ lost) = kept)
    (net.boundary side) (next.boundary side)

/-- Networks with the same connections, gates and boundary. -/
structure Alike (net next : Network) : Prop where
  follows : ∀ {direction near far}, next.Follows direction near far ↔ net.Follows direction near far
  passes : ∀ {direction helper near far}, next.Passes direction helper near far ↔
    net.Passes direction helper near far
  boundary : ∀ side, next.boundary side = net.boundary side

theorem Alike.travels_iff (alike : net.Alike next) :
    next.Travels dir src trail dst ↔ net.Travels dir src trail dst :=
  ⟨fun travels => travels.imp alike.follows.mp alike.passes.mp, fun travels =>
    travels.imp alike.follows.mpr alike.passes.mpr⟩

theorem Alike.arrives_iff (alike : net.Alike next) :
    next.Arrives dir src trail dst ↔ net.Arrives dir src trail dst :=
  ⟨fun arrives => arrives.imp alike.follows.mp alike.passes.mp, fun arrives =>
    arrives.imp alike.follows.mpr alike.passes.mpr⟩

theorem Dissolved.atLeaf (dissolved : net.Dissolved lost next) (leaf : next.AtLeaf key) :
    net.AtLeaf key := by
  obtain ⟨port, proc, has, got, isLeaf⟩ := leaf
  obtain ⟨-, old, hasOld, same⟩ := dissolved.exists_former_port has
  obtain ⟨-, owner, gotOwner, core, -⟩ := dissolved.exists_former got
  refine ⟨old, owner, hasOld, by rw [(Port.unlinked_eq.mp same).2.1, gotOwner], ?_⟩
  rw [Process.isLeaf_eq core]
  exact isLeaf

namespace Rerouted

theorem refl : net.Rerouted [] net where
  travels _ _ := by simp
  arrives side := forall₂_same.mpr fun key _ kept dst _ arrives => ⟨kept, arrives, by simp⟩

/-- Ways are led past helpers in turn. -/
theorem trans (first : net.Rerouted lost next) (second : next.Rerouted more last)
    (dissolved : next.Dissolved more last) : net.Rerouted (lost ++ more) last where
  travels {dir src kept dst} leaf leafToo := by
    rw [second.travels leaf leafToo]
    simp only [first.travels (dissolved.atLeaf leaf) (dissolved.atLeaf leafToo),
      filter_not_mem_append]
    constructor <;> grind
  arrives side := by
    refine forall₂_trans (fun {pre between after} earlier new kept dst leaf arrives => ?_)
      (first.arrives side) (second.arrives side)
    obtain ⟨_, arrivesBetween, rfl⟩ := new leaf arrives
    obtain ⟨trail, arrivesPre, rfl⟩ := earlier (dissolved.atLeaf leaf) arrivesBetween
    exact ⟨trail, arrivesPre, filter_not_mem_append ..⟩

theorem of_alike (alike : net.Alike next)
    (unpassed : ∀ {dir helper near far}, net.Passes dir helper near far → helper ∉ lost) :
    net.Rerouted lost next := by
  -- Every helper on a way is passed there.
  have unlisted {trail : List ProcessId}
      (passed : ∀ helper ∈ trail, ∃ dir near far, net.Passes dir helper near far) :
      trail.filter (· ∉ lost) = trail := by
    refine filter_eq_self.mpr fun helper mem => ?_
    obtain ⟨dir, near, far, passes⟩ := passed helper mem
    simpa using unpassed passes
  constructor
  · intro dir src kept dst _ _
    have whole {trail} (travels : net.Travels dir src trail dst) : trail.filter
        (· ∉ lost) = trail :=
      unlisted fun helper mem => ⟨dir, travels.exists_crossed mem⟩
    rw [alike.travels_iff]
    constructor
    · exact fun travels => ⟨_, travels, whole travels⟩
    · grind
  · intro side
    rw [alike.boundary]
    refine forall₂_same.mpr fun key _ kept dst _ arrives => ?_
    have arrivesToo := alike.arrives_iff.mp arrives
    exact ⟨kept, arrivesToo, unlisted fun helper mem => ⟨side, arrivesToo.exists_crossed mem⟩⟩

end Rerouted

theorem Gate.passes (gate : net.Gate comp dir helper outer inner) :
    net.Passes dir helper outer inner :=
  .inl ⟨comp, gate⟩

theorem Dissolved.passes_iff (dissolved : net.Dissolved lost next)
    (leaves : ∀ id ∈ lost, ∃ proc, net.process? id = some proc ∧ proc.kind.isLeaf)
    {near far : PortKey} :
    next.Passes dir helper near far ↔ helper ∉ lost ∧ net.Passes dir helper near far := by
  have stays {comp dir near far} (gate : net.Gate comp dir helper near far) :
      comp ∉ lost := fun isLost => by
    obtain ⟨proc, got, leaf⟩ := leaves comp isLost
    have isComp := of_found got gate.exists_composite
    simp [leaf] at isComp
  simp only [Passes, dissolved.gate_iff]
  constructor <;> grind

/-- A network whose gates are being bridged, and what is left of it so far. -/
structure Midway (net : Network) (lost : List ProcessId) (middle : Network) : Prop where
  inv : net.Consistent
  fitted : net.Fitted
  singlePort : net.SinglePortHelpers
  dissolved : net.Dissolved lost middle
  leaves : ∀ id ∈ lost, ∃ process, net.process? id = some process ∧ process.kind.isLeaf
  sided : middle.Sided

/-- The boundary stays on its sides. -/
theorem Bridged.sided (bridging : mid.Bridging dir helper gone outer inner)
    (bridged : mid.Bridged dir helper gone outer inner next) (sided : mid.Sided) : next.Sided := by
  intro side key mem
  rw [bridged.boundary] at mem
  obtain ⟨old, wasMem, rfl⟩ := mem_map.mp mem
  obtain ⟨port, has, facing⟩ := sided wasMem
  have live : (next.port? (PortKey.exchange outer (mid.landing outer inner) old)).isSome := by
    rw [← bridged.boundary] at mem
    exact bridged.dissolved.evolves.inv.boundary (isBoundary_iff.mpr ⟨side, mem⟩)
  obtain ⟨new, hasNew⟩ := Option.isSome_iff_exists.mp live
  obtain ⟨-, pre, hasPre, same⟩ := bridged.dissolved.exists_former_port hasNew
  refine ⟨new, hasNew, (Port.unlinked_eq.mp same).2.2.1.symm.trans ?_⟩
  rw [PortKey.exchange] at hasPre
  split at hasPre
  · rename_i here
    subst here
    rw [landing] at hasPre
    split at hasPre
    · rename_i far _ isPeer
      obtain ⟨too, hasToo, facingToo⟩ :=
        (bridging.inv.exists_follows (bridging.peer?_inner.mp isPeer)).2
      obtain ⟨own, hasOwn, facingOwn⟩ := bridging.outerFound
      obtain rfl := Option.mem_unique hasPre hasToo
      obtain rfl := Option.mem_unique has hasOwn
      rw [facingToo, ← facingOwn, facing]
    · grind
  · grind

theorem eq_opposite_of_ne (different : side ≠ dir) : side = dir.opposite := by
  cases side <;> cases dir <;> simp_all [Direction.opposite]

namespace Midway

section

variable (midway : net.Midway lost mid) (opens : net.Opens comp ⟨dir, outer, helper⟩)
  (bridging : mid.Bridging dir helper gone outer inner)

include midway opens bridging

theorem gate : helper ∉ lost ∧ net.Gate comp dir helper outer inner := by
  obtain ⟨still, -⟩ := midway.dissolved.exists_former bridging.stored
  obtain ⟨idx, mem, atOuter⟩ := opens
  have atInner := midway.dissolved.portAt?_eq helper dir.opposite 0
  rw [if_neg still] at atInner
  exact ⟨still, idx, mem, atOuter,
    by rw [← atInner]; exact portAt?_eq_some.mpr ⟨gone, bridging.stored, bridging.first⟩⟩

/-- One more gate is bridged. -/
theorem step (bridged : mid.Bridged dir helper gone outer inner next) :
    net.Midway (lost ++ [helper]) next where
  inv := midway.inv
  fitted := midway.fitted
  singlePort := midway.singlePort
  dissolved := midway.dissolved.trans bridged.dissolved
  leaves id isLost := by
    rcases mem_append.mp isLost with early | here
    · exact midway.leaves id early
    · obtain ⟨idx, mem, -⟩ := opens
      obtain ⟨proc, got, kind, -⟩ := midway.fitted.helpers mem
      exact ⟨proc, mem_singleton.mp here ▸ got, by rw [kind]; exact dir.isLeaf_helperKind⟩
  sided := bridged.sided bridging midway.sided

theorem eq_inner (mem : key ∈ gone.allPorts) : key = inner := by
  obtain ⟨-, old, got, core, -⟩ := midway.dissolved.exists_former bridging.stored
  obtain ⟨-, -, -, -, atInner⟩ := midway.gate opens bridging
  obtain ⟨idx, isHelper, -⟩ := opens
  have same : old.allPorts = gone.allPorts := (congrArg Process.allPorts core :)
  exact Option.mem_unique (midway.singlePort isHelper got key (same ▸ mem)) atInner

section

variable (bridged : mid.Bridged dir helper gone outer inner next)

include bridged

theorem splice :
    Graph.Splice (mid.Follows dir) (mid.Passes dir) helper outer inner (next.Follows dir)
      (next.Passes dir) := by
  obtain ⟨still, gate⟩ := midway.gate opens bridging
  have formerly {other near far} (passes : mid.Passes dir other near far) :
      net.Passes dir other near far :=
    ((midway.dissolved.passes_iff midway.leaves).mp passes).2
  have after := midway.step opens bridging bridged
  refine ⟨(midway.dissolved.passes_iff midway.leaves).mpr ⟨still, gate.passes⟩, fun passes => ?_,
    fun passes => ?_, fun passes => ?_, ?_, ?_⟩
  · exact (formerly passes).near_unique midway.inv midway.fitted gate.passes
  · exact (formerly passes).far_unique midway.inv midway.fitted gate.passes
  · exact (formerly passes).helper_unique midway.fitted gate.passes
  · intro first second
    rw [bridged.follows]
    constructor
    · rintro ⟨-, -, rest⟩
      exact rest
    · rintro ⟨notInner, notOuter, follows⟩
      refine ⟨fun mem => notInner (midway.eq_inner opens bridging mem), fun mem => ?_, notInner,
        notOuter, follows⟩
      -- The port of the helper faces the other way.
      obtain ⟨port, has, facing⟩ : ∃ port, mid.port? second = some port ∧ port.direction = dir := by
        rcases follows with follows | ⟨-, follows⟩ <;>
          exact (bridging.inv.exists_follows follows).2
      obtain rfl := midway.eq_inner opens bridging mem
      have facingToo := of_found has bridging.innerFound
      exact dir.opposite_ne (facingToo.symm.trans facing)
  · intro other near far
    rw [after.dissolved.passes_iff after.leaves, midway.dissolved.passes_iff midway.leaves,
      mem_append, mem_singleton, not_or]
    constructor <;> grind

theorem splice_opposite :
    Graph.Splice (mid.Follows dir.opposite) (mid.Passes dir.opposite) helper inner outer
      (next.Follows dir.opposite) (next.Passes dir.opposite) := by
  have follows (net : Network) : net.Follows dir.opposite = fun first second =>
      net.Follows dir second first :=
    funext fun _ => funext fun _ => propext follows_opposite
  have passes (net : Network) : net.Passes dir.opposite = fun helper first second =>
      net.Passes dir helper second first :=
    funext fun _ => funext fun _ => funext fun _ => propext passes_opposite
  rw [follows, follows, passes, passes]
  exact (midway.splice opens bridging bridged).flip

/-- Ports of leaves that are left are not at the gate. -/
theorem apart (leaf : next.AtLeaf key) :
    key ≠ outer ∧ key ≠ inner := by
  have ⟨port, proc, has, got, isLeaf⟩ := leaf
  obtain ⟨-, gate⟩ := midway.gate opens bridging
  have after := midway.step opens bridging bridged
  obtain ⟨left, old, hasOld, same⟩ := after.dissolved.exists_former_port has
  have owner : old.owner = port.owner := (Port.unlinked_eq.mp same).2.1
  constructor
  · rintro rfl
    obtain ⟨isOwner, -⟩ := of_found hasOld (gate.exists_outer midway.inv)
    obtain ⟨outside, gotOutside, isComp⟩ := gate.exists_composite
    obtain ⟨-, pre, gotPre, core, -⟩ := after.dissolved.exists_former got
    rw [← owner, isOwner, gotOutside] at gotPre
    obtain rfl := Option.some.inj gotPre
    rw [Process.isLeaf_eq core, isLeaf] at isComp
    cases isComp
  · rintro rfl
    obtain ⟨isOwner, -⟩ := of_found hasOld (gate.exists_inner midway.inv)
    exact left (by rw [← owner, isOwner]; exact mem_append_right _ (mem_singleton_self helper))

end

end

theorem filter_ne (trail : List ProcessId) (helper : ProcessId) :
    trail.filter (· ≠ helper) = trail.filter (· ∉ [helper]) := by
  simp

section

variable (midway : net.Midway lost mid) (opens : net.Opens comp ⟨dir, outer, helper⟩)
  (bridging : mid.Bridging dir helper gone outer inner)
  (bridged : mid.Bridged dir helper gone outer inner next)

include midway opens bridging bridged

theorem travels_iff (leaf : next.AtLeaf src) (leafToo : next.AtLeaf dst) :
    next.Travels side src kept dst ↔
      ∃ trail, mid.Travels side src trail dst ∧ trail.filter (· ∉ [helper]) = kept := by
  obtain ⟨notOuter, notInner⟩ := midway.apart opens bridging bridged leaf
  obtain ⟨notOuterToo, notInnerToo⟩ := midway.apart opens bridging bridged leafToo
  simp only [← filter_ne]
  by_cases here : side = dir
  · subst here
    exact (midway.splice opens bridging bridged).route_iff notInner notOuterToo
  · obtain rfl := eq_opposite_of_ne here
    exact (midway.splice_opposite opens bridging bridged).route_iff notOuter notInnerToo

theorem inner_not_boundary : inner ∉ mid.boundary side := fun mem => by
  obtain ⟨-, gate⟩ := midway.gate opens bridging
  have elsewhere : inner ≠ outer := (gate.outer_ne_inner midway.inv midway.fitted gate).symm
  have stays : inner ∈ next.boundary side := by
    rw [bridged.boundary]
    exact mem_map.mpr ⟨inner, mem, if_neg elsewhere⟩
  have after := midway.step opens bridging bridged
  obtain ⟨port, has, -⟩ := after.sided stays
  obtain ⟨left, old, hasOld, same⟩ := after.dissolved.exists_former_port has
  obtain ⟨isOwner, -⟩ := of_found hasOld (gate.exists_inner midway.inv)
  exact left
    (by rw [← (Port.unlinked_eq.mp same).2.1,
      isOwner]; exact mem_append_right _ (mem_singleton_self helper))

theorem arrives_iff_of_ne (mem : key ∈ mid.boundary side) (elsewhere : key ≠ outer)
    (leaf : next.AtLeaf dst) :
    next.Arrives side key kept dst ↔
      ∃ trail, mid.Arrives side key trail dst ∧ trail.filter (· ∉ [helper]) = kept := by
  obtain ⟨notOuter, notInner⟩ := midway.apart opens bridging bridged leaf
  simp only [← filter_ne]
  by_cases here : side = dir
  · subst here
    exact (midway.splice opens bridging bridged).lands_iff elsewhere notOuter
  · obtain rfl := eq_opposite_of_ne here
    have notThere : key ≠ inner :=
      fun same => midway.inner_not_boundary opens bridging bridged (same ▸ mem)
    exact (midway.splice_opposite opens bridging bridged).lands_iff notThere notInner

theorem arrives_iff_of_free (free : ∀ src, ¬ mid.Follows dir src outer)
    (leads : mid.Follows dir inner key) (leaf : next.AtLeaf dst) :
    next.Arrives dir key kept dst ↔
      ∃ trail, mid.Arrives dir outer trail dst ∧ trail.filter (· ∉ [helper]) = kept := by
  obtain ⟨notOuter, -⟩ := midway.apart opens bridging bridged leaf
  simp only [← filter_ne]
  refine (midway.splice opens bridging bridged).lands_entry_iff notOuter (fun {other} => ?_)
    fun same => free inner (same ▸ leads)
  constructor
  · exact fun follows => follows.unique bridging.inv.linked leads
  · rintro rfl
    exact leads

theorem not_arrives_outer (leaf : next.AtLeaf dst) : ¬ next.Arrives dir outer kept dst := by
  intro arrives
  cases arrives with
  | stay => exact (midway.apart opens bridging bridged leaf).1 rfl
  | cross passes onwards =>
    have splice := midway.splice opens bridging bridged
    obtain ⟨passed, different⟩ := splice.crosses.mp passes
    exact different (splice.entry_unique passed).1

end

theorem side_eq (midway : net.Midway lost mid) (bridging : mid.Bridging dir helper gone outer inner)
    (mem : outer ∈ mid.boundary side) : side = dir := by
  obtain ⟨port, has, rfl⟩ := midway.sided mem
  obtain ⟨too, hasToo, rfl⟩ := bridging.outerFound
  rw [Option.mem_unique has hasToo]

section

variable (midway : net.Midway lost mid) (opens : net.Opens comp ⟨dir, outer, helper⟩)
  (bridging : mid.Bridging dir helper gone outer inner)
  (bridged : mid.Bridged dir helper gone outer inner next)

include midway opens bridging bridged

theorem arrives_before (mem : key ∈ mid.boundary side) (leaf : next.AtLeaf dst)
    (arrives : next.Arrives side (PortKey.exchange outer (mid.landing outer inner) key) kept dst) :
    ∃ trail, mid.Arrives side key trail dst ∧ trail.filter (· ∉ [helper]) = kept := by
  rw [PortKey.exchange] at arrives
  split at arrives
  · rename_i here
    subst here
    obtain rfl := midway.side_eq bridging mem
    rw [landing] at arrives
    split at arrives
    · rename_i far unfed isPeer
      have free (src : PortKey) : ¬ mid.Follows side src key := fun fed => by
        rw [bridging.peer?_outer.mpr fed] at unfed
        cases unfed
      exact (midway.arrives_iff_of_free opens bridging bridged free (bridging.peer?_inner.mp isPeer)
        leaf).mp arrives
    · exact absurd arrives (midway.not_arrives_outer opens bridging bridged leaf)
  · rename_i elsewhere
    exact (midway.arrives_iff_of_ne opens bridging bridged mem elsewhere leaf).mp arrives

theorem arrives_after (mem : key ∈ mid.boundary side) (free : ∀ src, ¬ mid.Follows side src key)
    (leaf : next.AtLeaf dst) (arrives : mid.Arrives side key trail dst) :
    next.Arrives side (PortKey.exchange outer (mid.landing outer inner) key)
      (trail.filter (· ∉ [helper])) dst := by
  rw [PortKey.exchange]
  split
  · rename_i here
    subst here
    obtain rfl := midway.side_eq bridging mem
    cases arrives with
    | stay => exact absurd rfl (midway.apart opens bridging bridged leaf).1
    | cross passes onwards =>
      obtain ⟨rfl, rfl⟩ := (midway.splice opens bridging bridged).entry_unique passes
      obtain ⟨far, leads, arrives⟩ := Graph.route_iff_lands.mp onwards
      rw [bridging.landing_of_free free leads]
      exact (midway.arrives_iff_of_free opens bridging bridged free leads leaf).mpr
        ⟨_, .cross passes onwards, rfl⟩
  · rename_i elsewhere
    exact (midway.arrives_iff_of_ne opens bridging bridged mem elsewhere leaf).mpr
      ⟨trail, arrives, rfl⟩

theorem rerouted : mid.Rerouted [helper] next where
  travels leaf leafToo := midway.travels_iff opens bridging bridged leaf leafToo
  arrives side := by
    rw [bridged.boundary, forall₂_map_right_iff]
    exact forall₂_same.mpr fun key mem kept dst leaf arrives =>
      midway.arrives_before opens bridging bridged mem leaf arrives

end

end Midway

end Network

end Dataflow
