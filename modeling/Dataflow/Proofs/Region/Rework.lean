import Dataflow.Proofs.Transform.Ready

/-! What a search for sections finds in a network in which what lies between an unzip and a zip was
replaced. -/

open List Option

namespace Dataflow

/-- The process at which a region is left in one direction. -/
def Section.gate (region : Section) : Direction → ProcessId
  | .input => region.start
  | .output => region.stop

namespace Network

variable {net next : Network} {id src dst start stop : ProcessId} {key : PortKey} {dir : Direction}
  {reg other : Section} {chains : List (List ProcessId)} {inner new : ProcessId → Prop}
  {visited work : List ProcessId}

theorem Simple.across_eq (simple : net.Simple id) (across : dst ∈ net.across id dir) :
    net.across id dir = [dst] := by
  obtain ⟨proc, key, got, only⟩ := simple.exists_port dir
  simp only [mem_across_of_stored got, only, mem_singleton, exists_eq_left] at across
  simp [Network.across, got, only, across]

theorem Simple.leadsInto (simple : net.Simple id) (across : dst ∈ net.across id dir)
    (inside : inner dst) : net.LeadsInto dir inner id := by
  obtain ⟨proc, key, got, only⟩ := simple.exists_port dir
  simp only [mem_across_of_stored got, only, mem_singleton, exists_eq_left] at across
  exact ⟨proc, got, by simp [only], by simp [only, across, inside]⟩

namespace Bundle

variable (bundle : net.Bundle reg chains)

include bundle

theorem leadsInto (inv : net.Consistent) (isMem : id ∈ chains.flatten)
    (dir : Direction) :
    net.LeadsInto dir (fun other => other ∈ chains.flatten ∨ other = reg.gate dir) id := by
  obtain ⟨chain, mem, onChain⟩ := mem_flatten.mp isMem
  obtain ⟨proc, key, got, -, isKey, branch⟩ := bundle.exists_branch mem
  have simple := branch.line.simple id onChain
  have member {other} (isOther : other ∈ chain) : other ∈ chains.flatten :=
    mem_flatten.mpr ⟨chain, mem, isOther⟩
  cases dir with
  | input =>
    obtain ⟨src, feeds, isSrc⟩ := branch.exists_source inv got isKey onChain
    refine simple.leadsInto (inv.mem_across_input.mpr feeds) ?_
    exact isSrc.elim .inr fun isOther => .inl (member isOther)
  | output =>
    obtain ⟨dst, feeds, isDst⟩ := branch.exists_target onChain
    refine simple.leadsInto (inv.mem_across_output.mpr feeds) ?_
    exact isDst.elim .inr fun isOther => .inl (member isOther)

theorem target_mem (inv : net.Consistent)
    (feeds : net.Feeds reg.start dst) : dst ∈ chains.flatten := by
  obtain ⟨proc, got, -, branches⟩ := bundle.opens
  obtain ⟨key, mem, leads⟩ := (inv.feeds_iff_out got).mp feeds
  obtain ⟨chain, isChain, branch⟩ := exists_of_forall₂ branches.flip mem
  rw [branch.enters] at leads
  exact mem_flatten.mpr ⟨chain, isChain, mem_of_head? leads⟩

theorem leadsInto_start (legal : net.Legal) :
    net.LeadsInto .output (· ∈ chains.flatten) reg.start := by
  obtain ⟨chain, mem⟩ := bundle.exists_chain legal
  obtain ⟨proc, got, -, branches⟩ := bundle.opens
  refine ⟨proc, got, fun empty => ?_, fun key isKey => ?_⟩
  · obtain ⟨key, isKey, -⟩ := exists_of_forall₂ branches mem
    rw [Process.ports] at empty
    simp [empty] at isKey
  · obtain ⟨chain, isChain, branch⟩ :=
      exists_of_forall₂ branches.flip (show key ∈ proc.outPorts from isKey)
    obtain ⟨first, starts⟩ := branch.exists_first
    exact ⟨first, branch.enters.trans starts, mem_flatten.mpr ⟨chain, isChain, mem_of_head? starts⟩⟩

end Bundle

theorem LeadsInto.of_mem_across (leads : net.LeadsInto dir inner id)
    (across : dst ∈ net.across id dir) : inner dst := by
  obtain ⟨proc, got, -, onwards⟩ := leads
  obtain ⟨key, mem, leads⟩ := (mem_across_of_stored got).mp across
  obtain ⟨too, leadsToo, isInner⟩ := onwards key mem
  exact mem_unique leadsToo leads ▸ isInner

theorem LeadsInto.exists_both {other : ProcessId → Prop} (first : net.LeadsInto dir inner id)
    (second : net.LeadsInto dir other id) : ∃ dst ∈ net.across id dir, inner dst ∧ other dst := by
  obtain ⟨proc, got, ports, onwards⟩ := first
  obtain ⟨-, onwardsToo⟩ := of_found got second
  obtain ⟨key, mem⟩ := exists_mem_of_ne_nil _ ports
  obtain ⟨dst, leads, isInner⟩ := onwards key mem
  exact ⟨dst, (mem_across_of_stored got).mpr ⟨key, mem, leads⟩, isInner,
    of_found leads (onwardsToo key mem)⟩

/-- A search that comes to a branch of a bundle finds the start of the bundle. -/
theorem Bundle.finds (bundle : net.Bundle reg chains) (inv : net.Consistent)
    (isMem : id ∈ chains.flatten)
    (fresh : ∀ known ∈ visited, known ∉ chains.flatten ∧ ¬ net.isUnzip known)
    (rest : List ProcessId) : net.Finds (id :: rest) visited (some reg.start) := by
  obtain ⟨chain, mem, onChain⟩ := mem_flatten.mp isMem
  obtain ⟨proc, key, got, -, isKey, branch⟩ := bundle.exists_branch mem
  have unzips := bundle.isUnzip_start
  have passes {other} (isOther : other ∈ chain) : ¬ net.isUnzip other :=
    not_isUnzip_of_isMapShaped (branch.shaped other isOther)
  -- Induction on what stands before the process on the branch: only what stands there must be
  -- unvisited.
  have back (front : List ProcessId) : ∀ (id : ProcessId) (behind visited : List ProcessId),
      chain = front ++ id :: behind →
      (∀ known ∈ visited, known ∉ front ++ [id] ∧ ¬ net.isUnzip known) →
      net.Finds (id :: rest) visited (some reg.start) := by
    induction front using List.reverseRecOn with
    | nil =>
      intro id behind visited split fresh
      have onChain : id ∈ chain := by simp [split]
      have starts : chain.head? = some id := by simp [split]
      have feeds := inv.feeds_of_remote got isKey (branch.enters.trans starts)
      have across := (branch.line.simple id onChain).across_eq (inv.mem_across_input.mpr feeds)
      refine .expand (fun known => (fresh id known).1 (by simp)) (passes onChain) ?_
      rw [across]
      refine .hit (fun known => ?_) unzips
      rcases mem_cons.mp known with rfl | pre
      · exact passes onChain unzips
      · exact (fresh _ pre).2 unzips
    | append_singleton front previous ih =>
      intro id behind visited split fresh
      have onChain : id ∈ chain := by simp [split]
      have feeds : net.Feeds previous id := by
        have chained : (previous :: id :: behind).IsChain net.Feeds :=
          branch.line.chained.suffix ⟨front, by simp [split]⟩
        exact (isChain_cons_cons.mp chained).1
      have across := (branch.line.simple id onChain).across_eq (inv.mem_across_input.mpr feeds)
      refine .expand (fun known => (fresh id known).1 (by simp)) (passes onChain) ?_
      rw [across]
      refine ih previous (id :: behind) (id :: visited) (by simp [split]) fun known isKnown => ?_
      rcases mem_cons.mp isKnown with rfl | pre
      · refine ⟨fun too => ?_, passes onChain⟩
        have once := branch.line.once
        rw [split] at once
        exact (nodup_append.mp once).2.2 known too known (by simp) rfl
      · grind
  obtain ⟨front, behind, split⟩ := append_of_mem onChain
  refine back front id behind visited split fun known isKnown => ?_
  obtain ⟨outside, isNone⟩ := fresh known isKnown
  refine ⟨fun too => outside (mem_flatten.mpr ⟨chain, mem, ?_⟩), isNone⟩
  rw [split]
  simp only [mem_append, mem_cons, not_mem_nil, or_false] at too ⊢
  exact too.imp_right .inl

/-- Processes between the ends of a region that lead to each other and out of the region at its
ends, and cannot be stayed in. -/
structure Funnel (net : Network) (region : Section) (inner : ProcessId → Prop) : Prop where
  start_outer : ¬ inner region.start
  stop_outer : ¬ inner region.stop
  leads : ∀ direction {id}, inner id →
    net.LeadsInto direction (fun other => inner other ∨ other = region.gate direction) id
  passes : ∀ direction {around : ProcessId → Prop} {id},
    (∀ id, inner id → around id → net.LeadsInto direction around id) →
    inner id → around id → around (region.gate direction)

theorem Legal.funnel (legal : net.Legal) (inv : net.Consistent) (start_outer : ¬ inner reg.start)
    (stop_outer : ¬ inner reg.stop) (instant : ∀ {id}, inner id → ¬ net.isDelay id)
    (leads : ∀ dir {id}, inner id →
      net.LeadsInto dir (fun other => inner other ∨ other = reg.gate dir) id) :
    net.Funnel reg inner := by
  refine ⟨start_outer, stop_outer, leads, fun dir around id closed isInner isAround => ?_⟩
  by_contra outside
  have onwards : ∀ a, inner a ∧ around a → ∃ b, (inner b ∧ around b) ∧ b ∈ net.across a dir := by
    rintro a ⟨isInner, isAround⟩
    obtain ⟨b, across, aroundB, inB⟩ := (closed a isInner isAround).exists_both (leads dir isInner)
    exact ⟨b, ⟨inB.resolve_right fun isGate => outside (isGate ▸ aroundB), aroundB⟩, across⟩
  have known : ∀ a, inner a ∧ around a → a ∈ net.ids := by
    rintro a ⟨isInner, -⟩
    obtain ⟨proc, got, -⟩ := leads dir isInner
    exact mem_ids.mpr ⟨proc, got⟩
  obtain ⟨loop, isLoop, inside⟩ :=
    Graph.exists_isLoop_of_forall_next known onwards ⟨isInner, isAround⟩
  obtain ⟨old, isOld, same⟩ : ∃ old, net.IsLoop old ∧ old ⊆ loop := by
    cases dir with
    | input =>
      refine Graph.IsLoop.exists_swap (isLoop.imp_of_mem fun a _ b _ across => ?_)
      exact inv.mem_across_input.mp across
    | output =>
      exact ⟨loop, isLoop.imp_of_mem fun a _ b _ across => inv.mem_across_output.mp across,
        List.Subset.refl _⟩
  obtain ⟨delay, onOld, delays⟩ := legal.delayed isOld
  exact instant (inside delay (same onOld)).1 delays

theorem Bundle.funnel (bundle : net.Bundle reg chains) (inv : net.Consistent) (legal : net.Legal) :
    net.Funnel reg (· ∈ chains.flatten) := by
  refine legal.funnel inv bundle.start_outer bundle.stop_outer (fun isMem => ?_)
    fun dir _ isMem => bundle.leadsInto inv isMem dir
  · obtain ⟨chain, mem, onChain⟩ := mem_flatten.mp isMem
    exact not_isDelay_of_isMapShaped (bundle.isMapShaped mem onChain)

theorem Funnel.not_emits (funnel : net.Funnel reg inner) (inv : net.Consistent) (legal : net.Legal)
    (isInner : inner id) : ¬ net.Emits id := by
  rintro ⟨key, isOut, port, has, rfl⟩
  have onBdry : net.isBoundary key := by simp [isBoundary, isOut]
  obtain ⟨proc, got, -, onwards⟩ := funnel.leads port.direction isInner
  obtain ⟨other, leads, -⟩ := onwards key (inv.mem_ports got has rfl)
  obtain ⟨same, far, -, hasSame, conn, -⟩ := remote_eq_some.mp leads
  obtain rfl := mem_unique has hasSame
  simp [legal.unconnected onBdry has] at conn

/-- A connection is the same in both networks and stays outside, or it leads inside in both of
them. -/
def Agrees (net next : Network) (inner later : ProcessId → Prop) (key : PortKey) : Prop :=
  (next.remote key = net.remote key ∧
    ∀ other, net.remote key = some other → ¬ inner other ∧ ¬ later other) ∨
  (∃ other, net.remote key = some other ∧ inner other) ∧
  ∃ other, next.remote key = some other ∧ later other

/-- Networks that differ in what lies between the ends of a region only. -/
structure Bridge (net next : Network) (region : Section) (inner later : ProcessId → Prop) :
    Prop where
  before : net.Funnel region inner
  after : next.Funnel region later
  process : ∀ {id}, ¬ inner id → ¬ later id → next.process? id = net.process? id
  ports : ∀ {id process key direction}, ¬ inner id → ¬ later id → net.process? id = some process →
    key ∈ process.ports direction → net.Agrees next inner later key

namespace Bridge

variable (bridge : net.Bridge next reg inner new)

include bridge

theorem symm : next.Bridge net reg new inner where
  before := bridge.after
  after := bridge.before
  process outer outerNext := (bridge.process outerNext outer).symm
  ports {id proc key dir} outer outerNext got mem := by
    rw [bridge.process outerNext outer] at got
    rcases bridge.ports outerNext outer got mem with ⟨same, outside⟩ | ⟨leads, leadsNext⟩
    · exact .inl ⟨same.symm, fun other leads => (outside other (same ▸ leads)).symm⟩
    · exact .inr ⟨leadsNext, leads⟩

theorem isUnzip_eq (outer : ¬ inner id) (outerNext : ¬ new id) :
    next.isUnzip id = net.isUnzip id := by
  rw [isUnzip, isUnzip, bridge.process outer outerNext]

theorem isZip_eq (outer : ¬ inner id) (outerNext : ¬ new id) : next.isZip id = net.isZip id := by
  rw [isZip, isZip, bridge.process outer outerNext]

theorem gate_outer (dir : Direction) : ¬ inner (reg.gate dir) ∧ ¬ new (reg.gate dir) := by
  cases dir with
  | input => exact ⟨bridge.before.start_outer, bridge.after.start_outer⟩
  | output => exact ⟨bridge.before.stop_outer, bridge.after.stop_outer⟩

theorem closed {around : ProcessId → Prop} (outer : ¬ inner dst)
    (closed : net.Closed dir dst around) :
    next.Closed dir dst fun id =>
      (¬ inner id ∧ ¬ new id ∧ around id) ∨ (new id ∧ around (reg.gate dir)) := by
  rintro id (⟨outside, outsideNext, isAround⟩ | ⟨isNew, gateAround⟩) elsewhere
  · obtain ⟨proc, got, ports, onwards⟩ := closed id isAround elsewhere
    refine ⟨proc, (bridge.process outside outsideNext).trans got, ports, fun key mem => ?_⟩
    obtain ⟨other, leads, otherAround⟩ := onwards key mem
    rcases bridge.ports outside outsideNext got mem
      with ⟨same, outer⟩ | ⟨⟨into, leadsIn, isInner⟩, intoNext, leadsNext, isNew⟩
    · grind
    · obtain rfl := mem_unique leads leadsIn
      refine ⟨intoNext, leadsNext,
        .inr ⟨isNew, bridge.before.passes dir (fun id isInner isAround => ?_) isInner otherAround⟩⟩
      exact closed id isAround fun here => outer (here ▸ isInner)
  · refine (bridge.after.leads dir isNew).mono fun other leads => ?_
    rcases leads with isNew | rfl
    · exact .inr ⟨isNew, gateAround⟩
    · obtain ⟨outerGate, outerGateNext⟩ := bridge.gate_outer dir
      exact .inl ⟨outerGate, outerGateNext, gateAround⟩

theorem confined (outer : ¬ inner id) (outerNext : ¬ new id) (outerDst : ¬ inner dst)
    (confined : net.Confined id dst dir) : next.Confined id dst dir := by
  obtain ⟨around, closed, isAround⟩ := confined
  exact ⟨_, bridge.closed outerDst closed, .inl ⟨outer, outerNext, isAround⟩⟩

theorem keeps : net.Keeps next fun id => ¬ inner id ∧ ¬ new id where
  process outer got := (bridge.process outer.1 outer.2).trans got
  remote {id proc key dst} outer got mem leads outerDst := by
    rcases bridge.ports outer.1 outer.2 got (show key ∈ proc.ports .output from mem) with
      ⟨same, -⟩ | ⟨⟨other, leadsIn, isInner⟩, -⟩
    · exact same.trans leads
    · grind

theorem contained_iff (outerStart : ¬ inner other.start) (outerStartNext : ¬ new other.start)
    (outerStop : ¬ inner other.stop) (outerStopNext : ¬ new other.stop) :
    net.Contained other ↔ next.Contained other :=
  ⟨fun ⟨onwards, backwards⟩ => ⟨bridge.confined outerStart outerStartNext outerStop onwards,
      bridge.confined outerStop outerStopNext outerStart backwards⟩,
    fun ⟨onwards, backwards⟩ =>
      ⟨bridge.symm.confined outerStartNext outerStart outerStopNext onwards,
        bridge.symm.confined outerStopNext outerStop outerStartNext backwards⟩⟩

end Bridge

/-- The branches of a bundle were replaced by processes, the last of which are the branches of a
bundle with the same stop. -/
structure Reworked (net next : Network) (region : Section) (chains : List (List ProcessId))
    (later : ProcessId → Prop) (origin : ProcessId) (tails : List (List ProcessId)) : Prop where
  ready : net.Ready
  readyNext : next.Ready
  before : net.Bundle region chains
  after : next.Bundle ⟨origin, region.stop⟩ tails
  bridge : net.Bridge next region (· ∈ chains.flatten) later
  inside : ∀ {id}, id ∈ tails.flatten → later id
  origin : origin = region.start ∨ later origin
  fresh : ∀ {id process}, later id → net.process? id = some process → id ∈ chains.flatten
  gone : ∀ {id process}, id ∈ chains.flatten → next.process? id = some process → later id
  enters : ∀ {id process key source}, id ∉ chains.flatten → ¬ later id →
    net.process? id = some process → key ∈ process.inPorts → net.remote key = some source →
    source ∈ chains.flatten → ∃ other ∈ tails.flatten, next.remote key = some other
  emits : ∀ {id}, next.Emits id → net.Emits id ∧ id ∉ chains.flatten ∧ ¬ later id

namespace Reworked

variable {origin : ProcessId} {tails : List (List ProcessId)}

/-- Where the search goes on in the new network instead of in the old one. -/
def shift (region : Section) (origin id : ProcessId) : ProcessId :=
  if id = region.start then origin else id

/-- Processes at which searches in both networks stand at the same time. -/
def Meets (region : Section) (chains : List (List ProcessId)) (later : ProcessId → Prop)
    (origin : ProcessId) (tails : List (List ProcessId)) (id other : ProcessId) : Prop :=
  id = other ∧ id ∉ chains.flatten ∧ ¬ later id ∧ (id = region.start → origin = region.start) ∨
  id ∈ chains.flatten ∧ other ∈ tails.flatten

section

variable (rework : net.Reworked next reg chains new origin tails)

include rework

theorem forall₂_across (outer : id ∉ chains.flatten) (outerNext : ¬ new id) :
    List.Forall₂ (Meets reg chains new origin tails) (net.across id .input)
      (next.across id .input) := by
  cases got : net.process? id with
  | none => simp [across, got, rework.bridge.process outer outerNext]
  | some proc =>
    simp only [across, rework.bridge.process outer outerNext, got, elim_some]
    -- The ports are looked at one by one.
    have walk (keys : List PortKey) (known : keys ⊆ proc.inPorts) :
        List.Forall₂ (Meets reg chains new origin tails) (keys.filterMap net.remote)
        (keys.filterMap next.remote) := by
      induction keys with
      | nil => exact .nil
      | cons key keys ih =>
        have isKey := known mem_cons_self
        have onwards := ih fun other mem => known (mem_cons_of_mem _ mem)
        rcases rework.bridge.ports outer outerNext got (show key ∈ proc.ports .input from isKey)
            with
          ⟨same, outside⟩ | ⟨⟨src, leads, isInner⟩, -⟩
        · cases leads : net.remote key with
          | none => simpa [leads, same] using onwards
          | some src =>
            obtain ⟨outerSrc, outerSrcNext⟩ := outside src leads
            simp only [filterMap_cons, same, leads]
            refine .cons (.inl ⟨rfl, outerSrc, outerSrcNext, ?_⟩) onwards
            rintro rfl
            have inv := rework.ready.inv
            exact absurd
              (rework.before.target_mem inv ((inv.feeds_iff_in got).mpr ⟨key, isKey, leads⟩)) outer
        · obtain ⟨other, isTail, leadsNext⟩ := rework.enters outer outerNext got isKey leads isInner
          simp only [filterMap_cons, leads, leadsNext]
          exact .cons (.inr ⟨isInner, isTail⟩) onwards
    exact walk proc.inPorts (List.Subset.refl _)

/-- Searches in both networks find what belongs together. -/
theorem finds {workNext : List ProcessId} {ans : Option ProcessId}
    (finds : net.Finds work visited ans)
    (meets : List.Forall₂ (Meets reg chains new origin tails) work workNext)
    (fresh : ∀ known ∈ visited, (known ∉ chains.flatten ∧ ¬ new known) ∧ ¬ net.isUnzip known) :
    next.Finds workNext visited (ans.map (shift reg origin)) := by
  induction finds generalizing workNext with
  | none =>
    cases meets
    exact .none
  | @skip id rest visited ans known onwards ih =>
    obtain ⟨other, restNext, meet, meetRest, rfl⟩ := forall₂_cons_left_iff.mp meets
    rcases meet with ⟨rfl, -⟩ | ⟨isInner, -⟩
    · exact .skip known (ih meetRest fresh)
    · exact absurd isInner (fresh id known).1.1
  | @hit id rest visited unvisited unzips =>
    obtain ⟨other, restNext, meet, meetRest, rfl⟩ := forall₂_cons_left_iff.mp meets
    rcases meet with ⟨rfl, outer, outerNext, elsewhere⟩ | ⟨isInner, -⟩
    · have stays : shift reg origin id = id := by
        unfold shift
        split
        · grind
        · rfl
      rw [map_some, stays]
      exact .hit unvisited ((rework.bridge.isUnzip_eq outer outerNext).trans unzips)
    · obtain ⟨chain, mem, onChain⟩ := mem_flatten.mp isInner
      exact absurd unzips (not_isUnzip_of_isMapShaped (rework.before.isMapShaped mem onChain))
  | @expand id rest visited ans unvisited passes onwards ih =>
    obtain ⟨other, restNext, meet, meetRest, rfl⟩ := forall₂_cons_left_iff.mp meets
    rcases meet with ⟨rfl, outer, outerNext, -⟩ | ⟨isInner, isTail⟩
    · have sameKind := rework.bridge.isUnzip_eq outer outerNext
      refine .expand unvisited (by rwa [sameKind])
        (ih (rel_append (rework.forall₂_across outer outerNext) meetRest) ?_)
      exact forall_mem_cons.mpr ⟨⟨⟨outer, outerNext⟩, passes⟩, fresh⟩
    · have has := rework.before.finds rework.ready.inv isInner
        (fun known isKnown => ⟨(fresh known isKnown).1.1, (fresh known isKnown).2⟩) rest
      obtain rfl := (Finds.expand unvisited passes onwards).unique has
      rw [map_some, shift, if_pos rfl]
      refine rework.after.finds rework.readyNext.inv isTail
        (fun known isKnown => ?_) restNext
      obtain ⟨⟨outer, outerNext⟩, isNone⟩ := fresh known isKnown
      exact ⟨fun isTail => outerNext (rework.inside isTail),
        by rwa [rework.bridge.isUnzip_eq outer outerNext]⟩

theorem confined_output_iff (isNew : new origin) (outer : dst ∉ chains.flatten)
    (outerNext : ¬ new dst) (elsewhere : dst ≠ reg.start) :
    net.Confined reg.start dst .output ↔ next.Confined origin dst .output := by
  have fans := rework.before.leadsInto_start rework.ready.legal
  constructor
  · rintro ⟨around, closed, isAround⟩
    obtain ⟨id, -, idAround, isInner⟩ := (closed _ isAround elsewhere.symm).exists_both fans
    have stopAround : around reg.stop := rework.bridge.before.passes .output
      (fun id isInner isAround => closed id isAround fun here => outer (here ▸ isInner))
        isInner idAround
    exact ⟨_, rework.bridge.closed outer closed, .inr ⟨isNew, stopAround⟩⟩
  · rintro ⟨around, closed, isAround⟩
    have stopAround : around reg.stop := rework.bridge.after.passes .output
      (fun id isNew isAround => closed id isAround fun here => outerNext (here ▸ isNew))
        isNew isAround
    have onwards := rework.bridge.symm.closed outerNext closed
    refine ⟨fun id => id = reg.start ∨ ((¬ new id ∧ id ∉ chains.flatten ∧ around id) ∨
      (id ∈ chains.flatten ∧ around reg.stop)), fun id isInside notDst => ?_, .inl rfl⟩
    rcases isInside with rfl | isInside
    · exact fans.mono fun other isInner => .inr (.inr ⟨isInner, stopAround⟩)
    · exact (onwards id isInside notDst).mono fun other => .inr

theorem confined_input_iff (isNew : new origin) (outer : id ∉ chains.flatten) (outerNext : ¬ new id)
    (elsewhere : id ≠ reg.start) :
    net.Confined id reg.start .input ↔ next.Confined id origin .input := by
  constructor
  · rintro ⟨around, closed, isAround⟩
    -- Going back one comes to the tails, and from these to the origin.
    refine ⟨fun id => (id ∉ chains.flatten ∧ ¬ new id ∧ around id ∧ id ≠ reg.start) ∨
      id ∈ tails.flatten ∨ id = origin, ?_, .inl ⟨outer, outerNext, isAround, elsewhere⟩⟩
    rintro id (⟨outside, outsideNext, idAround, notStart⟩ | isTail | rfl) notOrigin
    · obtain ⟨proc, got, ports, onwards⟩ := closed id idAround notStart
      refine ⟨proc, (rework.bridge.process outside outsideNext).trans got, ports, fun key mem => ?_⟩
      obtain ⟨src, leads, srcAround⟩ := onwards key mem
      rcases rework.bridge.ports outside outsideNext got mem
        with ⟨same, outer⟩ | ⟨⟨into, leadsIn, isInner⟩, -⟩
      · obtain ⟨outerSrc, outerSrcNext⟩ := outer src leads
        refine ⟨src, same.trans leads, .inl ⟨outerSrc, outerSrcNext, srcAround, ?_⟩⟩
        rintro rfl
        have inv := rework.ready.inv
        exact outside (rework.before.target_mem inv ((inv.feeds_iff_in got).mpr ⟨key, mem, leads⟩))
      · obtain ⟨other, isTail, leadsNext⟩ :=
          rework.enters outside outsideNext got mem leadsIn isInner
        exact ⟨other, leadsNext, .inr (.inl isTail)⟩
    · exact (rework.after.leadsInto rework.readyNext.inv isTail .input).mono
        fun other => .inr
    · exact absurd rfl notOrigin
  · rintro ⟨around, closed, isAround⟩
    refine ⟨fun id => (id ∉ chains.flatten ∧ ¬ new id ∧ around id) ∨ id ∈ chains.flatten ∨
      id = reg.start, ?_, .inl ⟨outer, outerNext, isAround⟩⟩
    rintro id (⟨outside, outsideNext, idAround⟩ | isInner | rfl) notStart
    · obtain ⟨proc, got, ports, onwards⟩ :=
        closed id idAround fun same => outsideNext (same ▸ isNew)
      rw [rework.bridge.process outside outsideNext] at got
      refine ⟨proc, got, ports, fun key mem => ?_⟩
      obtain ⟨src, leads, srcAround⟩ := onwards key mem
      rcases rework.bridge.ports outside outsideNext got mem
        with ⟨same, outer⟩ | ⟨⟨into, leadsIn, isInner⟩, -⟩
      · grind
      · exact ⟨into, leadsIn, .inr (.inl isInner)⟩
    · exact (rework.before.leadsInto rework.ready.inv isInner .input).mono fun other => .inr
    · exact absurd rfl notStart

theorem contained_iff (outerStart : start ∉ chains.flatten) (outerStartNext : ¬ new start)
    (outer : stop ∉ chains.flatten) (outerNext : ¬ new stop) (elsewhere : stop ≠ reg.start) :
    net.Contained ⟨start, stop⟩ ↔ next.Contained ⟨shift reg origin start, stop⟩ := by
  have stays : net.Contained ⟨start, stop⟩ ↔ next.Contained ⟨start, stop⟩ :=
    rework.bridge.contained_iff outerStart outerStartNext outer outerNext
  by_cases here : start = reg.start
  · subst here
    rw [shift, if_pos rfl]
    rcases rework.origin with same | isNew
    · rwa [same]
    · exact and_congr (rework.confined_output_iff isNew outer outerNext elsewhere)
        (rework.confined_input_iff isNew outer outerNext elsewhere)
  · rwa [shift, if_neg here]

theorem outer_of_isUnzip (unzips : net.isUnzip id) : id ∉ chains.flatten ∧ ¬ new id := by
  have outer : id ∉ chains.flatten := fun isInner => by
    obtain ⟨chain, mem, onChain⟩ := mem_flatten.mp isInner
    exact not_isUnzip_of_isMapShaped (rework.before.isMapShaped mem onChain) unzips
  obtain ⟨proc, got, -⟩ := (any_eq_true _ _).mp unzips
  exact ⟨outer, fun isNew => outer (rework.fresh isNew got)⟩

theorem reports_iff (outer : stop ∉ chains.flatten) (outerNext : ¬ new stop) :
    next.Reports ⟨start, stop⟩ ↔ ∃ old, net.Reports ⟨old, stop⟩ ∧ start = shift reg origin old := by
  have sameKind := rework.bridge.isZip_eq outer outerNext
  have elsewhere (zips : net.isZip stop) : stop ≠ reg.start := fun same =>
    not_isZip_of_isUnzip (same ▸ rework.before.isUnzip_start) zips
  -- Searches that start at the stop find what belongs together.
  have transfer {ans} (zips : net.isZip stop) (finds : net.Finds [stop] [] ans) :
      next.Finds [stop] [] (ans.map (shift reg origin)) :=
    rework.finds finds
      (.cons (.inl ⟨rfl, outer, outerNext, fun here => absurd here (elsewhere zips)⟩) .nil)
      (by simp)
  constructor
  · rintro ⟨zipsNext, findsNext, contained⟩
    have zips : net.isZip stop := sameKind ▸ zipsNext
    obtain ⟨proc, got, -⟩ := (any_eq_true _ _).mp zips
    obtain ⟨ans, -, finds⟩ := rework.ready.inv.nearestUnzip?_eq (mem_ids.mpr ⟨proc, got⟩)
    have same := (transfer zips finds).unique findsNext
    obtain ⟨old, rfl, rfl⟩ := map_eq_some_iff.mp same
    obtain ⟨outerOld, outerOldNext⟩ := rework.outer_of_isUnzip finds.isUnzip
    refine ⟨old, ⟨zips, finds, ?_⟩, rfl⟩
    exact (rework.contained_iff outerOld outerOldNext outer outerNext (elsewhere zips)).mpr
      contained
  · rintro ⟨old, ⟨zips, finds, contained⟩, rfl⟩
    obtain ⟨outerOld, outerOldNext⟩ := rework.outer_of_isUnzip finds.isUnzip
    refine ⟨sameKind.trans zips, transfer zips finds, ?_⟩
    exact (rework.contained_iff outerOld outerOldNext outer outerNext (elsewhere zips)).mp contained

theorem later_or_start_of_finds {has : ProcessId} (finds : next.Finds work visited (some has))
    (inside : ∀ id ∈ work, new id ∨ id = reg.start) : new has ∨ has = reg.start := by
  generalize isHas : some has = ans at finds
  induction finds with
  | none => cases isHas
  | skip _ _ ih => exact ih (fun id mem => inside id (mem_cons_of_mem _ mem)) isHas
  | hit =>
    cases isHas
    exact inside _ mem_cons_self
  | @expand id rest visited ans unvisited passes onwards ih =>
    refine ih (fun other mem => ?_) isHas
    rcases mem_append.mp mem with across | isRest
    · rcases inside id mem_cons_self with isNew | rfl
      · exact (rework.bridge.after.leads .input isNew).of_mem_across across
      · refine absurd ?_ passes
        exact (rework.bridge.isUnzip_eq rework.bridge.before.start_outer
          rework.bridge.after.start_outer).trans
          rework.before.isUnzip_start
    · exact inside other (mem_cons_of_mem _ isRest)

theorem reached (reports : net.Reports reg) {out : ProcessId} (emits : next.Emits out)
    (reaches : Relation.ReflTransGen next.Upstream out id) :
    (¬ new id →
      id ∉ chains.flatten ∧ ∃ out, net.Emits out ∧ Relation.ReflTransGen net.Upstream out id) ∧
    (new id → ∃ out, net.Emits out ∧ Relation.ReflTransGen net.Upstream out reg.start) := by
  have startOuter := rework.bridge.gate_outer .input
  induction reaches with
  | refl =>
    obtain ⟨emitsPre, outer, outerNext⟩ := rework.emits emits
    exact ⟨fun _ => ⟨outer, out, emitsPre, .refl⟩, fun isNew => absurd isNew outerNext⟩
  | @tail id src _ upstream ih =>
    by_cases isNew : new id
    · -- Inside the search comes to the start at last.
      obtain ⟨out, emitsPre, toStart⟩ := ih.2 isNew
      have inside : new src ∨ src = reg.start := by
        rcases upstream with ⟨other, othersReport, rfl, rfl⟩ | ⟨-, feeds⟩
        · exact rework.later_or_start_of_finds othersReport.2.1 (by simpa using .inl isNew)
        · exact (rework.bridge.after.leads .input isNew).of_mem_across
            (rework.readyNext.inv.mem_across_input.mpr feeds)
      rcases inside with isNew | rfl
      · grind
      · exact ⟨fun _ => ⟨startOuter.1, out, emitsPre, toStart⟩, fun _ => ⟨out, emitsPre, toStart⟩⟩
    · obtain ⟨outer, out, emitsPre, toHere⟩ := ih.1 isNew
      rcases upstream with ⟨other, othersReport, rfl, rfl⟩ | ⟨nowhere, feeds⟩
      · obtain ⟨old, reportsOld, isShift⟩ := (rework.reports_iff outer isNew).mp othersReport
        have toOld := toHere.tail (.inl ⟨_, reportsOld, rfl, rfl⟩)
        obtain ⟨outerOld, outerOldNext⟩ := rework.outer_of_isUnzip reportsOld.isUnzip_start
        rw [isShift, shift]
        split
        · rename_i here
          rw [here] at toOld
          refine ⟨fun notNew => ?_, fun _ => ⟨out, emitsPre, toOld⟩⟩
          rw [rework.origin.resolve_right notNew]
          exact ⟨startOuter.1, out, emitsPre, toOld⟩
        · grind
      · have nowherePre : ∀ other, net.Reports other → other.stop ≠ id := by
          rintro ⟨old, stop⟩ reportsOld rfl
          exact nowhere _ ((rework.reports_iff outer isNew).mpr ⟨old, reportsOld, rfl⟩) rfl
        obtain ⟨proc, gotNext⟩ := rework.readyNext.inv.exists_target feeds
        have got := gotNext
        rw [rework.bridge.process outer isNew] at got
        obtain ⟨key, isKey, leads⟩ := (rework.readyNext.inv.feeds_iff_in gotNext).mp feeds
        have feedsPre {old} (leads : net.remote key = some old) : net.Feeds old id :=
          (rework.ready.inv.feeds_iff_in got).mpr ⟨key, isKey, leads⟩
        rcases rework.bridge.ports outer isNew got (show key ∈ proc.ports .input from isKey) with
          ⟨same, outside⟩ | ⟨⟨old, leadsIn, isInner⟩, -⟩
        · rw [same] at leads
          obtain ⟨outerSrc, outerSrcNext⟩ := outside src leads
          refine ⟨fun _ =>
            ⟨outerSrc, out, emitsPre, toHere.tail (.inr ⟨nowherePre, feedsPre leads⟩)⟩, ?_⟩
          exact fun inside => absurd inside outerSrcNext
        · rcases (rework.bridge.before.leads .output isInner).of_mem_across
            (rework.ready.inv.mem_across_output.mpr (feedsPre leadsIn)) with too | rfl
          · exact absurd too outer
          · exact absurd rfl (nowherePre reg reports)

/-- A section outside that is reported in the new network was reported in the old one. -/
theorem reported (reports : net.Reports reg) (outerStart : ¬ new other.start)
    (outer : other.stop ∉ chains.flatten) (outerNext : ¬ new other.stop)
    (reported : next.Reported other) : net.Reported other := by
  obtain ⟨othersReport, out, emits, reaches⟩ := reported
  obtain ⟨old, reportsOld, isShift⟩ := (rework.reports_iff outer outerNext).mp othersReport
  have same : other.start = old := by
    rw [isShift, shift]
    split
    · rename_i here
      rcases rework.origin with isStart | isNew
      · rw [isStart, here]
      · rw [isShift, shift, if_pos here] at outerStart
        exact absurd isNew outerStart
    · rfl
  obtain ⟨start, stop⟩ := other
  obtain rfl : start = old := same
  exact ⟨reportsOld, ((rework.reached reports emits reaches).1 outerNext).2⟩

theorem reports_origin (reports : net.Reports reg) : next.Reports ⟨origin, reg.stop⟩ :=
  (rework.reports_iff rework.bridge.before.stop_outer rework.bridge.after.stop_outer).mpr
    ⟨reg.start, reports, by rw [shift, if_pos rfl]⟩

theorem reports_other (elsewhere : other.start ≠ reg.start) (outer : other.stop ∉ chains.flatten)
    (outerNext : ¬ new other.stop) (reports : net.Reports other) : next.Reports other :=
  (rework.reports_iff outer outerNext).mpr ⟨other.start, reports, by rw [shift, if_neg elsewhere]⟩

end

end Reworked

end Network

end Dataflow
