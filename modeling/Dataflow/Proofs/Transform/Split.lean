import Dataflow.Proofs.Transform.Coalesce
import Dataflow.Proofs.Transform.Cut

/-! Splitting data-parallel sections: between two positions of their branches lies a zip and an
unzip. -/

open List Option

namespace Dataflow

namespace Network

variable {net next last : Network} {id : ProcessId} {key src dst : PortKey} {cut : Cut}
  {cuts group : List Cut}
  {reg : Section} {chains : List (List ProcessId)} {lanes : List (PortKey × PortKey)}
  {proc : Process}
  {chain : List ProcessId} {lane : PortKey × PortKey} {len : Nat} {groups : List (List Cut)}

/-- What is left when connections lead through several cuts, each of them through one index of one
cut. -/
structure Split (net : Network) (cuts : List Cut) (next : Network) : Prop where
  evolves : net.Evolves next
  once : (cuts.flatMap fun cut => [cut.zip, cut.unzip]).Nodup
  unused : ∀ cut ∈ cuts, ¬ net.names.taken.contains cut.zip ∧ ¬ net.names.taken.contains cut.unzip
  zipped : ∀ cut ∈ cuts, next.process? cut.zip = some cut.zipper
  unzipped : ∀ cut ∈ cuts, next.process? cut.unzip = some cut.unzipper
  processes : ∀ {id}, (∀ cut ∈ cuts, id ≠ cut.zip ∧ id ≠ cut.unzip) →
    next.process? id = net.process? id
  base : ∀ cut ∈ cuts, net.ports.nextKey ≤ cut.base
  declared : ∀ {key}, key < net.ports.nextKey →
    (next.port? key).map Port.unlinked = (net.port? key).map Port.unlinked
  lanes : ∀ cut ∈ cuts, ∀ lane ∈ cut.lanes, net.Connects lane.1 lane.2
  connects : ∀ {source target}, next.Connects source target ↔
    net.Connects source target ∧ (∀ cut ∈ cuts, (source, target) ∉ cut.lanes) ∨
    ∃ cut ∈ cuts, source = cut.base ∧ target = cut.base + 1 ∨
      ∃ branch lane, cut.lanes[branch]? = some lane ∧
        (source = lane.1 ∧ target = cut.inAt branch ∨ source = cut.outAt branch ∧ target = lane.2)
  inputs : next.inputs = net.inputs
  outputs : next.outputs = net.outputs

namespace Split

/-- Without cuts nothing changes. -/
theorem refl (inv : net.Consistent) : net.Split [] net where
  evolves := .refl inv
  once := by simp
  unused := by simp
  zipped := by simp
  unzipped := by simp
  processes _ := rfl
  base := by simp
  declared _ := rfl
  lanes := by simp
  connects := by simp
  inputs := rfl
  outputs := rfl

section

variable (split : net.Split cuts next)

include split

theorem ne_of_stored (inv : net.Consistent) (got : net.process? id = some proc) :
    ∀ cut ∈ cuts, id ≠ cut.zip ∧ id ≠ cut.unzip := by
  intro cut mem
  obtain ⟨unusedZip, unusedUnzip⟩ := split.unused cut mem
  have taken := inv.taken got
  exact ⟨fun same => unusedZip (same ▸ taken), fun same => unusedUnzip (same ▸ taken)⟩

theorem process_of (inv : net.Consistent) (got : net.process? id = some proc) :
    next.process? id = some proc := by
  rw [split.processes (split.ne_of_stored inv got), got]

theorem connects_of (connects : net.Connects src dst)
    (uncut : ∀ cut ∈ cuts, (src, dst) ∉ cut.lanes) : next.Connects src dst :=
  split.connects.mpr (.inl ⟨connects, uncut⟩)

theorem push (inv : net.Consistent) (later : next.Cuts cut last)
    (old : ∀ lane ∈ cut.lanes, net.Connects lane.1 lane.2) : net.Split (cuts ++ [cut]) last := by
  have grows := split.evolves.grows
  have base := later.base
  have apart : ∀ earlier ∈ cuts, (earlier.zip ≠ cut.zip ∧ earlier.zip ≠ cut.unzip) ∧
      earlier.unzip ≠ cut.zip ∧ earlier.unzip ≠ cut.unzip := fun earlier mem =>
    ⟨later.ne_of_stored split.evolves.inv (split.zipped earlier mem),
      later.ne_of_stored split.evolves.inv (split.unzipped earlier mem)⟩
  have newName {name} (unused : ¬ next.names.taken.contains name) :
      ¬ net.names.taken.contains name :=
    fun taken => unused (split.evolves.keepsTaken taken)
  refine ⟨split.evolves.trans later.evolves, ?once, ?unused, ?zipped, ?unzipped, ?processes, ?base,
    ?declared, ?lanes, ?connects, later.inputs.trans split.inputs,
    later.outputs.trans split.outputs⟩
  case once =>
    rw [flatMap_append, nodup_append]
    refine ⟨split.once, by simp [later.apart], ?_⟩
    rintro name mem other memToo rfl
    obtain ⟨earlier, isEarlier, isName⟩ := mem_flatMap.mp mem
    simp only [flatMap_cons, flatMap_nil, append_nil, mem_cons, not_mem_nil, or_false]
      at isName memToo
    rcases isName with rfl | rfl <;> rcases memToo with same | same <;> simp_all
  case unused =>
    intro other mem
    rcases mem_append.mp mem with earlier | isLast
    · exact split.unused other earlier
    · obtain rfl := mem_singleton.mp isLast
      exact ⟨newName later.unusedZip, newName later.unusedUnzip⟩
  case zipped =>
    intro other mem
    rcases mem_append.mp mem with earlier | isLast
    · exact later.process_of split.evolves.inv (split.zipped other earlier)
    · obtain rfl := mem_singleton.mp isLast
      exact later.zipped
  case unzipped =>
    intro other mem
    rcases mem_append.mp mem with earlier | isLast
    · exact later.process_of split.evolves.inv (split.unzipped other earlier)
    · obtain rfl := mem_singleton.mp isLast
      exact later.unzipped
  case processes =>
    intro id elsewhere
    obtain ⟨notZip, notUnzip⟩ := elsewhere cut (by simp)
    rw [later.processes notZip notUnzip]
    exact split.processes fun other mem => elsewhere other (mem_append_left _ mem)
  case base =>
    intro other mem
    rcases mem_append.mp mem with earlier | isLast
    · exact split.base other earlier
    · grind
  case declared =>
    intro key isOld
    rw [later.declared (Nat.lt_of_lt_of_le isOld grows), split.declared isOld]
  case lanes =>
    intro other mem
    rcases mem_append.mp mem with earlier | isLast
    · exact split.lanes other earlier
    · grind
  case connects =>
    intro src dst
    rw [later.connects, split.connects]
    -- The connections of earlier cuts have a new end, so none of them is cut again.
    have uncut {earlier} (isEarlier : earlier ∈ cuts)
        (inside : src = earlier.base ∧ dst = earlier.base + 1 ∨
          ∃ branch lane, earlier.lanes[branch]? = some lane ∧
            (src = lane.1 ∧ dst = earlier.inAt branch ∨ src = earlier.outAt branch ∧
            dst = lane.2)) :
        (src, dst) ∉ cut.lanes := fun mem => by
      obtain ⟨oldSrc, oldDst⟩ := (old _ mem).lt_nextKey inv.linked
      have new := split.base earlier isEarlier
      rcases inside with ⟨rfl, rfl⟩ | ⟨branch, lane, -, ⟨-, rfl⟩ | ⟨rfl, -⟩⟩
      · exact Nat.not_lt_of_le new oldSrc
      · exact Nat.not_lt_of_le
          (show net.ports.nextKey ≤ earlier.base + 2 + 2 * branch by lia) oldDst
      · exact Nat.not_lt_of_le
          (show net.ports.nextKey ≤ earlier.base + 3 + 2 * branch by lia) oldSrc
    constructor
    · rintro (⟨⟨kept, pre⟩ | ⟨earlier, isEarlier, inside⟩, here⟩ | inside)
      · refine .inl ⟨kept, fun other mem => ?_⟩
        rcases mem_append.mp mem with isEarlier | isLast
        · exact pre other isEarlier
        · obtain rfl := mem_singleton.mp isLast
          exact here
      · exact .inr ⟨earlier, mem_append_left _ isEarlier, inside⟩
      · exact .inr ⟨cut, by simp, inside⟩
    · rintro (⟨kept, pre⟩ | ⟨other, mem, inside⟩)
      · exact .inl
          ⟨.inl ⟨kept, fun other mem => pre other (mem_append_left _ mem)⟩, pre cut (by simp)⟩
      · rcases mem_append.mp mem with isEarlier | isLast
        · exact .inl ⟨.inr ⟨other, isEarlier, inside⟩, uncut isEarlier inside⟩
        · obtain rfl := mem_singleton.mp isLast
          exact .inr inside

end

end Split

/-- Networks that come from each other by one cut after the other. -/
inductive Cutting (net : Network) : List Cut → Network → Prop
  | nil : Cutting net [] net
  | snoc {cuts : List Cut} {cut : Cut} {next last : Network} (earlier : Cutting net cuts next)
    (later : next.Cuts cut last) : Cutting net (cuts ++ [cut]) last

theorem Cutting.split (cutting : net.Cutting cuts next) (inv : net.Consistent)
    (old : ∀ cut ∈ cuts, ∀ lane ∈ cut.lanes, net.Connects lane.1 lane.2) : net.Split cuts next := by
  induction cutting with
  | nil => exact .refl inv
  | snoc earlier new ih =>
    refine (ih fun cut mem => old cut (mem_append_left _ mem)).push inv new ?_
    exact old _ (by simp)

/-- The only in-port of a process. -/
def Enters (net : Network) (id : ProcessId) (key : PortKey) : Prop :=
  ∃ process, net.process? id = some process ∧ process.inPorts = [key]

/-- The connections from the processes at one position of branches to those at the next one, branch
by branch. -/
def Stage (net : Network) (chains : List (List ProcessId)) (position : Nat)
    (lanes : List (PortKey × PortKey)) : Prop :=
  List.Forall₂
    (fun chain lane => ∃ id after, chain[position]? = some id ∧ chain[position + 1]? = some after ∧
      net.Exits id lane ∧ net.Enters after lane.2) chains lanes

theorem Line.exists_exits (line : net.Line chain) (inv : net.Consistent) {pos : Nat}
    (bound : pos + 1 < chain.length) :
    ∃ id after lane, chain[pos]? = some id ∧ chain[pos + 1]? = some after ∧ net.Exits id lane ∧
      net.Enters after lane.2 := by
  have feeds := isChain_iff_getElem.mp line.chained pos bound
  obtain ⟨proc, entry, exit, got, -, outs⟩ := line.simple chain[pos] (getElem_mem _)
  obtain ⟨follower, entryToo, exitToo, gotToo, ins, -⟩ := line.simple chain[pos + 1] (getElem_mem _)
  obtain ⟨key, port, other, peer, has, leaves, conn, hasPeer, owned, ownedPeer⟩ := feeds
  obtain rfl := inv.eq_of_outPorts got outs has owned leaves
  obtain rfl := inv.eq_of_inPorts gotToo ins hasPeer ownedPeer
    (inv.linked.crosses has conn hasPeer leaves)
  exact ⟨_, _, (key, other), getElem?_eq_getElem _, getElem?_eq_getElem _,
    ⟨proc, got, outs, port, has, leaves, conn⟩, follower, gotToo, ins⟩

theorem Bundle.exists_stage (bundle : net.Bundle reg chains) (inv : net.Consistent) {pos : Nat}
    (bound : ∀ chain ∈ chains, pos + 1 < chain.length) : ∃ lanes, net.Stage chains pos lanes := by
  refine exists_forall₂ fun chain mem => ?_
  obtain ⟨proc, key, -, -, -, branch⟩ := bundle.exists_branch mem
  obtain ⟨id, after, lane, atPos, behind, exits, enters⟩ :=
    branch.line.exists_exits inv (bound chain mem)
  exact ⟨lane, id, after, atPos, behind, exits, enters⟩

namespace Stage

variable {pos : Nat}

section

variable (stage : net.Stage chains pos lanes)

include stage

theorem exits :
    List.Forall₂ net.Exits (chains.filterMap (·[pos]?)) lanes := by
  induction stage with
  | nil => exact .nil
  | cons first _ ih =>
    obtain ⟨id, after, atPos, -, exits, -⟩ := first
    rw [filterMap_cons, atPos]
    exact .cons exits ih

theorem connects : ∀ lane ∈ lanes, net.Connects lane.1 lane.2 := by
  intro lane mem
  obtain ⟨chain, -, id, after, -, -, ⟨proc, got, ports, connects⟩, -⟩ := exists_of_forall₂ stage mem
  exact connects

theorem exists_owner (inv : net.Consistent) (mem : lane ∈ lanes) :
    ∃ chain ∈ chains, ∃ id port, chain[pos]? = some id ∧ net.port? lane.1 = some port ∧
      port.owner = id := by
  obtain ⟨chain, isChain, id, after, atPos, -, ⟨proc, got, ports, -⟩, -⟩ :=
    exists_of_forall₂ stage mem
  obtain ⟨port, has, owned, -⟩ := inv.exists_out got ports
  exact ⟨chain, isChain, id, port, atPos, has, owned⟩

end

end Stage

theorem Exits.eq {other : ProcessId} {laneToo : PortKey × PortKey} (first : net.Exits id lane)
    (second : net.Exits other laneToo) (inv : net.Consistent) (same : lane.1 = laneToo.1) :
    id = other := by
  obtain ⟨proc, got, ports, -⟩ := first
  obtain ⟨procToo, gotToo, portsToo, -⟩ := second
  obtain ⟨port, has, owned, -⟩ := inv.exists_out got ports
  obtain ⟨too, hasToo, ownedToo, -⟩ := inv.exists_out gotToo portsToo
  rw [same, hasToo] at has
  obtain rfl := some.inj has
  exact owned.symm.trans ownedToo

theorem Bundle.nodup_column (bundle : net.Bundle reg chains) (inv : net.Consistent) (pos : Nat) :
    (chains.filterMap (·[pos]?)).Nodup := by
  refine List.Pairwise.filterMap _ (fun chain rest apart id isMem other isOther same => ?_)
    (bundle.pairwise inv)
  subst same
  exact apart (mem_of_getElem? isMem) (mem_of_getElem? isOther)

theorem Bundle.nodup_stage (bundle : net.Bundle reg chains) (inv : net.Consistent) {pos : Nat}
    (stage : net.Stage chains pos lanes) : (lanes.map Prod.fst).Nodup := by
  refine pairwise_map.mpr (pairwise_of_forall₂ stage.exits (bundle.nodup_column inv pos) ?_)
  intro first _ second _ lane laneToo exits exitsToo differ same
  exact differ (exits.eq exitsToo inv same)

/-- No connection that leaves the process leads through a cut. -/
def Untouched (net : Network) (cuts : List Cut) (id : ProcessId) : Prop :=
  ∀ cut ∈ cuts, ∀ lane ∈ cut.lanes, ∀ port, net.port? lane.1 = some port → port.owner ≠ id

/-- The cuts between the positions of branches, in the order of the positions. -/
def Segments (net : Network) (chains : List (List ProcessId)) (hierarchy : Hierarchy)
    (group : List Cut) : Prop :=
  ∀ position cut, group[position]? = some cut →
    cut.hierarchy = hierarchy ∧ net.Stage chains position cut.lanes

namespace Segments

variable {hier : Hierarchy}

variable (segs : net.Segments chains hier group)

include segs

theorem connects : ∀ cut ∈ group, ∀ lane ∈ cut.lanes, net.Connects lane.1 lane.2 := by
  intro cut mem
  obtain ⟨pos, isCut⟩ := getElem?_of_mem mem
  exact (segs pos cut isCut).2.connects

theorem push (place : cut.hierarchy = hier) (stage : net.Stage chains group.length cut.lanes) :
    net.Segments chains hier (group ++ [cut]) := by
  intro pos other isCut
  rcases Nat.lt_or_ge pos group.length with earlier | new
  · rw [getElem?_append_left earlier] at isCut
    exact segs pos other isCut
  · rw [getElem?_append_right new, getElem?_singleton] at isCut
    split at isCut
    · grind
    · cases isCut

theorem exists_owner (inv : net.Consistent) (mem : cut ∈ group) (isLane : lane ∈ cut.lanes)
    {port : Port} (has : net.port? lane.1 = some port) :
    ∃ pos < group.length, ∃ chain ∈ chains, chain[pos]? = some port.owner := by
  obtain ⟨pos, isCut⟩ := getElem?_of_mem mem
  obtain ⟨chain, isChain, id, too, atPos, hasToo, owned⟩ :=
    (segs pos cut isCut).2.exists_owner inv isLane
  obtain rfl := mem_unique has hasToo
  exact ⟨pos, (List.getElem?_eq_some_iff.mp isCut).1, chain, isChain, owned ▸ atPos⟩

end Segments

namespace Split

theorem exits (split : net.Split cuts next) (inv : net.Consistent) (exits : net.Exits id lane)
    (untouched : net.Untouched cuts id) : next.Exits id lane := by
  obtain ⟨proc, got, ports, connects⟩ := exits
  refine ⟨proc, split.process_of inv got, ports,
    split.connects_of connects fun cut mem isLane => ?_⟩
  obtain ⟨port, has, owned, -⟩ := inv.exists_out got ports
  exact untouched cut mem lane isLane port has owned

/-- Cuts keep processes that no cut connection leaves. -/
theorem keeps (split : net.Split cuts next) (inv : net.Consistent) :
    net.Keeps next (net.Untouched cuts) where
  process _ got := split.process_of inv got
  remote {id proc key dst} untouched got mem leads _ := by
    obtain ⟨port, other, peer, has, conn, hasPeer, rfl⟩ := remote_eq_some.mp leads
    obtain ⟨owned, leaves⟩ := of_found has (inv.listed_out got mem)
    have stays : next.Connects key other :=
        split.connects_of ⟨port, has, leaves, conn⟩ fun cut isCut isLane =>
      untouched cut isCut _ isLane port has owned
    obtain ⟨new, hasNew, -, connNew⟩ := stays
    have declared := split.declared (lt_nextKey hasPeer)
    rw [hasPeer, map_some, map_eq_some_iff] at declared
    obtain ⟨newPeer, hasNewPeer, same⟩ := declared
    exact remote_eq_some.mpr
      ⟨new, other, newPeer, hasNew, connNew, hasNewPeer, (Port.unlinked_eq.mp same).2.1⟩

end Split

theorem Bundle.eq_of_mem (bundle : net.Bundle reg chains) (inv : net.Consistent)
    {other : List ProcessId} (isChain : chain ∈ chains) (isOther : other ∈ chains)
    (isMem : id ∈ chain) (isMemToo : id ∈ other) : chain = other := by
  by_contra differ
  have symmetric : Std.Symm (List.Disjoint : List ProcessId → List ProcessId → Prop) :=
    ⟨fun _ _ apart _ inFirst inSecond => apart inSecond inFirst⟩
  exact (bundle.pairwise inv).forall isChain isOther differ isMem isMemToo

theorem Bundle.run_cuts (bundle : net.Bundle reg chains) (inv : net.Consistent)
    (nonempty : chains ≠ []) (lengths : ∀ chain ∈ chains, chain.length = len) {hier : Hierarchy}
    (top : hier.parent? = none) (cutting : net.Cutting cuts next)
    (old : ∀ cut ∈ cuts, ∀ lane ∈ cut.lanes, net.Connects lane.1 lane.2)
    (untouched : ∀ chain ∈ chains, ∀ id ∈ chain, net.Untouched cuts id) {count : Nat}
    (bound : count < len) :
    ∃ group last, ((List.range count).forM fun pos =>
        Edit.cutAt hier chains.length (chains.filterMap (·[pos]?))).run next = .ok () last ∧
      group.length = count ∧ net.Segments chains hier group ∧ net.Cutting (cuts ++ group) last := by
  induction count with
  | zero => exact ⟨[], next, rfl, rfl, by simp [Segments], by simpa using cutting⟩
  | succ count ih =>
    obtain ⟨group, between, runs, counts, segs, cuttingGroup⟩ := ih (Nat.lt_of_succ_lt bound)
    have oldAll : ∀ cut ∈ cuts ++ group, ∀ lane ∈ cut.lanes, net.Connects lane.1 lane.2 := by
      intro cut mem
      rcases mem_append.mp mem with earlier | isNew
      · exact old cut earlier
      · exact segs.connects cut isNew
    have split := cuttingGroup.split inv oldAll
    obtain ⟨lanes, stage⟩ := bundle.exists_stage inv (fun chain mem => lengths chain mem ▸ bound)
    -- No process at this position has been left by a cut connection, since each is on one branch
    -- and there once.
    have fresh : ∀ chain ∈ chains, ∀ id, chain[count]? = some id →
        net.Untouched (cuts ++ group) id := by
      intro chain isChain id atCount cut mem lane isLane port has owned
      rcases mem_append.mp mem with earlier | isNew
      · exact untouched chain isChain id (mem_of_getElem? atCount) cut earlier lane isLane
          port has owned
      · obtain ⟨pos, less, other, isOther, atPos⟩ := segs.exists_owner inv isNew isLane has
        rw [owned] at atPos
        obtain rfl :=
          bundle.eq_of_mem inv isChain isOther (mem_of_getElem? atCount) (mem_of_getElem? atPos)
        obtain ⟨proc, key, -, -, -, branch⟩ := bundle.exists_branch isChain
        have same :=
          (getElem?_inj (List.getElem?_eq_some_iff.mp atCount).1 branch.line.once).mp
            (atCount.trans atPos.symm)
        omega
    have exits : List.Forall₂ between.Exits (chains.filterMap (·[count]?)) lanes := by
      refine forall₂_iff_zip.mpr ⟨stage.exits.length_eq, fun {id lane} paired => ?_⟩
      obtain ⟨chain, isChain, atCount⟩ := mem_filterMap.mp (of_mem_zip paired).1
      exact split.exits inv ((forall₂_iff_zip.mp stage.exits).2 paired)
        (fresh chain isChain id atCount)
    have some : chains.filterMap (·[count]?) ≠ [] := by
      apply ne_nil_of_length_pos
      rw [exits.length_eq, ← stage.length_eq]
      exact length_pos_of_ne_nil nonempty
    obtain ⟨cut, last, cutsRun, place, isLanes, cuts⟩ :=
      run_cutAt split.evolves.inv exits (bundle.nodup_stage inv stage) some top chains.length
    refine ⟨group ++ [cut], last, ?_, by simp [counts], segs.push place (counts ▸ isLanes ▸ stage),
      ?_⟩
    · rw [range_succ, Edit.run_forM_append runs, Edit.run_forM_singleton]
      exact cutsRun
    · rw [← append_assoc]
      exact cuttingGroup.snoc cuts

/-- Below top level a cut is refused. -/
theorem Flat.run_cutAt (flat : net.Flat) {column : List ProcessId}
    (exits : List.Forall₂ net.Exits column lanes) (nonempty : column ≠ []) {hier : Hierarchy}
    {parent : ProcessId} (placed : hier.parent? = some parent) (branches : Nat) :
    ∃ fault last, (Edit.cutAt hier branches column).run net = .error fault last := by
  cases exits with
  | nil => exact absurd rfl nonempty
  | @cons sample lane column lanes exit _ =>
    obtain ⟨proc, got, ports, port, has, -⟩ := exit
    have asked : net.portAt sample .output 0 = .ok lane.1 :=
      portAt_eq got (by simp [Process.ports, ports])
    obtain ⟨fault, last, refuses, -⟩ := flat.run_addFresh "_zip" .zip placed
    refine ⟨fault, last, ?_⟩
    simp only [Edit.cutAt, EStateM.run_bind, EStateM.run_get, asked, Edit.run_answer,
      port_eq_ok.mpr has, refuses]

theorem Split.process_cases (split : net.Split cuts next) (got : next.process? id = some proc) :
    (∃ cut ∈ cuts, id = cut.zip ∧ proc = cut.zipper ∨ id = cut.unzip ∧ proc = cut.unzipper) ∨
      net.process? id = some proc := by
  by_cases new : ∃ cut ∈ cuts, id = cut.zip ∨ id = cut.unzip
  · obtain ⟨cut, mem, rfl | rfl⟩ := new
    · exact .inl ⟨cut, mem, .inl ⟨rfl, mem_unique got (split.zipped cut mem)⟩⟩
    · exact .inl ⟨cut, mem, .inr ⟨rfl, mem_unique got (split.unzipped cut mem)⟩⟩
  · refine .inr ((split.processes fun cut mem => ?_).symm.trans got)
    exact ⟨fun same => new ⟨cut, mem, .inl same⟩, fun same => new ⟨cut, mem, .inr same⟩⟩

theorem Split.flat (split : net.Split cuts next) (flat : net.Flat) : next.Flat := by
  intro id proc got
  rcases split.process_cases got with ⟨cut, -, ⟨-, rfl⟩ | ⟨-, rfl⟩⟩ | pre
  · rfl
  · rfl
  · exact flat pre

namespace Bundle

variable (bundle : net.Bundle reg chains) (inv : net.Consistent)

include bundle inv

theorem run_splitSection (got : net.process? reg.start = some proc) (len : Nat) :
    (Edit.splitSection reg len).run net = ((List.range (len - 1)).forM fun pos =>
      Edit.cutAt proc.hierarchy chains.length (chains.filterMap (·[pos]?))).run net := by
  simp only [Edit.splitSection, EStateM.run_bind, EStateM.run_get, bundle.branchChains_eq inv,
    process_eq_ok.mpr got, Edit.run_answer]

theorem splitSection_refused (flat : net.Flat) (filled : chains ≠ [])
    (lengths : ∀ chain ∈ chains, chain.length = len) (long : 1 < len)
    (got : net.process? reg.start = some proc) {parent : ProcessId}
    (placed : proc.hierarchy.parent? = some parent) :
    ∃ fault last, (Edit.splitSection reg len).run net = .error fault last := by
  obtain ⟨lanes, stage⟩ :=
    bundle.exists_stage inv (fun chain mem => (lengths chain mem).symm ▸ long)
  have nonempty : chains.filterMap (·[0]?) ≠ [] := by
    apply ne_nil_of_length_pos
    rw [stage.exits.length_eq, ← stage.length_eq]
    exact length_pos_of_ne_nil filled
  obtain ⟨fault, last, refuses⟩ := flat.run_cutAt stage.exits nonempty placed chains.length
  obtain ⟨more, isMore⟩ : ∃ more, len - 1 = more + 1 := ⟨len - 2, by omega⟩
  let step (pos : Nat) := Edit.cutAt proc.hierarchy chains.length (chains.filterMap (·[pos]?))
  refine ⟨fault, last, ?_⟩
  rw [bundle.run_splitSection inv got, isMore, range_succ_eq_map]
  exact Edit.run_forM_cons_error step refuses

theorem ends_splitSection (flat : net.Flat) (unif : net.Uniform chains len) (long : 1 < len)
    (got : net.process? reg.start = some proc) (cutting : net.Cutting cuts next)
    (old : ∀ cut ∈ cuts, ∀ lane ∈ cut.lanes, net.Connects lane.1 lane.2)
    (untouched : ∀ id ∈ reg.members chains, net.Untouched cuts id) :
    (Edit.splitSection reg len).Ends next
      (fun _ last => proc.hierarchy.parent? = none ∧ ∃ group, group.length = len - 1 ∧
        net.Segments chains proc.hierarchy group ∧ net.Cutting (cuts ++ group) last)
      (fun _ => proc.hierarchy.parent? ≠ none) := by
  have split := cutting.split inv old
  have new := split.evolves.inv
  -- The section looks in the present network as it did in the first one.
  have bundleNext : next.Bundle reg chains := by
    refine (split.keeps inv).bundle inv new (untouched _ ?_) (untouched _ ?_)
      (fun id isMem => untouched _ ?_) bundle
    · exact Section.mem_members.mpr (.inl rfl)
    · exact Section.mem_members.mpr (.inr (.inl rfl))
    · exact Section.mem_members.mpr (.inr (.inr (mem_flatten.mp isMem)))
  rw [Edit.Ends]
  cases placed : proc.hierarchy.parent? with
  | none =>
    obtain ⟨group, last, runs, counts, segs, cuttingGroup⟩ :=
      bundle.run_cuts inv unif.some unif.lengths placed
        cutting old (fun chain mem id isMem => untouched id (Section.mem_members_of_mem mem isMem))
        (show len - 1 < len by omega)
    rw [bundleNext.run_splitSection new (split.process_of inv got), runs]
    exact ⟨rfl, group, counts, segs, cuttingGroup⟩
  | some parent =>
    obtain ⟨fault, last, refuses⟩ :=
      bundleNext.splitSection_refused new (split.flat flat) unif.some unif.lengths long
        (split.process_of inv got) placed
    simp [refuses]

end Bundle

/-- The cuts of a section with branches of the given length; its start is at top level if there are
any. -/
def Divides (net : Network) (entry : Section × Nat) (group : List Cut) : Prop :=
  ∃ chains process, net.Bundle entry.1 chains ∧ net.Uniform chains entry.2 ∧
    net.process? entry.1.start = some process ∧ group.length = entry.2 - 1 ∧
    net.Segments chains process.hierarchy group ∧
    (1 < entry.2 → process.hierarchy.parent? = none)

theorem connects_of_divides {entries : List (Section × Nat)}
    (divided : List.Forall₂ net.Divides entries groups) :
    ∀ cut ∈ groups.flatten, ∀ lane ∈ cut.lanes, net.Connects lane.1 lane.2 := by
  intro cut mem
  obtain ⟨group, isGroup, isCut⟩ := mem_flatten.mp mem
  obtain ⟨entry, -, chains, proc, -, -, -, -, segs, -⟩ := exists_of_forall₂ divided isGroup
  exact segs.connects cut isCut

theorem Bundle.untouched (bundle : net.Bundle reg chains) (ready : net.Ready)
    {entries : List (Section × Nat)} (divided : List.Forall₂ net.Divides entries groups)
    (others : ∀ entry ∈ entries, entry.1.stop ≠ reg.stop) (isMem : id ∈ reg.members chains) :
    net.Untouched groups.flatten id := by
  intro cut mem lane isLane port has owned
  obtain ⟨group, isGroup, isCut⟩ := mem_flatten.mp mem
  obtain ⟨entry, isEntry, rest, proc, bundleEntry, -, -, -, segs, -⟩ :=
    exists_of_forall₂ divided isGroup
  obtain ⟨pos, -, chain, isChain, atPos⟩ := segs.exists_owner ready.inv isCut isLane has
  rw [owned] at atPos
  refine bundleEntry.disjoint bundle ready.inv ready.legal (others entry isEntry) isMem ?_
  exact Section.mem_members_of_mem isChain (mem_of_getElem? atPos)

theorem Pending.ends_splitSections {regs : List (Section × Nat)} (pending : net.Pending regs)
    (ready : net.Ready) (report : Report) :
    (regs.foldlM (fun report (reg, len) => do
        if len ≤ 1 then return report
        Edit.splitSection reg len
        return report.count) report : Edit Report).Ends net
      (fun _ next => ∃ groups, List.Forall₂ net.Divides regs groups ∧
        net.Cutting groups.flatten next)
      (fun _ => ∃ entry ∈ regs, 1 < entry.2 ∧ ∃ proc, net.process? entry.1.start = some proc ∧
        proc.hierarchy.parent? ≠ none) := by
  refine (Edit.ends_foldlM (fun rest _ cur => ∃ front groups, regs = front ++ rest ∧
    List.Forall₂ net.Divides front groups ∧ net.Cutting groups.flatten cur) ?_
    ⟨[], [], rfl, .nil, .nil⟩).imp ?_
  · rintro ⟨reg, len⟩ rest report cur ⟨front, groups, rfl, divided, cutting⟩
    have mem : (reg, len) ∈ front ++ (reg, len) :: rest := by simp
    obtain ⟨chains, isSealed, unif⟩ := pending.bundles _ mem
    have bundle := isSealed.toBundle
    obtain ⟨proc, got, -⟩ := bundle.opens
    by_cases short : len ≤ 1
    · -- Branches of one process are not cut.
      simp only [short, if_true, Edit.ends_pure]
      refine ⟨front ++ [(reg, len)], groups ++ [[]], by simp, rel_append divided (.cons ?_ .nil),
        by simpa using cutting⟩
      exact ⟨chains, proc, bundle, unif, got, by simp; omega, by simp [Segments],
        fun long => by omega⟩
    · have others : ∀ entry ∈ front, entry.1.stop ≠ reg.stop := fun entry isEntry same => by
        have once := pending.once
        rw [map_append, nodup_append] at once
        exact once.2.2 _ (mem_map_of_mem isEntry) _ mem_cons_self same
      have ends :=
        bundle.ends_splitSection ready.inv (fun got => ready.legal.leaves got) unif
          (Nat.lt_of_not_le short) got cutting (connects_of_divides divided)
          (fun id isMem => bundle.untouched ready divided others isMem)
      simp only [short, if_false, Edit.ends_bind, Edit.ends_pure]
      refine ends.mono ?_ fun _ below => ⟨_, mem, Nat.lt_of_not_le short, proc, got, below⟩
      rintro _ next ⟨top, group, counts, segs, cuttingGroup⟩
      refine ⟨front ++ [(reg, len)], groups ++ [group], by simp, rel_append divided (.cons ?_ .nil),
        by simpa using cuttingGroup⟩
      exact ⟨chains, proc, bundle, unif, got, counts, segs, fun _ => top⟩
  · grind

end Network

end Dataflow
