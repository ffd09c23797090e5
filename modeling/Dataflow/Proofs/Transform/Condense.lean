import Dataflow.Proofs.Transform.Merge
import Dataflow.Proofs.Transform.Regroup

/-!
What the transformations of sections and of parallel maps do to a row.

Both ways to shorten the branches of a bundle leave a row of bundles with one process on each
branch. Each of these is fused into a parallel map, and then all of them are merged into one.
-/

open List

namespace Dataflow

open Segment Network Edit

variable {rim : Rim} {count len : Nat} {net next origin : Network} {id src : ProcessId}
  {seg : Segment}
  {segs pre after : List Segment} {reg : Section} {chains : List (List ProcessId)} {fns : List Func}
  {kept : Network → Prop} {hier : Hierarchy}

namespace Network

theorem upstream_of_feeds (passes : ¬ net.isZip id) (feeds : net.Feeds src id) :
    net.Upstream id src :=
  .inr ⟨fun _ reports same => passes (same ▸ reports.1), feeds⟩

theorem passes_of_isMap {proc : Process} {fn : Func} (got : net.process? id = some proc)
    (isMap : proc.kind = .map fn) : ¬ net.isUnzip id ∧ ¬ net.isZip id ∧ ¬ net.isParallelMap id := by
  simp [isUnzip, isZip, isParallelMap, got, isMap, Kind.isUnzip, Kind.isZip, Kind.isParallelMap]

theorem uniform_of_single {kind : Kind Composite} (some : chains ≠ []) (shaped : kind.isMapShaped)
    (single : ∀ chain ∈ chains, ∃ id, chain = [id] ∧ net.kindOf id = kind) :
    net.Uniform chains 1 where
  some := some
  positive := Nat.one_pos
  lengths chain mem := by
    obtain ⟨id, rfl, -⟩ := single chain mem
    rfl
  shaped chain mem id onChain := by
    obtain ⟨other, rfl, isKind⟩ := single chain mem
    obtain rfl := mem_singleton.mp onChain
    rw [isMapShaped_eq, isKind, shaped]
  same chain mem other memOther := by
    obtain ⟨id, rfl, isKind⟩ := single chain mem
    obtain ⟨otherId, rfl, isKindToo⟩ := single other memOther
    simp [isKind, isKindToo]

namespace Uniform

variable (unif : net.Uniform chains len)

include unif

theorem congr (same : ∀ id ∈ chains.flatten, next.process? id = net.process? id) :
    next.Uniform chains len where
  some := unif.some
  positive := unif.positive
  lengths := unif.lengths
  shaped chain mem id onChain := by
    rw [isMapShaped, same id (mem_flatten.mpr ⟨chain, mem, onChain⟩)]
    exact unif.shaped chain mem id onChain
  same chain mem other memOther := by
    have kinds {chain} (mem : chain ∈ chains) : chain.map next.kindOf = chain.map net.kindOf :=
      map_congr_left fun id onChain => by
        rw [kindOf, kindOf, same id (mem_flatten.mpr ⟨chain, mem, onChain⟩)]
    rw [kinds mem, kinds memOther, unif.same chain mem other memOther]

/-- The same parts of equal branches are equal. -/
theorem part {part : List ProcessId → List ProcessId} {size : Nat} (positive : 0 < size)
    (sized : ∀ chain, chain.length = len → (part chain).length = size)
    (inside : ∀ chain, part chain ⊆ chain)
    (same : ∀ chain other, chain.map net.kindOf = other.map net.kindOf →
      (part chain).map net.kindOf = (part other).map net.kindOf) :
    net.Uniform (chains.map part) size where
  some := by simpa using unif.some
  positive := positive
  lengths := forall_mem_map.mpr fun chain mem => sized chain (unif.lengths chain mem)
  shaped :=
    forall_mem_map.mpr fun chain mem id onChain => unif.shaped chain mem id (inside chain onChain)
  same := forall_mem_map.mpr fun chain mem => forall_mem_map.mpr fun other memOther =>
    same chain other (unif.same chain mem other memOther)

theorem take_one : net.Uniform (chains.map (List.take 1)) 1 := by
  have positive := unif.positive
  refine unif.part Nat.one_pos (fun chain counts => ?_) (take_subset 1) fun chain other same => ?_
  · rw [length_take, counts]
    omega
  · rw [map_take, map_take, same]

theorem tail (long : 1 < len) : net.Uniform (chains.map List.tail) (len - 1) := by
  refine unif.part (Nat.sub_pos_of_lt long) (fun chain counts => ?_)
    (fun chain => (tail_sublist chain).subset)
    fun chain other same => ?_
  · rw [length_tail, counts]
  · rw [map_tail, map_tail, same]

theorem length_unique {other : Nat} (too : net.Uniform chains other) : len = other := by
  obtain ⟨chain, mem⟩ := exists_mem_of_ne_nil _ unif.some
  exact (unif.lengths chain mem).symm.trans (too.lengths chain mem)

theorem functionsOf_eq {chain other : List ProcessId} (mem : chain ∈ chains)
    (memOther : other ∈ chains) : net.functionsOf chain = net.functionsOf other := by
  rw [functionsOf_eq_flatMap, functionsOf_eq_flatMap, unif.same chain mem other memOther]

end Uniform

end Network

namespace Segment

theorem Stands.isParallelMap (stands : (single id fns).Stands origin count net) :
    net.isParallelMap id := by
  obtain ⟨proc, got⟩ := stands.exists_process mem_cons_self
  have isMap := stands.2
  rw [kindOf, got, Option.elim_some] at isMap
  simp [Network.isParallelMap, got, isMap, Kind.isParallelMap]

theorem Stands.entry_passes (stands : seg.Stands origin count net) : ¬ net.isZip seg.entry := by
  cases seg with
  | bundle reg chains fns => exact not_isZip_of_isUnzip stands.1.isUnzip_start
  | single id fns =>
    exact not_isZip_of_isMapShaped (isMapShaped_of_isParallelMap stands.isParallelMap)

theorem Stands.upstream (stands : seg.Stands origin count net) (ready : net.Ready) :
    Relation.ReflTransGen net.Upstream seg.exit seg.entry := by
  cases seg with
  | bundle reg chains fns => exact .single (.inl ⟨reg, stands.1.reports ready, rfl, rfl⟩)
  | single id fns => exact .refl

end Segment

namespace Row

variable (row : Row rim count segs net) (intact : rim.Intact)

include row intact

theorem upstream (ready : net.Ready) (mem : seg ∈ segs) :
    Relation.ReflTransGen net.Upstream rim.sink seg.exit := by
  obtain ⟨first, last, enter, leave, -, leaves, around⟩ := row.around
  have back (after : List Segment) : ∀ pre seg, segs = pre ++ seg :: after →
      Relation.ReflTransGen net.Upstream rim.sink seg.exit := by
    induction after with
    | nil =>
      rintro pre seg rfl
      obtain rfl : seg.exit = last := by simpa [exitOf] using leaves
      obtain ⟨proc, fn, got, isMap⟩ :=
        around.exists_process intact (show rim.sink ∈ rim.ends by simp [Rim.ends])
      exact .single (upstream_of_feeds (passes_of_isMap got isMap).2.1 (around.feeds_sink intact))
    | cons next rest ih =>
      rintro pre seg rfl
      have stands := row.stands next (by simp)
      have feeds : net.Feeds seg.exit next.entry :=
        (isChain_cons_cons.mp (isChain_append.mp row.linked).2.1).1
      exact ((ih (pre ++ [seg]) next (by simp)).trans (stands.upstream ready)).tail
        (upstream_of_feeds stands.entry_passes feeds)
  obtain ⟨pre, after, split⟩ := append_of_mem mem
  exact back after pre seg split

theorem exists_bundle (unzips : net.isUnzip id) :
    ∃ reg chains fns, .bundle reg chains fns ∈ segs ∧ reg.start = id := by
  obtain ⟨proc, got, -⟩ := (Option.any_eq_true _ _).mp unzips
  rcases row.covers got with isEnd | ⟨seg, mem, isMem⟩
  · obtain ⟨first, last, enter, leave, -, -, around⟩ := row.around
    obtain ⟨too, fn, gotToo, isMap⟩ := around.exists_process intact isEnd
    exact absurd unzips (passes_of_isMap gotToo isMap).1
  · have stands := row.stands seg mem
    cases seg with
    | single other fns =>
      obtain rfl := mem_singleton.mp isMem
      exact absurd unzips
        (not_isUnzip_of_isMapShaped (isMapShaped_of_isParallelMap stands.isParallelMap))
    | bundle reg chains fns =>
      rcases Section.mem_members.mp isMem with rfl | rfl | ⟨chain, isChain, onChain⟩
      · exact ⟨reg, chains, fns, mem, rfl⟩
      · exact absurd stands.1.closes (not_isZip_of_isUnzip unzips)
      · exact absurd unzips (not_isUnzip_of_isMapShaped (stands.1.isMapShaped isChain onChain))

/-- The data-parallel sections of a row are its bundles with equal branches. -/
theorem dataParallelSections_eq (ready : net.Ready) :
    ∃ regs notes, net.dataParallelSections = .ok (regs, notes) ∧ regs.Nodup ∧
      ∀ reg len, (reg, len) ∈ regs ↔
        ∃ chains fns, .bundle reg chains fns ∈ segs ∧ net.Uniform chains len := by
  obtain ⟨regs, notes, asked, pending, -, has⟩ := ready.dataParallelSections_eq
  refine ⟨regs, notes, asked, pending.once.of_map, fun reg len => (has reg len).trans ⟨?_, ?_⟩⟩
  · rintro ⟨-, chains, bundle, unif⟩
    obtain ⟨other, others, fns, mem, same⟩ := row.exists_bundle intact bundle.isUnzip_start
    have stands := row.stands _ mem
    obtain ⟨rfl, rfl⟩ := stands.1.toBundle.unique bundle ready.inv ready.legal same
    exact ⟨others, fns, mem, unif⟩
  · rintro ⟨chains, fns, mem, unif⟩
    have enclosed := (row.stands _ mem).1
    obtain ⟨first, last, enter, leave, -, -, around⟩ := row.around
    exact ⟨⟨enclosed.reports ready, rim.sink, around.emits intact, row.upstream intact ready mem⟩,
      chains, enclosed.toBundle, unif⟩

end Row

/-- A segment has one process on each branch, if it is a bundle, and the branches are equal. -/
def Segment.Short (net : Network) : Segment → Prop
  | .bundle _ chains _ => net.Uniform chains 1
  | .single _ _ => True

theorem Segment.Short.congr (short : seg.Short net)
    (same : ∀ id ∈ seg.members, next.process? id = net.process? id) : seg.Short next := by
  cases seg with
  | bundle reg chains fns =>
    exact Network.Uniform.congr short fun id isMem =>
      same id (by simp [members, Section.members, isMem])
  | single id fns => trivial

/-- A row of short segments that together apply some functions. -/
def ShortRow (rim : Rim) (count : Nat) (functions : List Func) (net : Network) : Prop :=
  ∃ segments, Row rim count segments net ∧ (∀ segment ∈ segments, segment.Short net) ∧
    segments.flatMap Segment.functions = functions

theorem Row.dataParallelSections_bundle (row : Row rim count [.bundle reg chains fns] net)
    (intact : rim.Intact) (ready : net.Ready) (unif : net.Uniform chains len) :
    ∃ notes, net.dataParallelSections = .ok ([(reg, len)], notes) := by
  obtain ⟨regs, notes, asked, once, has⟩ := row.dataParallelSections_eq intact ready
  have same : regs = [(reg, len)] := by
    refine perm_singleton.mp
      ((perm_ext_iff_of_nodup once (nodup_singleton _)).mpr fun ⟨other, size⟩ => ?_)
    simp only [has, mem_singleton, Segment.bundle.injEq, Prod.mk.injEq]
    constructor
    · rintro ⟨others, -, ⟨rfl, rfl, -⟩, unifOther⟩
      exact ⟨rfl, unifOther.length_unique unif⟩
    · grind
  exact ⟨notes, same ▸ asked⟩

theorem Row.shortened (row : Row rim count [.bundle reg chains fns] net)
    (unif : net.Uniform chains 1) : ShortRow rim count fns net :=
  ⟨_, row, fun _ mem => mem_singleton.mp mem ▸ unif, by simp [Segment.functions]⟩

section Coalescing

section

variable (row : Row rim count [.bundle reg chains fns] net) (intact : rim.Intact)
  (prep : net.Prepared kept)

include row intact prep

theorem Row.ends_coalesceChains :
    (chains.forM Edit.coalesceChain).Ends net (fun _ next => ShortRow rim count fns next) fun _ =>
      False := by
  -- The branches that were replaced stand in front of those that were not.
  refine (ends_forM
    (fun rest cur => ∃ done, cur.Prepared kept ∧
      Row rim count [.bundle reg (done ++ rest) fns] cur ∧ ∀ chain ∈ done, ∃ id, chain = [id] ∧
      cur.kindOf id = .coalescedMap fns) ?_ ⟨[], prep, row, by simp⟩).mono ?_
    fun _ fault => fault
  · rintro chain rest cur ⟨done, prep, row, single⟩
    obtain ⟨enclosed, counts, applied⟩ := row.stands _ mem_cons_self
    have bundle := enclosed.toBundle
    have ready := prep.ready
    have isBranch : chain ∈ done ++ chain :: rest := by simp
    obtain ⟨first, last, entry, exit, proc, starts, stops, exc, got, ends⟩ :=
      bundle.ends_coalesceChain ready isBranch
    have top := prep.top got
    refine ends.mono (fun _ next ⟨_, fresh, repl⟩ => ?_) fun _ refused => absurd top refused.1
    have exchange := enclosed.exchange_chain counts applied row.evolves intact starts stops exc repl
    refine ⟨done ++ [[fresh]],
      prep.replaced (bundle.ready_replaced ready isBranch starts stops exc repl) top exc rfl repl,
      ?_, fun other mem => ?_⟩
    · rw [append_assoc]
      exact exchange.whole row intact
    · rcases mem_append.mp mem with pre | isLast
      · obtain ⟨id, rfl, isMap⟩ := single other pre
        have isOther : [id] ∈ done ++ chain :: rest := mem_append_left _ pre
        obtain ⟨proc, got⟩ :=
          bundle.exists_process (Section.mem_members_of_mem isOther mem_cons_self)
        have stays :=
          bundle.not_mem_of_mem ready.inv (mem_append_left rest pre) mem_cons_self
        refine ⟨id, rfl, ?_⟩
        rw [← isMap, kindOf, kindOf, repl.process_of got stays, got]
      · refine ⟨fresh, mem_singleton.mp isLast, ?_⟩
        simp [kindOf, repl.processes, coalesced, applied chain isBranch]
  · rintro _ next ⟨done, prep, row, single⟩
    rw [append_nil] at row
    obtain ⟨chain, isChain⟩ := (row.stands _ mem_cons_self).1.exists_chain prep.ready.legal
    exact row.shortened (uniform_of_single (ne_nil_of_mem isChain) rfl single)

theorem Row.ends_coalesceDataParallel (unif : net.Uniform chains len) :
    Edit.coalesceDataParallel.Ends net (fun _ next => ShortRow rim count fns next) fun _ =>
      False := by
  have ready := prep.ready
  obtain ⟨notes, asked⟩ := row.dataParallelSections_bundle intact ready unif
  have enclosed := (row.stands _ mem_cons_self).1
  unfold Edit.coalesceDataParallel
  simp only [ends_bind, ends_get, ready.legal.ensureFlat_eq, ends_answer, asked,
    foldlM_cons, foldlM_nil]
  by_cases short : len ≤ 1
  · have positive := unif.positive
    obtain rfl : len = 1 := by omega
    exact row.shortened unif
  · simp only [short, if_false, ends_bind, ends_get, enclosed.branchChains_eq ready.inv,
      ends_answer, ends_pure]
    exact row.ends_coalesceChains intact prep

end

end Coalescing

section Splitting

/-- What is left of a row that is being split: short segments, and a bundle that is still to be
cut. -/
def Halved (rim : Rim) (count : Nat) (functions : List Func) (region : Section)
    (chains : List (List ProcessId)) (net : Network) : Prop :=
  ∃ front behind, Row rim count (front ++ [.bundle region chains behind]) net ∧
    (∀ segment ∈ front, segment.Short net) ∧
    (∃ length, net.Uniform chains length) ∧
    front.flatMap Segment.functions ++ behind = functions

section

variable (halved : Halved rim count fns reg chains net) (intact : rim.Intact)

include halved intact

/-- A cut takes a short segment off the bundle that is still to be cut. -/
theorem Halved.severed {cut : Cut}
    (severs : net.Severs reg chains cut next) (long : ∀ chain ∈ chains, 1 < chain.length) :
    Halved rim count fns ⟨cut.unzip, reg.stop⟩ (chains.map List.tail) next := by
  obtain ⟨front, behind, row, short, ⟨len, unif⟩, rfl⟩ := halved
  obtain ⟨enclosed, counts, applied⟩ := row.stands (.bundle reg chains behind) (by simp)
  have kept {seg} (mem : seg ∈ front ++ [.bundle reg chains behind]) (id : ProcessId)
      (isMem : id ∈ seg.members) : next.process? id = net.process? id := by
    obtain ⟨proc, got⟩ := (row.stands seg mem).exists_process isMem
    rw [severs.cuts.process_of severs.ready.inv got, got]
  obtain ⟨sample, isSample⟩ := exists_mem_of_ne_nil _ unif.some
  have unifTail := unif.tail (unif.lengths sample isSample ▸ long sample isSample)
  have exchange := severs.exchange enclosed counts
    (fun chain mem => unif.take_one.functionsOf_eq (mem_map_of_mem mem) (mem_map_of_mem isSample))
    (fun chain mem => unifTail.functionsOf_eq (mem_map_of_mem mem) (mem_map_of_mem isSample)) intact
    behind
  -- The bundle is exchanged for its two parts at the end of the row.
  have parted : Row rim count (front ++ ([.bundle reg chains behind] ++ [])) net := by
    simpa using row
  have rowNext := exchange.later_row parted intact
  have stays {part} (inside : ∀ chain, part chain ⊆ chain) (id : ProcessId)
      (isMem : id ∈ (chains.map part).flatten) : next.process? id = net.process? id := by
    obtain ⟨_, isPart, onPart⟩ := mem_flatten.mp isMem
    obtain ⟨chain, mem, rfl⟩ := mem_map.mp isPart
    exact kept (mem_append_right _ mem_cons_self) id
      (Section.mem_members_of_mem mem (inside chain onPart))
  refine ⟨front ++
    [.bundle ⟨reg.start, cut.zip⟩ (chains.map (List.take 1)) (net.functionsOf (sample.take 1))],
    net.functionsOf sample.tail, by simpa using rowNext, ?_,
    ⟨len - 1, unifTail.congr (stays fun chain => (tail_sublist chain).subset)⟩, ?_⟩
  · intro seg mem
    rcases mem_append.mp mem with inFront | isLast
    · exact (short seg inFront).congr (kept (mem_append_left _ inFront))
    · obtain rfl := mem_singleton.mp isLast
      exact unif.take_one.congr (stays fun chain => take_subset 1 chain)
  · have parts : net.functionsOf (sample.take 1) ++ net.functionsOf sample.tail = behind := by
      rw [← applied sample isSample, functionsOf, functionsOf, ← flatMap_append, ← drop_one,
        take_append_drop]
      rfl
    simp [Segment.functions, parts]

theorem Halved.run_cutAt (prep : net.Prepared kept) (long : ∀ chain ∈ chains, 1 < chain.length)
    (top : hier.parent? = none) (branches : Nat) :
    ∃ unzip next, (Edit.cutAt hier branches (chains.filterMap (·[0]?))).run net = .ok () next ∧
      next.Prepared kept ∧ Halved rim count fns ⟨unzip, reg.stop⟩ (chains.map List.tail) next := by
  have bundle : net.Bundle reg chains := by
    obtain ⟨front, behind, row, -⟩ := halved
    exact (row.stands (.bundle reg chains behind) (by simp)).1.toBundle
  obtain ⟨cut, next, runs, place, severs⟩ := bundle.run_cutAt prep.ready long top branches
  exact ⟨cut.unzip, next, runs, prep.severed severs ((congrArg Hierarchy.parent? place).trans top),
    halved.severed intact severs long⟩

end

section

variable (row : Row rim count [.bundle reg chains fns] net) (intact : rim.Intact)
  (prep : net.Prepared kept)

include row intact prep

theorem Row.ends_splitSection (unif : net.Uniform chains len) :
    (Edit.splitSection reg len).Ends net (fun _ next => ShortRow rim count fns next) fun _ =>
      False := by
  have bundle := (row.stands _ mem_cons_self).1.toBundle
  obtain ⟨proc, got, -⟩ := bundle.opens
  have top := prep.top got
  have positive := unif.positive
  obtain ⟨origin, last, runs, -, front, behind, rowLast, short, ⟨rest, unifLast⟩, whole⟩ :=
    run_cuts
      (fun origin tails cur => cur.Prepared kept ∧
        Halved rim count fns ⟨origin, reg.stop⟩ tails cur)
      (fun held long => held.2.run_cutAt intact held.1 long top chains.length)
      ⟨prep, [], fns, row, by simp, ⟨len, unif⟩, rfl⟩ unif.lengths (show len - 1 < len by omega)
  have steps : (Edit.splitSection reg len).run net = .ok () last := by
    simp only [Edit.splitSection, EStateM.run_bind, EStateM.run_get,
      bundle.branchChains_eq prep.ready.inv, process_eq_ok.mpr got, run_answer]
    exact runs
  rw [Ends, steps]
  obtain rfl : rest = 1 := by
    obtain ⟨sample, isSample⟩ := exists_mem_of_ne_nil _ unif.some
    rw [← unifLast.lengths _ (mem_map_of_mem isSample), length_drop, unif.lengths sample isSample]
    omega
  refine ⟨_, rowLast, fun seg mem => ?_, by simpa [Segment.functions] using whole⟩
  rcases mem_append.mp mem with inFront | isLast
  · exact short seg inFront
  · exact mem_singleton.mp isLast ▸ unifLast

theorem Row.ends_splitSegments (unif : net.Uniform chains len) :
    Edit.splitSegments.Ends net (fun _ next => ShortRow rim count fns next) fun _ => False := by
  have ready := prep.ready
  obtain ⟨notes, asked⟩ := row.dataParallelSections_bundle intact ready unif
  unfold Edit.splitSegments
  simp only [ends_bind, ends_get, ready.legal.ensureFlat_eq, ends_answer, asked,
    foldlM_cons, foldlM_nil]
  by_cases short : len ≤ 1
  · have positive := unif.positive
    obtain rfl : len = 1 := by omega
    exact row.shortened unif
  · simp only [short, if_false, ends_bind, ends_pure]
    exact row.ends_splitSection intact prep unif

end

end Splitting

section Fusing

variable {regs : List (Section × Nat)}

/-- A row of short segments in which some bundles wait to be fused, and all others are fused. -/
structure Fusing (rim : Rim) (count : Nat) (functions : List Func) (regions : List (Section × Nat))
    (segments : List Segment) (net : Network) : Prop where
  row : Row rim count segments net
  short : ∀ segment ∈ segments, segment.Short net
  whole : segments.flatMap Segment.functions = functions
  once : regions.Nodup
  found : ∀ region length, (region, length) ∈ regions ↔
    length = 1 ∧ ∃ chains functions, .bundle region chains functions ∈ segments

theorem Network.Uniform.fused_eq (unif : net.Uniform chains 1) (counts : chains.length = count)
    (applied : ∀ chain ∈ chains, net.functionsOf chain = fns) :
    net.fused chains = .parallelMap (UInt64.ofNat count) fns := by
  obtain ⟨chain, rest, rfl⟩ := exists_cons_of_ne_nil unif.some
  obtain ⟨id, rfl⟩ := length_eq_one_iff.mp (unif.lengths chain mem_cons_self)
  rw [fused, counts, ← applied [id] mem_cons_self]
  rfl

theorem Row.not_mem_beside (row : Row rim count (pre ++ (.bundle reg chains fns :: after)) net)
    {others : List (List ProcessId)} {further : List Func} :
    .bundle reg others further ∉ pre ++ after := fun mem => by
  have beside : Row rim count (pre ++ ([.bundle reg chains fns] ++ after)) net := row
  have within : Within pre reg.start ∨ Within after reg.start :=
    (mem_append.mp mem).imp (⟨_, ·, Segment.entry_mem _⟩) (⟨_, ·, Segment.entry_mem _⟩)
  exact (beside.beside within).2 (within_singleton.mpr (Segment.entry_mem _))

/-- When a process has taken the place of the next bundle that waits, the others wait. -/
theorem Fusing.replaced {entry exit : PortKey} {fresh : ProcessId} {applied : List Func}
    (fusing : Fusing rim count fns ((reg, 1) :: regs) (pre ++ .bundle reg chains applied :: after)
      net) (intact : rim.Intact)
    (exc : net.Excisable reg.start reg.stop (reg.members chains) entry exit)
    (repl : net.Replaced (reg.members chains) entry exit fresh
      (.parallelMap (UInt64.ofNat count) applied) hier next) :
    Fusing rim count fns regs (pre ++ .single fresh applied :: after) next := by
  have row : Row rim count (pre ++ ([.bundle reg chains applied] ++ after)) net := fusing.row
  have members (id : ProcessId) : id ∈ reg.members chains ↔
    Within [.bundle reg chains applied] id := within_bundle.symm
  have exchange := repl.exchange_single row.evolves intact exc members rfl rfl
  obtain ⟨new, once⟩ := nodup_cons.mp fusing.once
  refine ⟨exchange.later_row row intact, ?_, ?_, once, ?_⟩
  · -- The segments beside the bundle have kept their processes.
    intro seg mem
    have beside (beside : seg ∈ pre ∨ seg ∈ after) : seg.Short next := by
      refine (fusing.short seg (by grind)).congr fun id isMem => ?_
      obtain ⟨⟨proc, got⟩, outside⟩ := row.beside (beside.imp (⟨seg, ·, isMem⟩) (⟨seg, ·, isMem⟩))
      rw [repl.process_of got (fun inside => outside ((members id).mp inside)), got]
    simp only [mem_append, mem_cons] at mem
    rcases mem with inPre | rfl | inAfter
    · exact beside (.inl inPre)
    · trivial
    · exact beside (.inr inAfter)
  · rw [← fusing.whole]
    simp [Segment.functions]
  · intro other len
    have has := fusing.found other len
    constructor
    · grind
    · rintro ⟨rfl, others, further, isOther⟩
      have isBeside : .bundle other others further ∈ pre ++ after := by grind
      have mem := has.mpr ⟨rfl, others, further, by grind⟩
      refine (mem_cons.mp mem).resolve_left fun same => ?_
      obtain rfl : other = reg := (Prod.mk.inj same).1
      exact fusing.row.not_mem_beside isBeside

theorem Fusing.ends_fuseSection (fusing : Fusing rim count fns ((reg, len) :: regs) segs net)
    (intact : rim.Intact) (prep : net.Prepared kept) :
    len = 1 ∧ (Edit.fuseSection reg).Ends net (fun _ next => next.Prepared kept ∧
      ∃ segs, Fusing rim count fns regs segs next) fun _ => False := by
  obtain ⟨rfl, chains, applied, mem⟩ := (fusing.found reg len).mp mem_cons_self
  refine ⟨rfl, ?_⟩
  have ready := prep.ready
  have unif : net.Uniform chains 1 := fusing.short _ mem
  obtain ⟨enclosed, counts, apply⟩ := fusing.row.stands _ mem
  obtain ⟨proc, got, -⟩ := enclosed.opens
  have top := prep.top got
  obtain ⟨entry, exit, fresh, next, runs, exc, repl⟩ := enclosed.run_fuseSection ready got top
  have prepNext := prep.replaced (enclosed.ready_replaced unif ready exc repl) top exc rfl repl
  rw [unif.fused_eq counts apply] at repl
  rw [Ends, runs]
  obtain ⟨pre, after, rfl⟩ := append_of_mem mem
  exact ⟨prepNext, _, fusing.replaced intact exc repl⟩

/-- A row of parallel maps that together apply some functions. -/
def Fused (rim : Rim) (count : Nat) (functions : List Func) (net : Network) : Prop :=
  ∃ maps : List (ProcessId × List Func),
    Row rim count (maps.map fun map => .single map.1 map.2) net ∧ maps.flatMap Prod.snd = functions

theorem Fusing.fused (fusing : Fusing rim count fns [] segs net) : Fused rim count fns net := by
  have singles : (segs.map fun seg => (seg.entry, seg.functions)).map
      (fun map => Segment.single map.1 map.2) = segs := by
    rw [map_map]
    refine (map_congr_left fun seg mem => ?_).trans (map_id segs)
    cases seg with
    | single id fns => rfl
    | bundle reg chains fns =>
      exact absurd ((fusing.found reg 1).mpr ⟨rfl, chains, fns, mem⟩) not_mem_nil
  exact ⟨_, singles.symm ▸ fusing.row, by rw [flatMap_map, ← fusing.whole]⟩

theorem ShortRow.exists_fusing (shortened : ShortRow rim count fns net) (intact : rim.Intact)
    (ready : net.Ready) :
    ∃ regs notes segs, net.dataParallelSections = .ok (regs, notes) ∧
      Fusing rim count fns regs segs net := by
  obtain ⟨segs, row, short, whole⟩ := shortened
  obtain ⟨regs, notes, asked, once, has⟩ := row.dataParallelSections_eq intact ready
  refine ⟨regs, notes, segs, asked, row, short, whole, once, fun reg len =>
    (has reg len).trans ⟨?_, ?_⟩⟩
  · rintro ⟨chains, applied, mem, unif⟩
    exact ⟨unif.length_unique (short _ mem), chains, applied, mem⟩
  · rintro ⟨rfl, chains, applied, mem⟩
    exact ⟨chains, applied, mem, short _ mem⟩

theorem ShortRow.ends_fuseSections (shortened : ShortRow rim count fns net) (intact : rim.Intact)
    (prep : net.Prepared kept) :
    Edit.fuseSections.Ends net (fun _ next => Fused rim count fns next) fun _ => False := by
  obtain ⟨regs, notes, segs, asked, fusing⟩ := shortened.exists_fusing intact prep.ready
  unfold Edit.fuseSections
  simp only [ends_bind, ends_get, prep.ready.legal.ensureFlat_eq, ends_answer, asked]
  refine (ends_foldlM
    (fun rest (_ : Report) cur => cur.Prepared kept ∧ ∃ segs, Fusing rim count fns rest segs cur) ?_
    ⟨prep, segs, fusing⟩).imp fun _ _ done => done.2.elim fun _ fusing => fusing.fused
  rintro ⟨reg, len⟩ rest report cur ⟨prep, segs, fusing⟩
  obtain ⟨rfl, ends⟩ := fusing.ends_fuseSection intact prep
  simpa only [ne_eq, not_true_eq_false, if_false, ends_bind, ends_pure] using ends

end Fusing

end Dataflow
