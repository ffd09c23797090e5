import Dataflow.Proofs.Transform.Prepared

/-! Bringing all data-parallel sections to one process on each branch, so that they can be replaced
by parallel maps. -/

open List

namespace Dataflow.Network

variable {net next : Network} {id : ProcessId} {reg other : Section}
  {chains tails others : List (List ProcessId)}
  {chain : List ProcessId} {new : ProcessId → Prop} {origin : ProcessId}
  {entries : List (Section × Nat)} {kept : Network → Prop}
  {len count : Nat}

theorem Bundle.exists_process (bundle : net.Bundle reg chains) (isMem : id ∈ reg.members chains) :
    ∃ proc, net.process? id = some proc := by
  rcases Section.mem_members.mp isMem with rfl | rfl | ⟨chain, mem, onChain⟩
  · obtain ⟨proc, got, -⟩ := bundle.opens
    exact ⟨proc, got⟩
  · obtain ⟨proc, got, -⟩ := (Option.any_eq_true _ _).mp bundle.closes
    exact ⟨proc, got⟩
  · exact mem_ids.mp (bundle.exist mem onChain)

/-- Sections that wait for a transformation: reported bundles of the given lengths, with different
stops. -/
structure Awaiting (net : Network) (entries : List (Section × Nat)) : Prop where
  bundles : ∀ entry ∈ entries, net.Reports entry.1 ∧
    ∃ chains, net.Bundle entry.1 chains ∧ net.Uniform chains entry.2
  once : (entries.map (·.1.stop)).Nodup

/-- Data-parallel sections that have more than one process on a branch are accepted ones. -/
def LongOnly (net : Network) (accepted : Section → Nat → Prop) : Prop :=
  ∀ {region chains length}, net.Reported region → net.Bundle region chains →
    net.Uniform chains length → 1 < length → accepted region length

/-- Sections that wait, among which are all long ones. -/
structure Reducing (entries : List (Section × Nat)) (net : Network) : Prop where
  ready : net.Ready
  awaiting : net.Awaiting entries
  long : net.LongOnly fun other length => (other, length) ∈ entries

/-- A section at work, among those that wait and are the only other long ones. -/
structure Shortening (region : Section) (entries : List (Section × Nat)) (net : Network) :
    Prop where
  ready : net.Ready
  reports : net.Reports region
  awaiting : net.Awaiting entries
  others : ∀ entry ∈ entries, entry.1.stop ≠ region.stop
  long : net.LongOnly fun other length => other = region ∨ (other, length) ∈ entries

theorem Reducing.shortening (reducing : net.Reducing ((reg, len) :: entries)) :
    net.Shortening reg entries := by
  have once := reducing.awaiting.once
  rw [map_cons, nodup_cons] at once
  refine ⟨reducing.ready, (reducing.awaiting.bundles _ mem_cons_self).1,
    ⟨fun entry mem => reducing.awaiting.bundles entry (mem_cons_of_mem _ mem), once.2⟩,
    fun entry mem same => ?_, fun reported bundle unif isLong => ?_⟩
  · grind
  · rcases mem_cons.mp (reducing.long reported bundle unif isLong) with same | mem
    · exact .inl (congrArg Prod.fst same)
    · exact .inr mem

theorem Shortening.reducing (shortening : net.Shortening reg entries)
    (bundle : net.Bundle reg chains) (short : ∀ chain ∈ chains, chain.length ≤ 1) :
    net.Reducing entries := by
  have ready := shortening.ready
  refine ⟨ready, shortening.awaiting, fun {other others len} reported bundleOther unif isLong => ?_⟩
  rcases shortening.long reported bundleOther unif isLong with rfl | mem
  · obtain ⟨-, rfl⟩ := bundle.unique bundleOther ready.inv ready.legal rfl
    obtain ⟨chain, isChain⟩ := bundle.exists_chain ready.legal
    have few := short chain isChain
    rw [unif.lengths chain isChain] at few
    omega
  · exact mem

namespace Reworked

variable (rework : net.Reworked next reg chains new origin tails)

include rework

theorem outer_of_mem (bundle : net.Bundle other others) (apart : reg.stop ≠ other.stop)
    (isMem : id ∈ other.members others) :
    id ∉ reg.members chains ∧ id ∉ chains.flatten ∧ ¬ new id := by
  have outside :=
    rework.before.disjoint bundle rework.ready.inv rework.ready.legal apart isMem
  have outer : id ∉ chains.flatten :=
    fun onBranch => outside (by simp only [Section.members, mem_cons, onBranch, or_true])
  obtain ⟨proc, got⟩ := bundle.exists_process isMem
  exact ⟨outside, outer, fun isNew => outer (rework.fresh isNew got)⟩

theorem awaiting (awaiting : net.Awaiting entries)
    (others : ∀ entry ∈ entries, entry.1.stop ≠ reg.stop) : next.Awaiting entries := by
  refine ⟨fun entry mem => ?_, awaiting.once⟩
  obtain ⟨reports, branches, bundle, unif⟩ := awaiting.bundles entry mem
  have outer {id} (isMem : id ∈ entry.1.members branches) :=
    rework.outer_of_mem bundle (others entry mem).symm isMem
  have isStart : entry.1.start ∈ entry.1.members branches := Section.mem_members.mpr (.inl rfl)
  have isStop : entry.1.stop ∈ entry.1.members branches := Section.mem_members.mpr (.inr (.inl rfl))
  have onBranch {id} (isMem : id ∈ branches.flatten) : id ∈ entry.1.members branches :=
    Section.mem_members.mpr (.inr (.inr (mem_flatten.mp isMem)))
  refine ⟨rework.reports_other ?_ (outer isStop).2.1 (outer isStop).2.2 reports, branches, ?_, ?_⟩
  · exact fun same => (outer isStart).1 (Section.mem_members.mpr (.inl same))
  · exact rework.bridge.keeps.bundle rework.ready.inv rework.readyNext.inv
      (outer isStart).2 (outer isStop).2
      (fun id isMem => (outer (onBranch isMem)).2) bundle
  · exact rework.bridge.keeps.uniform (fun id isMem => (outer (onBranch isMem)).2) unif

theorem longOnly (reports : net.Reports reg) {accepted : Section → Nat → Prop}
    (long : net.LongOnly fun other len => other = reg ∨ accepted other len)
    (apart : ∀ {other others len}, next.Bundle other others → next.Uniform others len → 1 < len →
      other.stop ≠ reg.stop → ∀ id ∈ other.members others, ¬ new id) :
    next.LongOnly fun other len => other = ⟨origin, reg.stop⟩ ∨ accepted other len := by
  intro other others len reported bundle unif isLong
  by_cases same : other.stop = reg.stop
  · exact .inl (reported.1.unique (rework.reports_origin reports) same)
  -- Any other long section is outside, so that it was there before.
  have outer {id} (isMem : id ∈ other.members others) : ¬ new id ∧ id ∉ chains.flatten := by
    have notNew := apart bundle unif isLong same id isMem
    obtain ⟨proc, got⟩ := bundle.exists_process isMem
    exact ⟨notNew, fun onBranch => notNew (rework.gone onBranch got)⟩
  have isStart : other.start ∈ other.members others := Section.mem_members.mpr (.inl rfl)
  have isStop : other.stop ∈ other.members others := Section.mem_members.mpr (.inr (.inl rfl))
  have onBranch {id} (isMem : id ∈ others.flatten) : id ∈ other.members others :=
    Section.mem_members.mpr (.inr (.inr (mem_flatten.mp isMem)))
  have bundlePre :=
    rework.bridge.symm.keeps.bundle rework.readyNext.inv rework.ready.inv
      (outer isStart)
      (outer isStop) (fun id isMem => outer (onBranch isMem)) bundle
  have unifPre := rework.bridge.symm.keeps.uniform (fun id isMem => outer (onBranch isMem)) unif
  have reportedPre :=
    rework.reported reports (outer isStart).1 (outer isStop).2 (outer isStop).1 reported
  rcases long reportedPre bundlePre unifPre isLong with rfl | isAccepted
  · exact absurd rfl same
  · exact .inr isAccepted

theorem shortening (shortening : net.Shortening reg entries)
    (apart : ∀ {other others len}, next.Bundle other others → next.Uniform others len → 1 < len →
      other.stop ≠ reg.stop → ∀ id ∈ other.members others, ¬ new id) :
    next.Shortening ⟨origin, reg.stop⟩ entries where
  ready := rework.readyNext
  reports := rework.reports_origin shortening.reports
  awaiting := rework.awaiting shortening.awaiting shortening.others
  others := shortening.others
  long := rework.longOnly shortening.reports shortening.long apart

end Reworked

section Coalescing

variable {front back : List (List ProcessId)} {first last fresh : ProcessId} {entry exit : PortKey}
  {hier : Hierarchy}

theorem Sealed.reworked_chain (isSealed : net.Sealed reg (front ++ chain :: back))
    (ready : net.Ready) (starts : chain.head? = some first) (stops : chain.getLast? = some last)
    (exc : net.Excisable first last chain entry exit)
    (repl : net.Replaced chain entry exit fresh (net.coalesced chain) hier next) :
    net.Reworked next reg (front ++ chain :: back) (· ∈ (front ++ [fresh] :: back).flatten)
      reg.start (front ++ [fresh] :: back) := by
  have inv := ready.inv
  have mem : chain ∈ front ++ chain :: back := by simp
  have bundle := isSealed.toBundle
  have readyNext := bundle.ready_replaced ready mem starts stops exc repl
  have after := (isSealed.replaced_chain inv starts stops exc repl).toBundle
  have closes : net.Closes chain entry := by
    obtain ⟨front, got, ins⟩ := exc.starts
    obtain ⟨proc, key, -, -, -, branch⟩ := bundle.exists_branch mem
    exact branch.line.closes inv starts got ins
  have funnel := bundle.funnel inv ready.legal
  have funnelNext := after.funnel readyNext.inv readyNext.legal
  have memPre {id} : id ∈ (front ++ chain :: back).flatten ↔ id ∈ chain ∨
      id ∈ (front ++ back).flatten := by
    simp only [flatten_append, flatten_cons, mem_append]
    tauto
  have memAfter {id} : id ∈ (front ++ [fresh] :: back).flatten ↔ id = fresh ∨
      id ∈ (front ++ back).flatten := by
    simp only [flatten_append, flatten_cons, mem_append, mem_singleton]
    tauto
  have agrees {id proc key dir} (outer : id ∉ (front ++ chain :: back).flatten)
      (got : net.process? id = some proc) (isKey : key ∈ proc.ports dir) :
      net.Agrees next (· ∈ (front ++ chain :: back).flatten)
      (· ∈ (front ++ [fresh] :: back).flatten) key := by
    obtain ⟨port, has, owned, -⟩ := inv.listed got isKey
    have stays : port.owner ∉ chain := fun onChain => outer (memPre.mpr (.inl (owned ▸ onChain)))
    cases leads : net.remote key with
    | none =>
      refine .inl ⟨?_, by simp [leads]⟩
      -- A port that leads nowhere is not connected.
      cases conn : port.connection with
      | none =>
        rw [leads]
        simp [remote, repl.port_of has stays, conn]
      | some other =>
        obtain ⟨peer, hasPeer, -⟩ := inv.linked has conn
        simp [remote, has, conn, hasPeer] at leads
    | some dst =>
      by_cases onChain : dst ∈ chain
      · refine .inr ⟨⟨dst, leads, memPre.mpr (.inl onChain)⟩, fresh, ?_, memAfter.mpr (.inl rfl)⟩
        exact repl.remote_inside inv exc closes has stays leads onChain
      · have same := repl.remote_of inv exc has stays leads onChain
        by_cases onBranch : dst ∈ (front ++ back).flatten
        · exact .inr
            ⟨⟨dst, leads, memPre.mpr (.inr onBranch)⟩, dst, same, memAfter.mpr (.inr onBranch)⟩
        · refine .inl ⟨same.trans leads.symm, fun too leadsToo => ?_⟩
          obtain rfl := Option.mem_unique leads leadsToo
          obtain ⟨proc, gotDst⟩ := mem_ids.mp (inv.mem_ids_of_remote leads)
          have known := repl.ne_fresh gotDst
          exact ⟨fun isMem => (memPre.mp isMem).elim onChain onBranch,
            fun isMem => (memAfter.mp isMem).elim known onBranch⟩
  refine ⟨ready, readyNext, bundle, after,
    ⟨funnel, funnelNext, fun outer outerNext => ?_,
      fun outer _ got isKey => agrees outer got isKey⟩,
    fun isMem => isMem, .inl rfl, fun isNew got => ?_, fun isMem got => ?_, ?_, ?_⟩
  · rw [repl.processes, if_neg fun same => outerNext (memAfter.mpr (.inl same)),
      if_neg fun onChain => outer (memPre.mpr (.inl onChain))]
  · rcases memAfter.mp isNew with rfl | other
    · exact absurd rfl (repl.ne_fresh got)
    · exact memPre.mpr (.inr other)
  · rcases repl.process_cases got with ⟨rfl, -⟩ | ⟨stays, -⟩
    · exact memAfter.mpr (.inl rfl)
    · grind
  · intro id proc key src outer _ got isKey leads isMem
    rcases agrees outer got (show key ∈ proc.ports .input from isKey)
      with ⟨-, outside⟩ | ⟨-, other, leadsNext, isNew⟩
    · exact absurd isMem (outside src leads).1
    · exact ⟨other, isNew, leadsNext⟩
  · intro id emits
    have notNew : id ∉ (front ++ [fresh] :: back).flatten := fun isNew =>
      funnelNext.not_emits readyNext.inv readyNext.legal isNew emits
    have notFresh : id ≠ fresh := fun same => notNew (memAfter.mpr (.inl same))
    have emitsPre : net.Emits id := by
      obtain ⟨key, isOut, port, has, rfl⟩ := emits
      rw [repl.outputs] at isOut
      obtain ⟨old, isOld, rfl⟩ := mem_map.mp isOut
      rcases repl.port_cases has with ⟨-, too, -, rfl⟩ | ⟨-, too, -, rfl⟩ | ⟨too, hasToo, -, rfl⟩
      · exact absurd rfl notFresh
      · exact absurd rfl notFresh
      · unfold substitute at hasToo
        split at hasToo
        · exact absurd (lt_nextKey hasToo) (Nat.lt_irrefl _)
        split at hasToo
        · exact absurd (lt_nextKey hasToo) (Nat.not_lt_of_le (Nat.le_succ _))
        · exact ⟨old, isOld, too, hasToo, rfl⟩
    exact ⟨emitsPre, fun isMem => funnel.not_emits inv ready.legal isMem emitsPre, notNew⟩

theorem Shortening.replaced_chain (shortening : net.Shortening reg entries)
    (bundle : net.Bundle reg (front ++ chain :: back)) (starts : chain.head? = some first)
    (stops : chain.getLast? = some last) (exc : net.Excisable first last chain entry exit)
    (repl : net.Replaced chain entry exit fresh (net.coalesced chain) hier next) :
    next.Bundle reg (front ++ [fresh] :: back) ∧ next.Shortening reg entries := by
  have ready := shortening.ready
  have isSealed := shortening.reports.sealed ready.inv bundle
  have rework := isSealed.reworked_chain ready starts stops exc repl
  refine ⟨rework.after, rework.shortening shortening ?_⟩
  intro other others len bundleOther _ _ apart id isMem isNew
  refine rework.after.disjoint bundleOther rework.readyNext.inv rework.readyNext.legal
    (Ne.symm apart) isMem ?_
  exact Section.mem_members.mpr (.inr (.inr (mem_flatten.mp isNew)))

end Coalescing

/-- What a cut leaves of a section has nothing to do with other long sections. -/
theorem Severs.apart {cut : Cut} (severs : net.Severs reg chains cut next)
    (bundle : next.Bundle other others) (unif : next.Uniform others len) (isLong : 1 < len)
    (elsewhere : other.stop ≠ reg.stop) (isMem : id ∈ other.members others) :
    ¬ Severs.Inside chains cut id := by
  have new := severs.readyNext
  have behind :=
    severs.bundle_behind.disjoint bundle new.inv new.legal (Ne.symm elsewhere) isMem
  -- In front of the cut there is one process on each branch.
  have stopsElsewhere : cut.zip ≠ other.stop := fun same => by
    obtain ⟨chain, mem⟩ := bundle.exists_chain new.legal
    obtain ⟨proc, key, -, -, -, branch⟩ := bundle.exists_branch mem
    obtain ⟨last, isLast, feeds⟩ := branch.leaves
    obtain ⟨rest, isFirst⟩ := severs.source_zip (same ▸ feeds)
    have starts : reg.start = other.start := severs.bundle_front.start_eq bundle new.inv
      (mem_flatten.mpr ⟨_, mem_map_of_mem isFirst, mem_cons_self⟩)
      (mem_flatten.mpr ⟨chain, mem, mem_of_getLast? isLast⟩)
    obtain ⟨-, rfl⟩ := severs.bundle_front.unique bundle new.inv new.legal starts
    obtain ⟨whole, -, rfl⟩ := mem_map.mp mem
    have counts := unif.lengths _ mem
    rw [length_take] at counts
    omega
  have front := severs.bundle_front.disjoint bundle new.inv new.legal stopsElsewhere isMem
  rintro (onBranch | rfl | rfl)
  · obtain ⟨chain, mem, onChain⟩ := mem_flatten.mp onBranch
    cases chain with
    | nil => cases onChain
    | cons first rest =>
      rcases mem_cons.mp onChain with rfl | inRest
      · exact front (Section.mem_members_of_mem (mem_map_of_mem mem) mem_cons_self)
      · exact behind (Section.mem_members_of_mem (mem_map_of_mem mem) inRest)
  · exact front (Section.mem_members.mpr (.inr (.inl rfl)))
  · exact behind (Section.mem_members.mpr (.inl rfl))

theorem Bundle.run_cutAt (bundle : net.Bundle reg chains) (ready : net.Ready)
    (long : ∀ chain ∈ chains, 1 < chain.length) {hier : Hierarchy} (top : hier.parent? = none)
    (branches : Nat) :
    ∃ cut next, (Edit.cutAt hier branches (chains.filterMap (·[0]?))).run net = .ok () next ∧
      cut.hierarchy = hier ∧ net.Severs reg chains cut next := by
  obtain ⟨lanes, stage⟩ :=
    bundle.exists_stage ready.inv (show ∀ chain ∈ chains, 0 + 1 < chain.length from long)
  have some : chains.filterMap (·[0]?) ≠ [] := by
    obtain ⟨chain, mem⟩ := bundle.exists_chain ready.legal
    apply ne_nil_of_length_pos
    rw [stage.exits.length_eq, ← stage.length_eq]
    exact length_pos_of_mem mem
  obtain ⟨cut, next, runs, place, rfl, cuts⟩ :=
    Network.run_cutAt ready.inv stage.exits (bundle.nodup_stage ready.inv stage) some
      top branches
  exact ⟨cut, next, runs, place, ready, bundle, stage, cuts⟩

theorem run_cuts (holds : ProcessId → List (List ProcessId) → Network → Prop) {hier : Hierarchy}
    {branches : Nat}
    (step : ∀ {origin tails cur}, holds origin tails cur → (∀ chain ∈ tails, 1 < chain.length) →
      ∃ unzip next, (Edit.cutAt hier branches (tails.filterMap (·[0]?))).run cur = .ok () next ∧
        holds unzip (tails.map List.tail) next) {start : ProcessId} (first : holds start chains net)
    (lengths : ∀ chain ∈ chains, chain.length = len) (bound : count < len) :
    ∃ origin last,
      ((List.range count).forM fun pos => Edit.cutAt hier branches (chains.filterMap (·[pos]?))).run
        net =
        .ok () last ∧ holds origin (chains.map (List.drop count)) last := by
  induction count with
  | zero =>
    refine ⟨start, net, rfl, ?_⟩
    rwa [show chains.map (List.drop 0) = chains from map_id chains]
  | succ count ih =>
    obtain ⟨origin, between, runs, holdsBetween⟩ := ih (Nat.lt_of_succ_lt bound)
    have column : (chains.map (List.drop count)).filterMap (·[0]?) =
        chains.filterMap (·[count]?) := by
      rw [filterMap_map]
      exact filterMap_congr fun chain _ => by simp
    obtain ⟨unzip, last, runsCut, holdsLast⟩ := step holdsBetween fun chain mem => by
      obtain ⟨whole, isWhole, rfl⟩ := mem_map.mp mem
      rw [length_drop, lengths whole isWhole]
      omega
    rw [column] at runsCut
    refine ⟨unzip, last, ?_, ?_⟩
    · rw [range_succ, Edit.run_forM_append runs, Edit.run_forM_singleton]
      exact runsCut
    · rw [map_map] at holdsLast
      rwa [show List.tail ∘ List.drop count = List.drop (count + 1) from funext fun chain =>
        tail_drop] at holdsLast

section

variable {holds : Network → Prop} (shortening : net.Shortening reg entries)
  (bundle : net.Bundle reg chains) (start : holds net)
  (keep : ∀ {cur next reg chains cut}, holds cur → cur.Severs reg chains cut next →
    cut.hierarchy.parent? = none → holds next)

include shortening bundle start keep

theorem Shortening.run_cutAt (long : ∀ chain ∈ chains, 1 < chain.length) {hier : Hierarchy}
    (top : hier.parent? = none) (branches : Nat) :
    ∃ unzip next, (Edit.cutAt hier branches (chains.filterMap (·[0]?))).run net = .ok () next ∧
      next.Bundle ⟨unzip, reg.stop⟩ (chains.map List.tail) ∧
      next.Shortening ⟨unzip, reg.stop⟩ entries ∧ holds next := by
  obtain ⟨cut, next, runs, place, severs⟩ := bundle.run_cutAt shortening.ready long top branches
  refine ⟨cut.unzip, next, runs, severs.bundle_behind, severs.reworked.shortening shortening ?_,
    keep start severs (place ▸ top)⟩
  intro other others len bundleOther unif isLong elsewhere id isMem
  exact severs.apart bundleOther unif isLong elsewhere isMem

theorem Shortening.ends_splitSection (unif : net.Uniform chains len) (long : 1 < len) :
    (Edit.splitSection reg len).Ends net (fun _ next => next.Reducing entries ∧ holds next) fun _ =>
      ¬ net.TopLevel := by
  obtain ⟨proc, got, -⟩ := bundle.opens
  have inv := shortening.ready.inv
  rw [Edit.Ends]
  cases top : proc.hierarchy.parent? with
  | none =>
    obtain ⟨origin, last, runs, bundleLast, shorteningLast, held⟩ :=
      Network.run_cuts
        (fun origin tails cur => cur.Bundle ⟨origin, reg.stop⟩ tails ∧
          cur.Shortening ⟨origin, reg.stop⟩ entries ∧ holds cur)
        (fun held long => held.2.1.run_cutAt held.1 held.2.2 keep long top chains.length)
        ⟨bundle, shortening, start⟩ unif.lengths (show len - 1 < len by omega)
    rw [bundle.run_splitSection inv got, runs]
    refine ⟨shorteningLast.reducing bundleLast fun chain mem => ?_, held⟩
    obtain ⟨whole, isWhole, rfl⟩ := mem_map.mp mem
    rw [length_drop, unif.lengths whole isWhole]
    omega
  | some parent =>
    obtain ⟨fault, last, refuses⟩ :=
      bundle.splitSection_refused inv (fun got => shortening.ready.legal.leaves got) unif.some
        unif.lengths long got top
    rw [refuses]
    exact fun all => by simp [all got] at top

end

theorem Ready.reducing (ready : net.Ready) :
    ∃ regs notes, net.dataParallelSections = .ok (regs, notes) ∧ Report.Harmless { notes } ∧
      net.Reducing regs := by
  obtain ⟨regs, notes, asked, pending, harmless, has⟩ := ready.dataParallelSections_eq
  refine ⟨regs, notes, asked, harmless, ready, ⟨fun entry mem => ?_, pending.once⟩,
    fun reported bundle unif _ => ?_⟩
  · obtain ⟨reported, chains, bundle, unif⟩ := (has entry.1 entry.2).mp mem
    exact ⟨reported.1, chains, bundle, unif⟩
  · grind

theorem Reducing.tail (reducing : net.Reducing ((reg, len) :: entries)) (short : len ≤ 1) :
    net.Reducing entries := by
  refine ⟨reducing.ready, reducing.shortening.awaiting, fun reported bundle unif isLong => ?_⟩
  rcases mem_cons.mp (reducing.long reported bundle unif isLong) with same | mem
  · cases same
    omega
  · exact mem

theorem Ready.ends_splitSegments (ready : net.Ready) (holds : Network → Prop) (start : holds net)
    (keep : ∀ {cur next reg chains cut}, holds cur → cur.Severs reg chains cut next →
      cut.hierarchy.parent? = none → holds next) :
    Edit.splitSegments.Ends net (fun report next => report.Harmless ∧ next.Reducing [] ∧ holds next)
      fun _ => ∃ cur, holds cur ∧ ¬ cur.TopLevel := by
  obtain ⟨regs, notes, asked, harmless, reducing⟩ := ready.reducing
  unfold Edit.splitSegments
  simp only [Edit.ends_bind, Edit.ends_get, ready.legal.ensureFlat_eq, Edit.ends_answer, asked]
  refine Edit.ends_foldlM
    (fun rest (report : Report) cur => report.Harmless ∧ cur.Reducing rest ∧ holds cur) ?_
    ⟨harmless, reducing, start⟩
  rintro ⟨reg, len⟩ rest report cur ⟨harmless, reducing, held⟩
  by_cases short : len ≤ 1
  · simpa [short] using ⟨harmless, reducing.tail short, held⟩
  · obtain ⟨-, chains, bundle, unif⟩ := reducing.awaiting.bundles _ mem_cons_self
    simp only [short, if_false, Edit.ends_bind, Edit.ends_pure]
    exact (reducing.shortening.ends_splitSection bundle held keep unif
      (Nat.lt_of_not_le short)).mono
      (fun _ _ done => ⟨harmless, done⟩) fun _ fault => ⟨cur, held, fault⟩

theorem Prepared.ends_splitSegments (prep : net.Prepared kept) :
    Edit.splitSegments.Ends net
      (fun report next => report.Harmless ∧ next.Reducing [] ∧ next.Prepared kept)
      fun _ => False :=
  (prep.ready.ends_splitSegments (Prepared kept) prep fun held severs top =>
    held.severed severs top).mono
    (fun _ _ done => done) fun _ ⟨_, held, low⟩ => low held.top

theorem Reducing.ends_fuseSections (reduced : net.Reducing []) (prep : net.Prepared kept) :
    Edit.fuseSections.Ends net (fun report next => report.Harmless ∧ next.Prepared kept) fun _ =>
      False := by
  -- No section is long any more, so that each one is fused, which keeps the rest pending.
  have ready := reduced.ready
  obtain ⟨regs, notes, asked, pending, harmless, has⟩ := ready.dataParallelSections_eq
  have single : ∀ entry ∈ regs, entry.2 = 1 := fun entry mem => by
    obtain ⟨reported, chains, bundle, unif⟩ := (has entry.1 entry.2).mp mem
    by_contra other
    have positive := unif.positive
    exact not_mem_nil (reduced.long reported bundle unif (by omega))
  have start : Report.Harmless { notes } := harmless
  unfold Edit.fuseSections
  simp only [Edit.ends_bind, Edit.ends_get, ready.legal.ensureFlat_eq, Edit.ends_answer, asked]
  refine (Edit.ends_foldlM
    (fun rest (report : Report) cur => report.Harmless ∧ cur.Prepared kept ∧ cur.Pending rest ∧
      ∀ entry ∈ rest, entry.2 = 1) ?_ ⟨start, prep, pending, single⟩).imp
      fun _ _ done => ⟨done.1, done.2.1⟩
  rintro ⟨reg, len⟩ rest report cur ⟨harmless, prep, pending, single⟩
  have ready := prep.ready
  obtain rfl : len = 1 := single _ mem_cons_self
  obtain ⟨chains, isSealed, unif⟩ := pending.bundles _ mem_cons_self
  obtain ⟨proc, got, -⟩ := isSealed.opens
  have top := prep.top got
  obtain ⟨entry, exit, fresh, next, runs, exc, repl⟩ := isSealed.run_fuseSection ready got top
  have steps : (Edit.fuseSection reg).Ends cur (fun _ after => after = next) fun _ => False := by
    rw [Edit.Ends, runs]
  simp only [ne_eq, not_true_eq_false, if_false, Edit.ends_bind, Edit.ends_pure]
  refine steps.imp fun _ after same => ?_
  subst same
  refine ⟨harmless, prep.replaced (isSealed.ready_replaced unif ready exc repl) top exc rfl repl,
    ?_, fun entry mem => single entry (mem_cons_of_mem _ mem)⟩
  have new : cur.Pending rest := by
    have once := pending.once
    rw [map_cons, nodup_cons] at once
    exact ⟨fun entry mem => pending.bundles entry (mem_cons_of_mem _ mem), once.2⟩
  exact new.replaced repl ready.inv exc fun other mem others bundle id isMem =>
    pending.disjoint ready isSealed.toBundle mem bundle isMem

end Dataflow.Network
