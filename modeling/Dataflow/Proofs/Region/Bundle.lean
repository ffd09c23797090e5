import Dataflow.Proofs.Region.Branch
import Dataflow.Proofs.Region.Sections
import Dataflow.Proofs.Transform.Line

/-! Bundles: sections whose branches are lines of maps from the start to the stop. -/

open List

namespace Dataflow.Network

variable {net : Network} {id stop dst start other : ProcessId} {key : PortKey}
  {chain rest : List ProcessId} {reg : Section}
  {chains others : List (List ProcessId)} {proc : Process}

/-- A line of maps from an out-port to a process. -/
structure Branch (net : Network) (stop : ProcessId) (key : PortKey) (chain : List ProcessId) :
    Prop where
  enters : net.remote key = chain.head?
  line : net.Line chain
  shaped : ∀ id ∈ chain, net.isMapShaped id
  leaves : ∃ last, chain.getLast? = some last ∧ net.Feeds last stop

/-- An unzip and a zip with a line of maps from each out-port of the one to the other. -/
structure Bundle (net : Network) (region : Section) (chains : List (List ProcessId)) : Prop where
  opens : ∃ process, net.process? region.start = some process ∧ process.kind.isUnzip ∧
    List.Forall₂ (net.Branch region.stop) process.outPorts chains
  closes : net.isZip region.stop

theorem Legal.admits (legal : net.Legal) (got : net.process? id = some proc) :
    proc.kind.arity.admits proc.inPorts.length proc.outPorts.length := by
  have fits := legal.fits got
  rw [Process.defect?] at fits
  by_contra refused
  simp [Process.arityDefect?, refused] at fits

theorem Legal.simple (legal : net.Legal) (shaped : net.isMapShaped id) : net.Simple id := by
  obtain ⟨proc, got, isMap⟩ := (Option.any_eq_true _ _).mp shaped
  have admitted := legal.admits got
  have counts : proc.inPorts.length = 1 ∧ proc.outPorts.length = 1 := by
    cases kind : proc.kind <;> simp_all [Kind.isMapShaped, Kind.arity, Arity.admits]
  obtain ⟨entry, ins⟩ := length_eq_one_iff.mp counts.1
  obtain ⟨exit, outs⟩ := length_eq_one_iff.mp counts.2
  exact ⟨proc, entry, exit, got, ins, outs⟩

theorem Simple.firstTarget_eq (simple : net.Simple id) (inv : net.Consistent) :
    net.firstTarget id = some dst ↔ net.Feeds id dst := by
  obtain ⟨proc, entry, exit, got, -, outs⟩ := simple
  rw [inv.feeds_iff_out got, firstTarget, got]
  simp [outs]

theorem not_isUnzip_of_isMapShaped (shaped : net.isMapShaped id) : ¬ net.isUnzip id := by
  obtain ⟨proc, got, isMap⟩ := (Option.any_eq_true _ _).mp shaped
  simp only [isUnzip, got, Option.any_some]
  cases kind : proc.kind <;> simp_all [Kind.isMapShaped, Kind.isUnzip]

theorem not_isZip_of_isMapShaped (shaped : net.isMapShaped id) : ¬ net.isZip id := by
  obtain ⟨proc, got, isMap⟩ := (Option.any_eq_true _ _).mp shaped
  simp only [isZip, got, Option.any_some]
  cases kind : proc.kind <;> simp_all [Kind.isMapShaped, Kind.isZip]

theorem not_isDelay_of_isMapShaped (shaped : net.isMapShaped id) : ¬ net.isDelay id := by
  obtain ⟨proc, got, isMap⟩ := (Option.any_eq_true _ _).mp shaped
  simp only [isDelay, got, Option.any_some]
  cases kind : proc.kind <;> simp_all [Kind.isMapShaped, Kind.isDelay]

theorem Consistent.feeds_of_remote (inv : net.Consistent) (got : net.process? id = some proc)
    (mem : key ∈ proc.outPorts) (leads : net.remote key = some dst) : net.Feeds id dst :=
  (inv.feeds_iff_out got).mpr ⟨key, mem, leads⟩

/-- In a contained region a trail of maps is a branch. -/
theorem Trail.branch (trail : net.Trail stop [] (net.remote key) chain) (inv : net.Consistent)
    (legal : net.Legal) (got : net.process? start = some proc) (unzips : proc.kind.isUnzip)
    (mem : key ∈ proc.outPorts) (apart : start ≠ stop) (confined : net.Confined start stop .output)
    (some : chain ≠ []) (shaped : ∀ id ∈ chain, net.isMapShaped id) :
    net.Branch stop key chain := by
  have passes := trail.trailed
  have enters := passes.starts some
  have line : net.Line chain := by
    refine ⟨fun id mem => legal.simple (shaped id mem), ?_, passes.once⟩
    refine List.IsChain.imp_of_mem_imp (fun a b memA _ leads => ?_) passes.chained
    exact ((legal.simple (shaped a memA)).firstTarget_eq inv).mp leads
  obtain ⟨first, starts⟩ : ∃ first, chain.head? = Option.some first := by
    cases chain with
    | nil => exact absurd rfl some
    | cons first rest => exact ⟨first, rfl⟩
  obtain ⟨last, stops⟩ : ∃ last, chain.getLast? = Option.some last := by
    cases ends : chain.getLast? with
    | none => exact absurd (getLast?_eq_none_iff.mp ends) some
    | some last => exact ⟨last, rfl⟩
  have feedsFirst : net.Feeds start first := inv.feeds_of_remote got mem (enters.trans starts)
  have isUnzip : net.isUnzip start := by simpa [Network.isUnzip, got] using unzips
  -- The start is no map, so no member of the line feeds the first one.
  have opens : ¬ net.Feeds last first := fun feeds => by
    have memFirst := mem_of_head? starts
    obtain rfl := (line.simple first memFirst).source_unique inv feeds feedsFirst
    exact not_isUnzip_of_isMapShaped (shaped last (mem_of_getLast? stops)) isUnzip
  obtain ⟨around, closed, inside⟩ := confined
  have within : ∀ id ∈ chain, around id := by
    refine Line.induction_on line.chained (List.Subset.refl _) (fun head isHead => ?_)
      fun a memA b _ inA feeds => ?_
    · obtain ⟨-, onwards⟩ := of_found got (closed start inside apart)
      obtain ⟨next, leads, isInside⟩ := onwards key mem
      rw [enters, isHead] at leads
      exact Option.some.inj leads ▸ isInside
    · obtain ⟨member, gotMem, -, onwards⟩ := closed a inA (passes.fresh a memA).1
      obtain ⟨out, isOut, leads⟩ := (inv.feeds_iff_out gotMem).mp feeds
      obtain ⟨next, leadsNext, isInside⟩ := onwards out isOut
      rw [leads] at leadsNext
      exact Option.some.inj leadsNext ▸ isInside
  have memLast := mem_of_getLast? stops
  obtain ⟨member, gotMem, ports, onwards⟩ :=
    closed last (within last memLast) (passes.fresh last memLast).1
  obtain ⟨out, isOut⟩ := exists_mem_of_ne_nil _ ports
  obtain ⟨dst, leads, -⟩ := onwards out isOut
  have feeds := inv.feeds_of_remote gotMem isOut leads
  refine ⟨enters, line, shaped, last, stops, ?_⟩
  rcases passes.ends last stops dst (((line.simple last memLast).firstTarget_eq inv).mpr feeds)
    with rfl | too
  · exact feeds
  · exact absurd too (line.target_outside inv starts stops opens feeds)

/-- A branch is what is found when its first out-ports are followed. -/
theorem Branch.trail (branch : net.Branch stop key chain) (inv : net.Consistent)
    (zips : net.isZip stop) : net.Trail stop [] (net.remote key) chain := by
  have build (rest passed : List ProcessId) (line : net.Line rest)
      (fresh : ∀ id ∈ rest, id ∉ passed)
      (shaped : ∀ id ∈ rest, net.isMapShaped id)
        (leaves : ∃ last, rest.getLast? = some last ∧ net.Feeds last stop) :
      net.Trail stop passed rest.head? rest := by
    induction rest generalizing passed with
    | nil => simp at leaves
    | cons id rest ih =>
      have notStop : id ≠ stop := by
        rintro rfl
        exact not_isZip_of_isMapShaped (shaped _ mem_cons_self) zips
      refine .step (not_or.mpr ⟨notStop, fresh id mem_cons_self⟩) ?_
      have simple := line.simple id mem_cons_self
      obtain ⟨last, isLast, feeds⟩ := leaves
      cases rest with
      | nil =>
        obtain rfl : id = last := by simpa using isLast
        rw [(simple.firstTarget_eq inv).mpr feeds]
        exact .ends (.inl rfl)
      | cons second rest =>
        rw [(simple.firstTarget_eq inv).mpr (isChain_cons_cons.mp line.chained).1]
        refine ih (passed ++ [id]) line.tail (fun other mem known => ?_)
          (fun other mem => shaped other (mem_cons_of_mem _ mem))
          ⟨last, by rwa [getLast?_cons_cons] at isLast, feeds⟩
        rcases mem_append.mp known with pre | here
        · grind
        · obtain rfl := mem_singleton.mp here
          exact (nodup_cons.mp line.once).1 mem
  rw [branch.enters]
  exact build chain [] branch.line (by simp) branch.shaped branch.leaves

theorem Branch.exists_first (branch : net.Branch stop key chain) :
    ∃ first, chain.head? = some first := by
  obtain ⟨last, stops, -⟩ := branch.leaves
  cases chain with
  | nil => simp at stops
  | cons first rest => exact ⟨first, rfl⟩

/-- From one out-port there is only one branch. -/
theorem Branch.unique (first : net.Branch stop key chain) (second : net.Branch other key rest)
    (inv : net.Consistent) (zips : net.isZip stop) (zipsOther : net.isZip other) :
    chain = rest ∧ stop = other := by
  have walk (chain rest : List ProcessId) (line : net.Line chain) (lineRest : net.Line rest)
      (shaped : ∀ id ∈ chain, net.isMapShaped id) (shapedRest : ∀ id ∈ rest, net.isMapShaped id)
      (starts : chain.head? = rest.head?)
        (leaves : ∃ last, chain.getLast? = some last ∧ net.Feeds last stop)
      (leavesRest : ∃ last, rest.getLast? = some last ∧ net.Feeds last other) : chain = rest ∧
        stop = other := by
    induction chain generalizing rest with
    | nil => simp at leaves
    | cons id chain ih =>
      cases rest with
      | nil => simp at starts
      | cons too rest =>
        obtain rfl : id = too := by simpa using starts
        have simple := line.simple id mem_cons_self
        obtain ⟨last, isLast, feeds⟩ := leaves
        obtain ⟨lastRest, isLastRest, feedsRest⟩ := leavesRest
        cases chain with
        | nil =>
          obtain rfl : id = last := by simpa using isLast
          cases rest with
          | nil =>
            obtain rfl : id = lastRest := by simpa using isLastRest
            exact ⟨rfl, simple.target_unique inv feeds feedsRest⟩
          | cons second rest =>
            -- The one branch stops where the other one goes on, but a zip is no map.
            obtain rfl := simple.target_unique inv feeds (isChain_cons_cons.mp lineRest.chained).1
            exact absurd zips (not_isZip_of_isMapShaped (shapedRest _ (by simp)))
        | cons second chain =>
          cases rest with
          | nil =>
            obtain rfl : id = lastRest := by simpa using isLastRest
            obtain rfl := simple.target_unique inv feedsRest (isChain_cons_cons.mp line.chained).1
            exact absurd zipsOther (not_isZip_of_isMapShaped (shaped _ (by simp)))
          | cons third rest =>
            obtain rfl := simple.target_unique inv (isChain_cons_cons.mp line.chained).1
              (isChain_cons_cons.mp lineRest.chained).1
            have tails := ih (second :: rest) line.tail lineRest.tail
              (fun other mem => shaped other (mem_cons_of_mem _ mem))
              (fun other mem => shapedRest other (mem_cons_of_mem _ mem)) rfl
              ⟨last, by rwa [getLast?_cons_cons] at isLast, feeds⟩
              ⟨lastRest, by rwa [getLast?_cons_cons] at isLastRest, feedsRest⟩
            exact ⟨by rw [tails.1], tails.2⟩
  exact walk chain rest first.line second.line first.shaped second.shaped
    (first.enters.symm.trans second.enters)
    first.leaves second.leaves

theorem Branch.start_eq {far : PortKey} (first : net.Branch stop key chain)
    (second : net.Branch other far rest) (inv : net.Consistent) {origin : ProcessId}
    {another : Process} (got : net.process? start = some proc) (mem : key ∈ proc.outPorts)
    (unzips : proc.kind.isUnzip) (gotOrigin : net.process? origin = some another)
    (memFar : far ∈ another.outPorts) (unzipsOrigin : another.kind.isUnzip) (shared : id ∈ chain)
    (sharedToo : id ∈ rest) : start = origin ∧ chain.head? = rest.head? := by
  obtain ⟨head, starts⟩ := first.exists_first
  have feedsHead := inv.feeds_of_remote got mem (first.enters.trans starts)
  have isUnzip : net.isUnzip start := by simpa [Network.isUnzip, got] using unzips
  have isUnzipOrigin : net.isUnzip origin := by
    simpa [Network.isUnzip, gotOrigin] using unzipsOrigin
  -- What feeds a shared process is shared as well, back to the two starts.
  have back (member src : ProcessId) (mem : member ∈ rest) (feeds : net.Feeds src member) :
      src = origin ∧ rest.head? = some member ∨ src ∈ rest := by
    by_cases here : rest.head? = some member
    · have feedsRest := inv.feeds_of_remote gotOrigin memFar (second.enters.trans here)
      exact .inl ⟨(second.line.simple _ mem).source_unique inv feeds feedsRest, here⟩
    · obtain ⟨front, previous, behind, split, -⟩ :=
        exists_previous_of_isChain second.line.chained mem here
      obtain rfl := second.line.eq_previous inv split feeds
      exact .inr (by simp [split])
  have all : ∀ member ∈ chain, member ∈ rest → start = origin ∧ chain.head? = rest.head? := by
    refine Line.induction_on first.line.chained (List.Subset.refl _) (fun member isHead mem => ?_)
      fun a memA b _ pre feeds mem => ?_
    · obtain rfl : head = member := Option.mem_unique starts isHead
      rcases back _ _ mem feedsHead with ⟨same, here⟩ | inside
      · exact ⟨same, starts.trans here.symm⟩
      · exact absurd isUnzip (not_isUnzip_of_isMapShaped (second.shaped _ inside))
    · rcases back _ _ mem feeds with ⟨rfl, -⟩ | inside
      · exact absurd isUnzipOrigin (not_isUnzip_of_isMapShaped (first.shaped _ memA))
      · exact pre inside
  exact all id shared sharedToo

namespace Bundle

theorem exists_branch (bundle : net.Bundle reg chains) (mem : chain ∈ chains) :
    ∃ proc key, net.process? reg.start = some proc ∧ proc.kind.isUnzip ∧ key ∈ proc.outPorts ∧
      net.Branch reg.stop key chain := by
  obtain ⟨proc, got, unzips, branches⟩ := bundle.opens
  obtain ⟨key, isKey, branch⟩ := exists_of_forall₂ branches mem
  exact ⟨proc, key, got, unzips, isKey, branch⟩

theorem start_eq {other : Section} (first : net.Bundle reg chains)
    (second : net.Bundle other others) (inv : net.Consistent) (shared : id ∈ chains.flatten)
    (sharedToo : id ∈ others.flatten) : reg.start = other.start := by
  obtain ⟨chain, mem, isMem⟩ := mem_flatten.mp shared
  obtain ⟨rest, memRest, isMemRest⟩ := mem_flatten.mp sharedToo
  obtain ⟨proc, key, got, unzips, isKey, branch⟩ := first.exists_branch mem
  obtain ⟨another, far, gotOther, unzipsOther, isFar, branchOther⟩ := second.exists_branch memRest
  exact (branch.start_eq branchOther inv got isKey unzips gotOther isFar unzipsOther isMem
    isMemRest).1

/-- Bundles with the same start are the same. -/
theorem unique {other : Section} (first : net.Bundle reg chains) (second : net.Bundle other others)
    (inv : net.Consistent) (legal : net.Legal) (same : reg.start = other.start) :
    reg = other ∧ chains = others := by
  obtain ⟨proc, got, unzips, branches⟩ := first.opens
  obtain ⟨too, gotToo, -, branchesOther⟩ := second.opens
  rw [← same, got] at gotToo
  cases gotToo
  have ports : proc.outPorts ≠ [] := by
    have admitted := legal.admits got
    intro empty
    cases kind : proc.kind <;> simp_all [Kind.isUnzip, Kind.arity, Arity.admits]
  have chainsEqual : chains = others := by
    refine right_unique_forall₂'
      (R := fun key chain => ∃ stop, net.isZip stop ∧ net.Branch stop key chain)
      (fun key chain rest => ?_)
        (branches.imp fun key chain branch => ⟨reg.stop, first.closes, branch⟩)
      (branchesOther.imp fun key chain branch => ⟨other.stop, second.closes, branch⟩)
    rintro ⟨stop, zips, branch⟩ ⟨stop', zips', branch'⟩
    exact (branch.unique branch' inv zips zips').1
  have stopsEqual : reg.stop = other.stop := by
    cases outs : proc.outPorts with
    | nil => exact absurd outs ports
    | cons key keys =>
      rw [outs] at branches branchesOther
      cases branches with
      | cons branch _ =>
        cases branchesOther with
        | cons branch' _ => exact (branch.unique branch' inv first.closes second.closes).2
  obtain ⟨start, stop⟩ := reg
  obtain ⟨start', stop'⟩ := other
  obtain rfl : start = start' := same
  obtain rfl : stop = stop' := stopsEqual
  exact ⟨rfl, chainsEqual⟩

section

variable (bundle : net.Bundle reg chains)

include bundle

theorem branchChains_eq (inv : net.Consistent) :
    net.branchChains reg = .ok chains := by
  obtain ⟨proc, got, -, branches⟩ := bundle.opens
  obtain ⟨has, asked, trails⟩ := inv.branchChains_eq reg got
  rw [asked]
  refine congrArg Except.ok
    (right_unique_forall₂' (fun key chain rest first second => first.unique second) trails ?_)
  exact branches.imp fun key chain branch => branch.trail inv bundle.closes

theorem exist (mem : chain ∈ chains) : chain ⊆ net.ids := by
  obtain ⟨proc, key, -, -, -, branch⟩ := bundle.exists_branch mem
  intro id isMem
  obtain ⟨member, -, -, got, -⟩ := branch.line.simple id isMem
  exact mem_ids.mpr ⟨member, got⟩

theorem dataParallelLength?_eq (inv : net.Consistent) {len : Nat}
    (unif : net.Uniform chains len) : net.dataParallelLength? reg = .ok (some len) := by
  obtain ⟨measured, asked, right⟩ :=
    Network.dataParallelLength?_eq (bundle.branchChains_eq inv) fun chain mem => bundle.exist mem
  rw [asked, (right len).mpr unif]

end

end Bundle

theorem Reports.exists_length (reports : net.Reports reg) (inv : net.Consistent)
    (legal : net.Legal) :
    ∃ measured, net.dataParallelLength? reg = .ok measured ∧
      ∀ len, measured = some len ↔ ∃ chains, net.Bundle reg chains ∧ net.Uniform chains len := by
  obtain ⟨proc, got, unzips⟩ := (Option.any_eq_true _ _).mp reports.isUnzip_start
  obtain ⟨chains, asked, trails⟩ := inv.branchChains_eq reg got
  have exist : ∀ chain ∈ chains, chain ⊆ net.ids := fun chain mem => by
    obtain ⟨key, -, trail⟩ := exists_of_forall₂ trails mem
    exact trail.exist inv fun id leads => inv.mem_ids_of_remote leads
  obtain ⟨measured, measures, right⟩ := dataParallelLength?_eq asked exist
  refine ⟨measured, measures, fun len => ⟨fun isLen => ?_, ?_⟩⟩
  · have unif := (right len).mp isLen
    have apart : reg.start ≠ reg.stop := Ne.symm (reports.stop_ne_of_isUnzip reports.isUnzip_start)
    refine ⟨chains, ⟨⟨proc, got, unzips, ?_⟩, reports.1⟩, unif⟩
    refine forall₂_iff_zip.mpr ⟨trails.length_eq, fun {key chain} paired => ?_⟩
    have mem := (of_mem_zip paired)
    have trail := (forall₂_iff_zip.mp trails).2 paired
    have some : chain ≠ [] := fun empty => by
      have len := unif.lengths chain mem.2
      have positive := unif.positive
      simp [empty] at len
      omega
    exact trail.branch inv legal got unzips mem.1 apart reports.2.2.1 some (unif.shaped chain mem.2)
  · rintro ⟨has, bundle, unif⟩
    rw [bundle.branchChains_eq inv] at asked
    cases asked
    exact (right len).mpr unif

/-- The data-parallel sections are those that are reported and are uniform bundles. -/
theorem Consistent.dataParallelSections_eq (inv : net.Consistent) (legal : net.Legal) :
    ∃ regs notes, net.dataParallelSections = .ok (regs, notes) ∧ (regs.map (·.1.stop)).Nodup ∧
      (∀ note ∈ notes, note.isError = false) ∧
      ∀ reg len, (reg, len) ∈ regs ↔
        net.Reported reg ∧ ∃ chains, net.Bundle reg chains ∧ net.Uniform chains len := by
  obtain ⟨regs, asked, reported, once⟩ := inv.sections_eq
  -- Every section that is reported can be measured.
  let measure (reg : Section) : Option Nat := (net.dataParallelLength? reg).toOption.join
  have measures : ∀ reg ∈ regs, net.dataParallelLength? reg = .ok (measure reg) := fun reg mem => by
    obtain ⟨measured, ans, -⟩ := ((reported reg).mp mem).1.exists_length inv legal
    simp [measure, ans, Except.toOption]
  have all : regs.mapM (fun reg => return (reg, ← net.dataParallelLength? reg)) =
      .ok (regs.map fun reg => (reg, measure reg)) :=
    mapM_eq_ok fun reg mem => by rw [measures reg mem]; rfl
  let others := (regs.map fun reg => (reg, measure reg)).filter fun entry => entry.2.isNone
  refine ⟨regs.filterMap fun reg => (measure reg).map (reg, ·),
    others.map fun entry => notDataParallel entry.1, ?_, ?_, ?_, fun reg len => ?_⟩
  · rw [dataParallelSections, asked]
    show (regs.mapM fun reg => return (reg, ← net.dataParallelLength? reg)) >>= _ = _
    rw [all]
    simp only [bind, Except.bind, filterMap_map]
    rfl
  · have inside : ((regs.filterMap fun reg => (measure reg).map (reg, ·)).map (·.1)).Sublist
        regs := by
      clear asked reported once measures all
      induction regs with
      | nil => exact .slnil
      | cons reg regs ih =>
        cases measured : measure reg with
        | none => simpa [measured] using ih.cons reg
        | some len => simpa [measured] using ih.cons_cons reg
    have stops := (inside.map (·.stop)).nodup once
    rwa [map_map] at stops
  · intro note mem
    obtain ⟨entry, -, rfl⟩ := mem_map.mp mem
    rfl
  · rw [mem_filterMap]
    constructor
    · rintro ⟨has, mem, measured⟩
      obtain ⟨too, isLen, same⟩ := Option.map_eq_some_iff.mp measured
      cases same
      have isReported := (reported reg).mp mem
      obtain ⟨ans, asks, right⟩ := isReported.1.exists_length inv legal
      rw [measures reg mem] at asks
      cases asks
      exact ⟨isReported, (right len).mp isLen⟩
    · rintro ⟨isReported, bundle⟩
      have mem := (reported reg).mpr isReported
      obtain ⟨ans, asks, right⟩ := isReported.1.exists_length inv legal
      rw [measures reg mem] at asks
      cases asks
      exact ⟨reg, mem, by rw [(right len).mpr bundle]; rfl⟩

end Dataflow.Network
