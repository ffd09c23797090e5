import Dataflow.Proofs.Meaning.Split
import Dataflow.Proofs.Region.Span
import Dataflow.Proofs.Transform.Coalesced
import Mathlib.Algebra.GroupWithZero.Nat

/-! What the shortening of data-parallel sections does to a network: it touches long sections only,
and leaves none. -/

open List

namespace Dataflow.Network

open Relation

variable {net next : Network} {id : ProcessId} {region : Section} {chains : List (List ProcessId)}
  {entries : List (Section × Nat)}
  {report : Report}

theorem Reducing.exists_sections (reduced : net.Reducing []) :
    ∃ regs, net.sections = .ok regs ∧
      ∀ region ∈ regs, net.dataParallelLength? region = .ok none ∨
        net.dataParallelLength? region = .ok (some 1) := by
  obtain ⟨inv, legal⟩ :=
    (⟨reduced.ready.inv, reduced.ready.legal⟩ : net.Consistent ∧ net.Legal)
  obtain ⟨regs, asked, reported, -⟩ := inv.sections_eq
  refine ⟨regs, asked, fun region mem => ?_⟩
  have isReported := (reported region).mp mem
  obtain ⟨measured, measures, right⟩ := isReported.1.exists_length inv legal
  rw [measures]
  cases measured with
  | none => exact .inl rfl
  | some len =>
    obtain ⟨chains, bundle, unif⟩ := (right len).mp rfl
    have positive := unif.positive
    by_cases long : 1 < len
    · exact absurd (reduced.long isReported bundle unif long) not_mem_nil
    · grind

theorem run_foldlM_short {step : Report → Section × Nat → Edit Report}
    (passes : ∀ report entry, entry.2 ≤ 1 → step report entry = pure report)
    (short : ∀ entry ∈ entries, entry.2 ≤ 1) (report : Report) :
    (entries.foldlM step report).run net = .ok report net := by
  induction entries with
  | nil => rfl
  | cons entry rest ih =>
    rw [foldlM_cons, passes report entry (short entry mem_cons_self)]
    exact ih fun entry mem => short entry (mem_cons_of_mem _ mem)

theorem Reducing.run_eq (reduced : net.Reducing []) {edit : Edit Report}
    (isPass : edit = Edit.coalesceDataParallel ∨ edit = Edit.splitSegments) :
    ∃ report, edit.run net = .ok report net ∧ report.applied = 0 := by
  obtain ⟨regs, notes, asked, -, -, has⟩ := reduced.ready.dataParallelSections_eq
  have short : ∀ entry ∈ regs, entry.2 ≤ 1 := fun entry mem => by
    obtain ⟨reported, chains, bundle, unif⟩ := (has entry.1 entry.2).mp mem
    exact Nat.le_of_not_lt fun long => not_mem_nil (reduced.long reported bundle unif long)
  refine ⟨{ notes }, ?_, rfl⟩
  have flat := reduced.ready.legal.ensureFlat_eq
  rcases isPass with rfl | rfl
  · simp only [Edit.coalesceDataParallel, EStateM.run_bind, EStateM.run_get, flat, asked,
      Edit.run_answer]
    exact run_foldlM_short (fun report entry few => by simp [few]) short _
  · simp only [Edit.splitSegments, EStateM.run_bind, EStateM.run_get, flat, asked, Edit.run_answer]
    exact run_foldlM_short (fun report entry few => by simp [few]) short _

/--
Coalescing and splitting leave data-parallel sections with one process on each branch only.

So a second run of the same pass finds nothing to do and leaves the network as it is.
-/
theorem shortening_idempotent (wellFormed : net.WellFormed) (valid : net.validate = [])
    {edit : Edit Report} (isPass : edit = Edit.coalesceDataParallel ∨ edit = Edit.splitSegments)
    (runs : edit.run net = .ok report next) :
    (∃ regions, next.sections = .ok regions ∧
      ∀ region ∈ regions, next.dataParallelLength? region = .ok none ∨
        next.dataParallelLength? region = .ok (some 1)) ∧
    ∃ again, edit.run next = .ok again next ∧ again.applied = 0 := by
  -- Both passes leave only sections with one process on each branch.
  have ready := wellFormed.ready (wellFormed.toConsistent.validate_eq_nil_iff.mp valid)
  have reduced : next.Reducing [] := by
    rcases isPass with rfl | rfl
    · have ends := ready.ends_coalesceDataParallel (fun _ => True) (fun _ _ => trivial) trivial
      rw [Edit.Ends, runs] at ends
      exact ends.2.1
    · have ends := ready.ends_splitSegments (fun _ => True) trivial fun _ _ _ => trivial
      rw [Edit.Ends, runs] at ends
      exact ends.2.1
  exact ⟨reduced.exists_sections, reduced.run_eq isPass⟩

/-- Two branches of three maps each are shortened once. -/
theorem shortening_idempotent_threeStages :
    (Operation.build (threeStages {})).WellFormed ∧
    (Operation.build (threeStages {})).validate = [] ∧
    (∃ report next,
      Edit.coalesceDataParallel.run (Operation.build (threeStages {})) = .ok report next ∧
      report.applied = 1 ∧
      ∃ again, Edit.coalesceDataParallel.run next = .ok again next ∧ again.applied = 0) ∧
    ∃ report next, Edit.splitSegments.run (Operation.build (threeStages {})) = .ok report next ∧
      report.applied = 1 ∧
      ∃ again, Edit.splitSegments.run next = .ok again next ∧ again.applied = 0 := by
  have once (edit : Edit Report)
      (isPass : edit = Edit.coalesceDataParallel ∨ edit = Edit.splitSegments)
      (applied : edit.succeeds (Operation.build (threeStages {}))
        (fun report _ => report.applied = 1)) :
      ∃ report next, edit.run (Operation.build (threeStages {})) = .ok report next ∧
        report.applied = 1 ∧ ∃ again, edit.run next = .ok again next ∧ again.applied = 0 := by
    obtain ⟨report, next, runs, once⟩ := Edit.exists_run_of_succeeds applied
    exact ⟨report, next, runs, once,
      (shortening_idempotent wellFormed_threeStages valid_threeStages isPass runs).2⟩
  exact ⟨wellFormed_threeStages, valid_threeStages, once _ (.inl rfl) (by decide +kernel),
    once _ (.inr rfl) (by decide +kernel)⟩

namespace Bundle

variable (bundle : net.Bundle region chains) (inv : net.Consistent)

include bundle inv

theorem spans_iff (legal : net.Legal) : net.Spans region id ↔ id ∈ region.members chains := by
  have branch {chain} (mem : chain ∈ chains) : ∀ id ∈ chain, net.Spans region id := by
    obtain ⟨proc, key, got, -, isKey, branch⟩ := bundle.exists_branch mem
    refine Line.induction_on branch.line.chained (List.Subset.refl _) (fun first starts => ?_)
      fun src isSrc dst _ reached feeds => ?_
    · exact Spans.tail .refl inv bundle.start_ne_stop
        (inv.feeds_of_remote got isKey (branch.enters.trans starts))
    · exact reached.tail inv (fun same => bundle.stop_not_mem mem (same ▸ isSrc)) feeds
  refine ⟨fun spans => spans.mem_of_closed _ (Section.mem_members.mpr (.inl rfl))
    fun member isMem elsewhere dst across => ?_, fun isMem => ?_⟩
  · rcases Section.mem_members.mp isMem with rfl | rfl | onBranch
    · have onBranch := bundle.target_mem inv (inv.mem_across_output.mp across)
      exact Section.mem_members.mpr (.inr (.inr (mem_flatten.mp onBranch)))
    · exact absurd rfl elsewhere
    · rcases (bundle.leadsInto inv (mem_flatten.mpr onBranch) .output).of_mem_across across
        with inside | rfl
      · exact Section.mem_members.mpr (.inr (.inr (mem_flatten.mp inside)))
      · exact Section.mem_members.mpr (.inr (.inl rfl))
  · rcases Section.mem_members.mp isMem with rfl | rfl | ⟨chain, mem, onChain⟩
    · exact .refl
    · obtain ⟨chain, mem⟩ := bundle.exists_chain legal
      obtain ⟨proc, key, -, -, -, isBranch⟩ := bundle.exists_branch mem
      obtain ⟨last, stops, feeds⟩ := isBranch.leaves
      have onChain := mem_of_getLast? stops
      exact (branch mem last onChain).tail inv
        (fun same => bundle.stop_not_mem mem (same ▸ onChain)) feeds
    · exact branch mem id onChain

theorem nodup_flatten : chains.flatten.Nodup := by
  refine List.nodup_flatten.mpr ⟨fun chain mem => ?_, bundle.pairwise inv⟩
  obtain ⟨proc, key, -, -, -, branch⟩ := bundle.exists_branch mem
  exact branch.line.once

end Bundle

/-- The number of branches of a section. -/
def branchCount (net : Network) (region : Section) : Nat :=
  (net.process? region.start).elim 0 (·.outPorts.length)

theorem Bundle.branchCount_eq (bundle : net.Bundle region chains) :
    net.branchCount region = chains.length := by
  obtain ⟨proc, got, -, branches⟩ := bundle.opens
  rw [branchCount, got]
  exact branches.length_eq

theorem Awaiting.length_longChains (awaiting : net.Awaiting entries) (inv : net.Consistent) :
    (net.longChains entries).flatten.length =
      (net.longChains entries).length +
        (entries.map fun entry => net.branchCount entry.1 * (entry.2 - 1)).sum := by
  induction entries with
  | nil => rfl
  | cons entry rest ih =>
    obtain ⟨region, len⟩ := entry
    obtain ⟨-, chains, bundle, unif⟩ := awaiting.bundles _ mem_cons_self
    have new := ih ⟨fun entry mem => awaiting.bundles entry (mem_cons_of_mem _ mem),
      (nodup_cons.mp (map_cons ▸ awaiting.once)).2⟩
    rw [map_cons, sum_cons]
    by_cases short : len ≤ 1
    · have none : len - 1 = 0 := by omega
      have same : net.longChains ((region, len) :: rest) = net.longChains rest := by
        simp [longChains, short]
      simp [same, none, new]
    · have total : chains.flatten.length = chains.length * len := by
        rw [length_flatten, map_congr_left unif.lengths]
        simp
      have split : chains.length * len = chains.length + chains.length * (len - 1) := by
        obtain ⟨more, rfl⟩ : ∃ more, len = more + 1 := ⟨len - 1, by omega⟩
        rw [Nat.mul_succ, Nat.add_sub_cancel, Nat.add_comm]
      rw [bundle.longChains_cons inv short, flatten_append, length_append, length_append, total]
      simp only [bundle.branchCount_eq]
      omega

/-- A data-parallel section with its branches, which are all of the given length. -/
structure Measured (net : Network) (region : Section) (length : Nat)
    (chains : List (List ProcessId)) : Prop where
  asked : net.branchChains region = .ok chains
  counts : chains.length = net.branchCount region
  lengths : ∀ chain ∈ chains, chain.length = length
  /-- The branches are pairwise disjoint and have no process twice. -/
  once : chains.flatten.Nodup
  leaves : ∀ chain ∈ chains, ∃ last, chain.getLast? = some last ∧ net.Feeds last region.stop
  spans : ∀ id, net.Spans region id ↔ id = region.start ∨ id ∈ chains.flatten ∨ id = region.stop

/--
The shortening of data-parallel sections touches exactly their regions.

What is reached from the start of a data-parallel section without going past its stop are its
branches and the two ends, and such sections have no processes in common. Coalescing succeeds if the
branches of long sections begin at top level. Then each of these branches, and nothing else, is
replaced by one process with all its functions in order, which is connected to what the ends of the
branch were connected to.
-/
theorem coalesceDataParallel_effect (wellFormed : net.WellFormed) (valid : net.validate = []) :
    (∃ regions, net.sections = .ok regions ∧
      (∀ region ∈ regions, ∀ length, net.dataParallelLength? region = .ok (some length) →
        ∃ chains, net.Measured region length chains) ∧
      ∀ region ∈ regions, ∀ other ∈ regions, net.isDataParallel region = .ok true →
        net.isDataParallel other = .ok true → region ≠ other →
        ∀ id, net.Spans region id → ¬ net.Spans other id) ∧
    ((∃ report next, Edit.coalesceDataParallel.run net = .ok report next) ↔
      ∀ region chains chain first process, net.Coalesces region chains → chain ∈ chains →
        chain.head? = some first → net.process? first = some process →
        process.hierarchy.parent? = none) ∧
    ∀ report next, Edit.coalesceDataParallel.run net = .ok report next →
      ∃ regions notes parts, net.dataParallelSections = .ok (regions, notes) ∧
        net.Contracts parts next ∧ (parts.map (·.chain)).flatten.Nodup ∧
        (∀ chain, (∃ part ∈ parts, part.chain = chain) ↔
          ∃ region chains, net.Coalesces region chains ∧ chain ∈ chains) ∧
        (∀ part ∈ parts, part.kind =
          .coalescedMap (part.chain.flatMap fun id => (net.kindOf id).functions)) ∧
        next.ids.length + (regions.map fun entry => net.branchCount entry.1 * (entry.2 - 1)).sum =
          net.ids.length := by
  -- The sections are known before the run, and the run tells which chains it has replaced.
  have consistent := wellFormed.toConsistent
  have legal := consistent.validate_eq_nil_iff.mp valid
  have ready := wellFormed.ready legal
  have ends := ready.ends_coalesceDataParallel (fun _ => True) (fun _ _ => trivial) trivial
  rw [Edit.Ends] at ends
  refine ⟨?_, ⟨?_, fun top => ?_⟩, fun report next runs => ?_⟩
  · obtain ⟨regions, asked, reported, once⟩ := consistent.sections_eq
    have bundle {region : Section} (listed : region ∈ regions) {length : Nat}
        (measures : net.dataParallelLength? region = .ok (some length)) :
        ∃ chains, net.Bundle region chains ∧ net.Uniform chains length := by
      obtain ⟨measured, measuresToo, right⟩ :=
        ((reported region).mp listed).1.exists_length consistent legal
      exact (right length).mp (Except.ok.inj (measuresToo.symm.trans measures))
    refine ⟨regions, asked, fun region listed length measures => ?_, ?_⟩
    · obtain ⟨chains, isBundle, uniform⟩ := bundle listed measures
      refine ⟨chains, isBundle.branchChains_eq consistent, isBundle.branchCount_eq.symm,
        uniform.lengths, isBundle.nodup_flatten consistent, fun chain isChain => ?_, fun id => ?_⟩
      · obtain ⟨_, _, -, -, -, branch⟩ := isBundle.exists_branch isChain
        exact branch.leaves
      · rw [isBundle.spans_iff consistent legal, Section.mem_members, mem_flatten,
          or_comm (b := id = region.stop)]
    · intro region listed other listedOther parallel parallelOther differ id spans spansOther
      have exists_bundle {region : Section} (listed : region ∈ regions)
          (parallel : net.isDataParallel region = .ok true) :
          ∃ chains, net.Bundle region chains := by
        obtain ⟨measured, measures, right⟩ :=
          ((reported region).mp listed).1.exists_length consistent legal
        cases measured with
        | none => simp [isDataParallel, measures, bind, Except.bind, pure, Except.pure] at parallel
        | some length =>
          obtain ⟨chains, isBundle, -⟩ := (right length).mp rfl
          exact ⟨chains, isBundle⟩
      obtain ⟨chains, isBundle⟩ := exists_bundle listed parallel
      obtain ⟨others, isBundleOther⟩ := exists_bundle listedOther parallelOther
      refine isBundle.disjoint isBundleOther consistent legal (fun same => differ ?_)
        ((isBundleOther.spans_iff consistent legal).mp spansOther)
        ((isBundle.spans_iff consistent legal).mp spans)
      exact inj_on_of_nodup_map once listed listedOther same
  · rintro ⟨report, next, runs⟩ region chains chain first process coalesces listed starts stored
    rw [runs] at ends
    obtain ⟨-, -, -, regions, notes, parts, asked, upTo⟩ := ends
    have isPart : chain ∈ parts.map (·.chain) := by
      rw [← append_nil (parts.map _), upTo.order]
      exact (mem_longChains_iff_coalesces asked).mpr ⟨region, chains, coalesces, listed⟩
    obtain ⟨part, isMember, rfl⟩ := mem_map.mp isPart
    exact upTo.top part isMember starts stored
  · split at ends
    · exact ⟨_, _, ‹_›⟩
    · obtain ⟨⟨region, chains, chain, first, process, coalesces, listed, starts, stored, low⟩, -⟩ :=
        ends
      exact absurd (top region chains chain first process coalesces listed starts stored) low
  · rw [runs] at ends
    obtain ⟨-, -, -, regions, notes, parts, asked, upTo⟩ := ends
    obtain ⟨_, _, askedAgain, -, reducing⟩ := ready.reducing
    obtain ⟨rfl, rfl⟩ := Prod.mk.inj (Except.ok.inj (asked.symm.trans askedAgain))
    have strands := reducing.awaiting.strands ready
    have order : parts.map (·.chain) = net.longChains regions :=
      (append_nil _).symm.trans upTo.order
    refine ⟨regions, notes, parts, asked, upTo.contracts, ?_, fun chain => ?_, upTo.kinds, ?_⟩
    · rw [order]
      refine List.nodup_flatten.mpr ⟨fun chain listed => ?_, strands.apart⟩
      obtain ⟨_, _, bundle, isChain⟩ := strands.bundled chain listed
      exact (List.nodup_flatten.mp (bundle.nodup_flatten consistent)).1 chain isChain
    · rw [← mem_longChains_iff_coalesces asked, ← order, mem_map]
    · have count := upTo.contracts.count
      rw [flatMap_def, order, reducing.awaiting.length_longChains consistent, ← order, length_map]
        at count
      omega

/-- Two branches of three maps each become two maps. -/
theorem coalesceDataParallel_effect_threeStages :
    (Operation.build (threeStages {})).WellFormed ∧
    (Operation.build (threeStages {})).validate = [] ∧
    (∃ regions, (Operation.build (threeStages {})).sections = .ok regions ∧
      ∀ region ∈ regions, ∀ length,
        (Operation.build (threeStages {})).dataParallelLength? region = .ok (some length) →
        ∃ chains, (Operation.build (threeStages {})).Measured region length chains) ∧
    ∃ report next,
      Edit.coalesceDataParallel.run (Operation.build (threeStages {})) = .ok report next ∧
      next.size = 4 ∧
      ∃ parts, (Operation.build (threeStages {})).Contracts parts next ∧
        ∀ chain, (∃ part ∈ parts, part.chain = chain) ↔
          ∃ region chains, (Operation.build (threeStages {})).Coalesces region chains ∧
            chain ∈ chains := by
  have effect := coalesceDataParallel_effect wellFormed_threeStages valid_threeStages
  obtain ⟨⟨regions, asked, measured, -⟩, -, contracts⟩ := effect
  have few : Edit.coalesceDataParallel.succeeds (Operation.build (threeStages {}))
      (fun _ next => next.size = 4) := by
    decide +kernel
  obtain ⟨report, next, runs, few⟩ := Edit.exists_run_of_succeeds few
  obtain ⟨-, -, parts, -, isContracted, -, exact, -⟩ := contracts report next runs
  exact ⟨wellFormed_threeStages, valid_threeStages, ⟨regions, asked, measured⟩, report, next, runs,
    few, parts, isContracted, exact⟩

/-- Two branches, of which one begins at a map that was inside a composite, which has been removed
since. -/
def orphanedBranch : Network :=
  Operation.build ([.addProcess "outer" (.composite {}) {}] ++ (threeStages {}).map (fun
    | .addProcess "a" kind _ => .addProcess "a" kind ⟨["outer"]⟩
    | operation => operation) ++ [.removeProcess "outer"])

/-- A branch is not replaced if its first process has lost the composite around it. -/
theorem coalesceDataParallel_effect_orphaned :
    orphanedBranch.WellFormed ∧ orphanedBranch.validate = [] ∧
    ∃ fault next, Edit.coalesceDataParallel.run orphanedBranch = .error fault next := by
  have wellFormed : orphanedBranch.WellFormed :=
    ⟨(Reachable.empty.foldl (by simp [Operation.Allowed, threeStages])).inv,
      by decide +kernel⟩
  have valid : orphanedBranch.validate = [] := List.isEmpty_iff.mp (by decide +kernel)
  have refuses : (Edit.coalesceDataParallel.refusal? orphanedBranch).isSome := by decide +kernel
  exact ⟨wellFormed, valid, _, Edit.exists_run_of_refusal? (Option.eq_some_of_isSome refuses)⟩

end Dataflow.Network
