import Dataflow.Proofs.Transform.Ready

/-! Replacing data-parallel sections with one process on each branch by parallel maps. -/

open List

namespace Dataflow.Network

variable {net next : Network} {id start stop fresh : ProcessId} {reg : Section}
  {chains : List (List ProcessId)}
  {entry exit : PortKey} {kind : Kind Composite} {hier : Hierarchy} {proc : Process}
  {regs rest : List (Section × Nat)}

/-- The parallel map that takes the place of a section with the given branches. -/
def fused (net : Network) (chains : List (List ProcessId)) : Kind Composite :=
  .parallelMap (UInt64.ofNat chains.length) (net.functionsOf (chains.head?.bind (·.head?)).toList)

/-- Sections that are still to be transformed: sealed bundles of the given lengths, with different
stops. -/
structure Pending (net : Network) (regions : List (Section × Nat)) : Prop where
  bundles : ∀ entry ∈ regions, ∃ chains, net.Sealed entry.1 chains ∧ net.Uniform chains entry.2
  once : (regions.map (·.1.stop)).Nodup

/-- The data-parallel sections of a network are to be transformed. -/
theorem Ready.dataParallelSections_eq (ready : net.Ready) :
    ∃ regs notes, net.dataParallelSections = .ok (regs, notes) ∧ net.Pending regs ∧
      (∀ note ∈ notes, note.isError = false) ∧
      ∀ reg len, (reg, len) ∈ regs ↔
        net.Reported reg ∧ ∃ chains, net.Bundle reg chains ∧ net.Uniform chains len := by
  obtain ⟨regs, notes, asked, once, harmless, has⟩ :=
    ready.inv.dataParallelSections_eq ready.legal
  refine ⟨regs, notes, asked, ⟨fun (reg, len) mem => ?_, once⟩, harmless, has⟩
  obtain ⟨reported, chains, bundle, unif⟩ := (has reg len).mp mem
  exact ⟨chains, reported.1.sealed ready.inv bundle, unif⟩

/-- What is sealed and not touched by a replacement stays to be transformed. -/
theorem Pending.replaced {gone : List ProcessId} (pending : net.Pending regs)
    (repl : net.Replaced gone entry exit fresh kind hier next) (inv : net.Consistent)
    (exc : net.Excisable start stop gone entry exit)
    (stays : ∀ entry ∈ regs, ∀ chains, net.Bundle entry.1 chains →
      ∀ id ∈ entry.1.members chains, id ∉ gone) : next.Pending regs := by
  refine ⟨fun entry mem => ?_, pending.once⟩
  obtain ⟨chains, isSealed, unif⟩ := pending.bundles entry mem
  have outside := stays entry mem chains isSealed.toBundle
  refine ⟨chains, repl.sealed inv exc isSealed outside,
    (repl.keeps inv exc).uniform (fun id isMem => outside id ?_) unif⟩
  simp only [Section.members, mem_cons, isMem, or_true]

/-- Sections behind the first one have no process in common with it. -/
theorem Pending.disjoint {len : Nat} (pending : net.Pending ((reg, len) :: rest))
    (ready : net.Ready) (bundle : net.Bundle reg chains) {entry : Section × Nat}
    (mem : entry ∈ rest) {others : List (List ProcessId)} (other : net.Bundle entry.1 others)
    (isMem : id ∈ entry.1.members others) : id ∉ reg.members chains := by
  have once := pending.once
  rw [map_cons, nodup_cons] at once
  refine bundle.disjoint other ready.inv ready.legal (fun same => once.1 ?_) isMem
  rw [same]
  exact mem_map_of_mem (f := fun entry : Section × Nat => entry.1.stop) mem

theorem Sealed.ready_replaced (isSealed : net.Sealed reg chains) (unif : net.Uniform chains 1)
    (ready : net.Ready) (exc : net.Excisable reg.start reg.stop (reg.members chains) entry exit)
    (repl : net.Replaced (reg.members chains) entry exit fresh (net.fused chains) hier next) :
    next.Ready := by
  obtain ⟨chain, mem⟩ := isSealed.exists_chain ready.legal
  obtain ⟨chained, once, inside⟩ := isSealed.way ready.inv mem
  refine repl.ready ready (repl.legal ready.inv ready.legal exc chained rfl ?_ once inside
    (fun id isMem => isSealed.not_isDelay isMem) rfl rfl ?_)
  · rw [← cons_append, getLast?_concat]
  · have fns : net.functionsOf (chains.head?.bind (·.head?)).toList ≠ [] := by
      cases chains with
      | nil => exact absurd rfl unif.some
      | cons first rest =>
        obtain ⟨id, rfl⟩ := length_eq_one_iff.mp (unif.lengths first mem_cons_self)
        refine ready.legal.functionsOf_ne_nil (by simp) fun other isMem => ?_
        exact unif.shaped [id] mem_cons_self other (by simpa using isMem)
    have count := ready.ofNat_length_ne_zero isSealed.toBundle
    simp [Process.defect?, Process.arityDefect?, fused, Kind.payloadDefect?, Kind.arity,
      Arity.admits, count, fns]

theorem Bundle.first_exists (bundle : net.Bundle reg chains) :
    (chains.head?.bind (·.head?)).toList ⊆ net.ids := by
  intro id isMem
  cases chains with
  | nil => simp at isMem
  | cons first rest =>
    refine bundle.exist mem_cons_self (mem_of_head? ?_)
    simpa using isMem

namespace Sealed

variable (isSealed : net.Sealed reg chains) (ready : net.Ready)

include isSealed ready

theorem ends_fuseSection (got : net.process? reg.start = some proc) :
    ∃ entry exit, net.Excisable reg.start reg.stop (reg.members chains) entry exit ∧
      (Edit.fuseSection reg).Ends net
        (fun _ next => proc.hierarchy.parent? = none ∧
          ∃ fresh, net.Replaced (reg.members chains) entry exit fresh (net.fused chains)
            proc.hierarchy next)
        (fun next => proc.hierarchy.parent? ≠ none ∧ net.Renamed next) := by
  obtain ⟨entry, exit, exc⟩ := isSealed.excisable ready.inv ready.legal
  refine ⟨entry, exit, exc, ?_⟩
  unfold Edit.fuseSection
  simp only [Edit.ends_bind, Edit.ends_get, isSealed.branchChains_eq ready.inv,
    Edit.ends_answer, chainFunctions_eq isSealed.first_exists]
  exact ready.ends_replaceRegion exc got "_parallel" rfl

theorem run_fuseSection (got : net.process? reg.start = some proc)
    (top : proc.hierarchy.parent? = none) :
    ∃ entry exit fresh next, (Edit.fuseSection reg).run net = .ok () next ∧
      net.Excisable reg.start reg.stop (reg.members chains) entry exit ∧
      net.Replaced (reg.members chains) entry exit fresh (net.fused chains) proc.hierarchy
        next := by
  obtain ⟨entry, exit, exc, ends⟩ := isSealed.ends_fuseSection ready got
  obtain ⟨_, next, runs, -, fresh, repl⟩ :=
    (ends.mono (fun _ _ done => done) fun _ fault => fault.1 top).exists_run
  exact ⟨entry, exit, fresh, next, runs, exc, repl⟩

theorem of_run_fuseSection (runs : (Edit.fuseSection reg).run net = .ok () next) :
    ∃ entry exit fresh hier, net.Excisable reg.start reg.stop (reg.members chains) entry exit ∧
      net.Replaced (reg.members chains) entry exit fresh (net.fused chains) hier next := by
  obtain ⟨proc, got, -⟩ := isSealed.opens
  obtain ⟨entry, exit, exc, ends⟩ := isSealed.ends_fuseSection ready got
  rw [Edit.Ends, runs] at ends
  obtain ⟨-, fresh, repl⟩ := ends
  exact ⟨entry, exit, fresh, _, exc, repl⟩

end Sealed

/-- Replacing a section that is to be replaced leaves the others to be replaced. -/
theorem Pending.step (pending : net.Pending ((reg, 1) :: rest)) (ready : net.Ready)
    (runs : (Edit.fuseSection reg).run net = .ok () next) :
    ∃ chains entry exit fresh hier, net.Sealed reg chains ∧ net.Uniform chains 1 ∧
      net.Excisable reg.start reg.stop (reg.members chains) entry exit ∧
      net.Replaced (reg.members chains) entry exit fresh (net.fused chains) hier next ∧ next.Ready ∧
      next.Pending rest := by
  obtain ⟨chains, isSealed, unif⟩ := pending.bundles _ mem_cons_self
  obtain ⟨entry, exit, fresh, hier, exc, repl⟩ := isSealed.of_run_fuseSection ready runs
  have others : net.Pending rest :=
    ⟨fun entry mem => pending.bundles entry (mem_cons_of_mem _ mem), pending.once.tail⟩
  refine ⟨chains, entry, exit, fresh, hier, isSealed, unif, exc, repl,
    isSealed.ready_replaced unif ready exc repl, others.replaced repl ready.inv exc ?_⟩
  exact fun entry mem others bundle id isMem =>
    pending.disjoint ready isSealed.toBundle mem bundle isMem

theorem of_run_fuseSections {notes : List Diagnostic} {report : Report}
    (holds : List (Section × Nat) → Network → Prop) (legal : net.Legal)
    (asked : net.dataParallelSections = .ok (regs, notes))
    (runs : Edit.fuseSections.run net = .ok report next) (starts : holds regs net)
    (step : ∀ {reg rest mid after}, holds ((reg, 1) :: rest) mid →
      (Edit.fuseSection reg).run mid = .ok () after → holds rest after) :
    holds [] next ∧ report.applied = regs.length := by
  rw [show Edit.fuseSections.run net = _ from (Edit.run_ask legal.ensureFlat_eq).trans
    (Edit.run_ask asked)] at runs
  have handOn := Edit.of_run_foldlM
    (fun rest (report : Report) mid => holds rest mid ∧ report.applied + rest.length = regs.length)
      ?_ ⟨starts, by simp⟩ runs
  · exact ⟨handOn.1, by simpa using handOn.2⟩
  rintro ⟨reg, len⟩ rest ans mid result after ⟨held, counted⟩ steps
  by_cases single : len = 1
  · simp only [single, ne_eq, not_true_eq_false, if_false, EStateM.run_bind] at steps
    cases fuses : (Edit.fuseSection reg).run mid with
    | ok done between =>
      rw [fuses] at steps
      cases steps
      refine ⟨step (single ▸ held) fuses, ?_⟩
      simp only [length_cons] at counted
      simp only [Report.count]
      omega
    | error fault between => simp [fuses] at steps
  · simp [single] at steps

end Dataflow.Network
