import Dataflow.Proofs.Description.Describe
import Dataflow.Proofs.Schedule.Outdated
import Dataflow.Proofs.Transform.Coalesced
import Dataflow.Proofs.Transform.Innermost
import Dataflow.Proofs.Transform.Merge

/-! Compilations of legal networks: once validation has found nothing, no pass fails. -/

open List

namespace Dataflow

theorem Report.Harmless.hasErrors_eq {report : Report} (harmless : report.Harmless) :
    hasErrors report.notes = false :=
  any_eq_false.mpr fun note mem => by simp [harmless note mem]

namespace Network

variable {net : Network} {ins outs : Nat} {kept : Network → Prop}

theorem Legal.run_flatten (legal : net.Legal) : Edit.flatten.run net = .ok {} net := by
  simp only [Edit.flatten, EStateM.run_bind, EStateM.run_get]
  cases net.size with
  | zero => rfl
  | succ fuel =>
    have none : net.innermostComposite? = none :=
      innermostComposite?_eq_none_iff.mpr fun _ _ got => legal.leaves got
    simp [Edit.inlineAll, none]

/-- A network with the given numbers of inputs and outputs. -/
def Sized (ins outs : Nat) (net : Network) : Prop :=
  net.inputs.length = ins ∧ net.outputs.length = outs

theorem lasting_sized (ins outs : Nat) : Lasting (Sized ins outs) where
  replaced _ _ _ repl sized := by rwa [Sized, repl.inputs, repl.outputs, length_map, length_map]
  spliced _ _ _ _ excised sized :=
    ⟨(excised.boundary .input).length_eq.symm.trans sized.1,
      (excised.boundary .output).length_eq.symm.trans sized.2⟩
  retold retold sized := by rwa [Sized, retold.inputs, retold.outputs]
  severed severs sized := by rwa [Sized, severs.cuts.inputs, severs.cuts.outputs]

theorem Prepared.inputs (prep : net.Prepared (Sized ins outs)) : net.inputs.length = ins :=
  prep.holds.1

theorem Prepared.outputs (prep : net.Prepared (Sized ins outs)) : net.outputs.length = outs :=
  prep.holds.2

theorem WellFormed.prepared (wf : net.WellFormed) (valid : net.validate = [])
    (top : ∀ {id proc}, net.process? id = some proc → proc.hierarchy.path = []) :
    net.Prepared (Sized net.inputs.length net.outputs.length) := by
  refine ⟨wf.ready (wf.toConsistent.validate_eq_nil_iff.mp valid), fun got => ?_,
    lasting_sized _ _, rfl, rfl⟩
  rw [Hierarchy.parent?, top got, getLast?_nil]

theorem Prepared.ends_transformation (prep : net.Prepared kept) {pass : Pass} {edit : Edit Report}
    (transforms : pass.transformation? = some edit)
    (reduced : pass = .fuseSections → net.Reducing []) :
    edit.Ends net
      (fun report next => report.Harmless ∧ next.Prepared kept ∧
        (pass = .removeRedundant → next.Tidy) ∧
        (pass = .coalesceDataParallel ∨ pass = .splitSegments → next.Reducing []))
      fun _ => False := by
  cases pass <;> simp only [Pass.transformation?, Option.some.injEq, reduceCtorEq] at transforms <;>
    subst transforms
  case flatten =>
    rw [Edit.ends_of_run prep.ready.legal.run_flatten]
    exact ⟨fun note mem => (not_mem_nil mem).elim, prep, by simp, by simp⟩
  case removeRedundant =>
    exact prep.ends_removeRedundant.imp fun _ _ done =>
      ⟨done.1, done.2.1, fun _ => done.2.2, by simp⟩
  case combToMap =>
    exact prep.ends_combToMap.imp fun _ _ done => ⟨done.1, done.2, by simp, by simp⟩
  case coalesceDataParallel =>
    exact prep.ends_coalesceDataParallel.imp fun _ _ done =>
      ⟨done.1, done.2.2, by simp, fun _ => done.2.1⟩
  case splitSegments =>
    exact prep.ends_splitSegments.imp fun _ _ done => ⟨done.1, done.2.2, by simp, fun _ => done.2.1⟩
  case fuseSections =>
    exact ((reduced rfl).ends_fuseSections prep).imp fun _ _ done =>
      ⟨done.1, done.2, by simp, by simp⟩
  case mergeParallelMaps =>
    exact prep.ends_mergeParallelMaps.imp fun _ _ done => ⟨done.1, done.2, by simp, by simp⟩

theorem Ready.exists_schedule_fits (ready : net.Ready) :
    ∃ sched findings, net.schedule = .ok (sched, findings) ∧ sched.Fits net ∧
      hasErrors findings = false := by
  obtain ⟨plan, inv, has⟩ := exists_plan ready.inv
  have clean : plan.findings = [] := by
    by_contra unclean
    obtain ⟨loop, isLoop, instant⟩ := (inv.findings_ne_nil_iff ready.inv).mp unclean
    obtain ⟨id, mem, delays⟩ := ready.legal.delayed isLoop
    exact (instant id mem).1 delays
  have ordered := (inv.ordered_iff ready.inv).mpr clean
  rw [Schedule.dependenciesOrdered_iff ready.inv inv.once (inv.exist ready.inv)]
    at ordered
  refine ⟨_, _, has, ⟨inv.once, inv.mem_order_iff, ordered⟩, ?_⟩
  -- What is left are warnings.
  rw [clean, nil_append, hasErrors, any_map]
  exact any_eq_false.mpr fun id _ => by simp [unscheduled, Diagnostic.isError]

end Network

namespace Compilation

variable {state : Compilation} {pass : Pass} {kept : Network → Prop}

/-- What a pass has done to a compilation. -/
structure Performed (kept : Network → Prop) (pass : Pass) (state next : Compilation)
    (findings : List Diagnostic) : Prop where
  harmless : hasErrors findings = false
  prepared : next.network.Prepared kept
  tidied : pass = .removeRedundant → next.network.Tidy
  reduced : pass = .coalesceDataParallel ∨ pass = .splitSegments → next.network.Reducing []
  transformed : ∀ edit, pass.transformation? = some edit →
    ∃ report, edit.run state.network = .ok report next.network
  scheduled : pass = .schedule →
    ∃ schedule, next.schedule = some schedule ∧ schedule.Fits next.network
  unscheduled : pass ≠ .schedule → next.schedule = state.schedule

theorem hasError_perform (state : Compilation) (pass : Pass) :
    (state.perform pass).1.hasError = state.hasError := by
  unfold perform transform findSchedule
  split
  · split <;> rfl
  · split
    · split <;> rfl
    · rfl

theorem performed (state : Compilation) (prep : state.network.Prepared kept)
    (reduced : pass = .fuseSections → state.network.Reducing []) :
    Performed kept pass state (state.perform pass).1 (state.perform pass).2 := by
  unfold perform
  cases transforms : pass.transformation? with
  | some edit =>
    obtain ⟨report, next, runs, harmless, prepNext, tidied, reducedNext⟩ :=
      (prep.ends_transformation transforms reduced).exists_run
    simp only [transform, runs]
    refine ⟨harmless.hasErrors_eq, prepNext, tidied, reducedNext, ?_, ?_, fun _ => rfl⟩
    · grind
    · rintro rfl
      cases transforms
  | none =>
    have none : ¬ (pass = .coalesceDataParallel ∨ pass = .splitSegments) := by
      rintro (rfl | rfl) <;> cases transforms
    have tidied (tidies : pass = .removeRedundant) : state.network.Tidy := by
      subst tidies
      cases transforms
    by_cases schedules : pass = .schedule
    · obtain ⟨sched, findings, has, fits, harmless⟩ := prep.ready.exists_schedule_fits
      simp only [schedules, if_true, findSchedule, has,
        fits.allPass prep.ready.inv, append_nil]
      refine ⟨harmless, prep, by simp,
        fun reduces => absurd (schedules ▸ reduces) none, ?_,
        fun _ => ⟨sched, rfl, fits⟩,
        fun different => absurd rfl different⟩
      rintro edit isEdit
      cases isEdit
    · simp only [schedules, if_false]
      refine ⟨?_, prep, tidied, fun reduces => absurd reduces none, ?_,
        fun same => absurd same schedules, fun _ => rfl⟩
      · rw [prep.ready.inv.validate_eq_nil_iff.mpr prep.ready.legal]
        rfl
      · grind

end Compilation

theorem Pass.getLast?_of_required {options : Options} {terminal : Pass} {done left : List Pass}
    (split : terminal.required options = done ++ .fuseSections :: left) :
    done.getLast? = some .coalesceDataParallel ∨ done.getLast? = some .splitSegments := by
  have chained : (terminal.required options).IsChain fun pre pass => pass = .fuseSections →
      pre = options.reduction := by
    rcases options with ⟨_ | _, _ | _⟩ <;> cases terminal <;> decide +kernel
  have starts : (terminal.required options).head? ≠ some .fuseSections := by
    rcases options with ⟨_ | _, _ | _⟩ <;> cases terminal <;> decide +kernel
  rw [split] at chained starts
  cases last : done.getLast? with
  | none => simp [getLast?_eq_none_iff.mp last] at starts
  | some pass =>
    rw [(isChain_append.mp chained).2.2 pass last .fuseSections rfl rfl]
    rcases options with ⟨_ | _, _⟩
    · exact .inl rfl
    · exact .inr rfl

namespace Run

variable {run : Run} {origin : Compilation} {done left : List Pass} {pass terminal : Pass}
  {kept : Network → Prop}
  {options : Options}

/-- A run in which the given passes have found no error. -/
structure Clean (origin : Compilation) (done : List Pass) (run : Run) : Prop where
  unbroken : run.failing = none
  harmless : ∀ step ∈ run.steps, hasErrors step.findings = false
  passes : run.steps.map (·.pass) = done
  errors : run.state.hasError = origin.hasError

theorem advance_eq (going : run.failing = none) (pass : Pass) :
    run.advance pass =
      { run with state := (run.state.perform pass).1 }.finish
        { pass, findings := (run.state.perform pass).2 } := by
  rw [advance, going]
  rfl

theorem Clean.advance (clean : run.Clean origin done)
    (harmless : hasErrors (run.state.perform pass).2 = false) :
    (run.advance pass).Clean origin (done ++ [pass]) := by
  rw [advance_eq clean.unbroken]
  refine ⟨?_, fun step mem => ?_, ?_, ?_⟩
  · simp [finish, harmless]
  · rcases mem_append.mp mem with pre | here
    · exact clean.harmless step pre
    · rw [mem_singleton.mp here]
      exact harmless
  · simp [finish, clean.passes]
  · simp [finish, Compilation.record, harmless, Compilation.hasError_perform, clean.errors]

/-- A run in which the given passes have done what they should. -/
structure Sound (kept : Network → Prop) (origin : Compilation) (done : List Pass) (run : Run) :
    Prop extends run.Clean origin done where
  prepared : run.state.network.Prepared kept
  reduced : done.getLast? = some .coalesceDataParallel ∨ done.getLast? = some .splitSegments →
    run.state.network.Reducing []
  tidied : done.getLast? = some .removeRedundant → run.state.network.Tidy
  scheduled : done.getLast? = some .schedule →
    ∃ schedule, run.state.schedule = some schedule ∧ schedule.Fits run.state.network
  unscheduled : .schedule ∉ done → run.state.schedule = origin.schedule

/-- One more pass does what it should. -/
theorem Sound.advance (inv : run.Sound kept origin done)
    (reduced : pass = .fuseSections →
      done.getLast? = some .coalesceDataParallel ∨ done.getLast? = some .splitSegments) :
    (run.advance pass).Sound kept origin (done ++ [pass]) ∧
    ∀ edit, pass.transformation? = some edit →
      ∃ report, edit.run run.state.network = .ok report (run.advance pass).state.network := by
  have performed : Compilation.Performed kept pass run.state _ _ :=
    run.state.performed inv.prepared fun fuses => inv.reduced (reduced fuses)
  have clean := inv.toClean.advance performed.harmless
  rw [advance_eq inv.unbroken] at clean ⊢
  refine ⟨⟨clean, performed.prepared, ?_, ?_, ?_, fun absent => ?_⟩, performed.transformed⟩
  · simpa [finish, Compilation.record] using performed.reduced
  · simpa [finish, Compilation.record] using performed.tidied
  · simpa [finish, Compilation.record] using performed.scheduled
  · rw [mem_append, not_or, mem_singleton] at absent
    exact (performed.unscheduled (Ne.symm absent.2)).trans (inv.unscheduled absent.1)

theorem Sound.foldl (inv : run.Sound kept origin done) {more : List Pass}
    (split : terminal.required options = done ++ more ++ left) :
    (more.foldl Run.advance run).Sound kept origin (done ++ more) := by
  induction more using List.reverseRecOn generalizing left with
  | nil => rwa [append_nil]
  | append_singleton more pass ih =>
    rw [← append_assoc, append_assoc _ [pass]] at split
    rw [foldl_append, ← append_assoc]
    exact ((ih split).advance fun fuses => Pass.getLast?_of_required (fuses ▸ split)).1

theorem sound_foldl {state : Compilation} (prep : state.network.Prepared kept)
    (split : terminal.required options = done ++ left) :
    (done.foldl Run.advance { state }).Sound kept state done := by
  have start : Sound kept state [] { state } :=
    ⟨⟨rfl, by simp, rfl, rfl⟩, prep, by simp, by simp, by simp, fun _ => rfl⟩
  exact start.foldl split

theorem Sound.conclude_eq (inv : run.Sound kept origin done) (terminal : Pass) :
    ∃ provenance, run.conclude terminal =
      { run with state := { run.state with provenance := some provenance } } := by
  have described := inv.prepared.ready.inv.describe_eq
  refine ⟨⟨Sha256.hexDigest run.state.source,
    Sha256.hexDigest run.state.network.description.compact⟩, ?_⟩
  simp only [conclude, inv.unbroken, Option.isSome_none, Bool.false_eq_true, if_false,
    Provenance.ofNetwork, Network.fingerprint, described, bind, Except.bind, pure, Except.pure]

end Run

/--
Once validation has found nothing, no pass can fail.

The network is again legal after every pass, with as many inputs and outputs as before, and a
schedule meets its obligations.
-/
theorem Compilation.run_unbroken (state : Compilation) (wellFormed : state.network.WellFormed)
    (top : ∀ {id process}, state.network.process? id = some process → process.hierarchy.path = [])
    (valid : state.network.validate = []) (options : Options) (terminal : Pass) :
    (state.run options terminal).failing = none ∧
    (state.run options terminal).steps.map (·.pass) = terminal.required options ∧
    (∀ step ∈ (state.run options terminal).steps, hasErrors step.findings = false) ∧
    (state.run options terminal).state.hasError = state.hasError ∧
    (∀ done pass left, terminal.required options = done ++ pass :: left →
      let before := (done.foldl Run.advance { state }).state.network
      let after := ((done ++ [pass]).foldl Run.advance { state }).state.network
      (∀ edit, pass.transformation? = some edit → ∃ report, edit.run before = .ok report after) ∧
      after.ensureFlat = .ok () ∧ after.validate = [] ∧
      after.inputs.length = state.network.inputs.length ∧
      after.outputs.length = state.network.outputs.length) ∧
    (terminal = .schedule →
      ∃ schedule, (state.run options terminal).state.schedule = some schedule ∧
        (schedule.verify (state.run options terminal).state.network).allPass) := by
  -- What holds before a pass holds after it, and is followed along the passes that are required.
  have prepared := wellFormed.prepared valid top
  have sound := Run.sound_foldl prepared (append_nil (terminal.required options)).symm
  obtain ⟨provenance, concluded⟩ := sound.conclude_eq terminal
  have concluded : state.run options terminal = _ := concluded
  rw [concluded]
  refine ⟨sound.unbroken, sound.passes, sound.harmless, sound.errors,
    fun done pass left split => ?_, fun isLast => ?_⟩
  · have before := Run.sound_foldl prepared split
    obtain ⟨after, transformed⟩ :=
      before.advance fun fuses : pass = .fuseSections => Pass.getLast?_of_required (fuses ▸ split)
    rw [foldl_append]
    have ready := after.prepared.ready
    exact ⟨transformed, ready.legal.ensureFlat_eq, ready.inv.validate_eq_nil_iff.mpr ready.legal,
      after.prepared.inputs,
      after.prepared.outputs⟩
  · obtain ⟨schedule, found, fits⟩ :=
      sound.scheduled (by rcases options with ⟨_ | _, _ | _⟩ <;> subst isLast <;> decide +kernel)
    exact ⟨schedule, found, fits.allPass sound.prepared.ready.inv⟩

/-- An idle zip before a section with two branches, behind which values are fed back through a
delay. -/
def Network.feedbackSection : Network :=
  let function : Func := { name := "f", params := [], returnType := { name := "int" }, body := "" }
  Operation.build
    (Operation.addAll none [("r", .zip, ["in"], ["out"]), ("u", .unzip, ["in"], ["out0", "out1"]),
        ("a", .comb function, ["in"], ["out"]), ("b", .map function, ["in"], ["out"]),
        ("z", .zip, ["in0", "in1"], ["out"]), ("s", .comb function, ["in", "back"], ["out"]),
        ("c", .fanout, ["in"], ["out", "back"]), ("d", .delay "0", ["in"], ["out"])] ++
      [.connect 1 2, .connect 3 5, .connect 4 7, .connect 6 9, .connect 8 10, .connect 11 12,
        .connect 14 15, .connect 17 18, .connect 19 13, .addInput 0, .addOutput 16])

/-- The idle zip is removed, the comb becomes a map, the section becomes one process, and the
feedback loop is scheduled. -/
theorem Compilation.run_unbroken_feedbackSection :
    Network.feedbackSection.WellFormed ∧ Network.feedbackSection.validate = [] ∧
    (({ source := "", network := .feedbackSection } : Compilation).run
        { strategy := .split } .schedule).state.applied =
      [(.flatten, 0), (.removeRedundant, 1), (.combToMap, 1), (.splitSegments, 0),
        (.fuseSections, 1), (.mergeParallelMaps, 0)] ∧
    (({ source := "", network := .feedbackSection } : Compilation).run
        { strategy := .split } .schedule).failing = none := by
  have wellFormed : Network.feedbackSection.WellFormed :=
    ⟨(Network.Reachable.empty.foldl (by simp [Operation.Allowed])).inv, by decide +kernel⟩
  have valid : Network.feedbackSection.validate = [] := List.isEmpty_iff.mp (by decide +kernel)
  have top : ∀ entry ∈ Network.feedbackSection.processes.toList, entry.2.hierarchy.path = [] := by
    decide +kernel
  refine ⟨wellFormed, valid, by decide +kernel, ?_⟩
  generalize isState : ({ source := "", network := .feedbackSection } : Compilation) = state
  have same : state.network = .feedbackSection := by rw [← isState]
  rw [← same] at wellFormed valid top
  exact (run_unbroken state wellFormed (fun stored => top _ (Network.mem_toList.mpr stored))
    valid _ _).1

end Dataflow
