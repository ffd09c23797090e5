import Dataflow.Proofs.Compilation.Checked
import Dataflow.Proofs.Compilation.Run
import Dataflow.Proofs.Description.Reloaded
import Dataflow.Proofs.Transform.Jammed

/-!
Compilations that are run again and again, and how the schedule that was found last relates to the
network.

A schedule is found only for networks that validation has accepted, and no pass fails on these any
more. Later runs transform the network further, but they leave the schedule alone unless they look
for one themselves.
-/

open List

namespace Dataflow

theorem Pass.required_cases (options : Options) (term : Pass) :
    term = .flatten ∧ term.required options = [.flatten] ∨
    term = .validate ∧ term.required options = [.flatten, .validate] ∨
    term.required options =
      [.flatten, .validate] ++ .removeRedundant :: (term.required options).drop 3 := by
  rcases options with ⟨_ | _, _ | _⟩ <;> cases term <;> decide +kernel

theorem Pass.schedule_required (options : Options) (term : Pass) :
    term = .schedule ∧ (term.required options).getLast? = some .schedule ∨
      term ≠ .schedule ∧ .schedule ∉ term.required options := by
  rcases options with ⟨_ | _, _ | _⟩ <;> cases term <;> decide +kernel

namespace Network

variable {net next : Network} {lost : List ProcessId}

theorem isError_of_mem_validate {finding : Diagnostic} (mem : finding ∈ net.validate) :
    finding.isError := by
  have proc {id proc} (mem : finding ∈ processFindings id proc) : finding.isError := by
    unfold processFindings at mem
    split at mem
    · obtain ⟨defect, -, rfl⟩ := mem_map.mp mem
      rfl
    · rw [mem_singleton.mp mem]
      rfl
  have bdry {role key} (mem : finding ∈ net.boundaryFindings role key) : finding.isError := by
    unfold boundaryFindings at mem
    split at mem
    · rw [mem_singleton.mp mem]
      rfl
    · split at mem
      · rw [mem_singleton.mp mem]
        rfl
      · cases mem
  have loop {code : Code} {message hint : String} {has : Except Fault (List (List ProcessId))}
      (mem : finding ∈ loopFindings code message hint has) : finding.isError := by
    unfold loopFindings at mem
    split at mem
    · obtain ⟨loop, -, rfl⟩ := mem_map.mp mem
      rfl
    · rw [mem_singleton.mp mem]
      rfl
  simp only [validate, mem_append, mem_flatMap] at mem
  obtain (((⟨_, -, here⟩ | ⟨_, -, here⟩) | ⟨_, -, here⟩) | here) | here := mem
  · exact proc here
  · exact bdry here
  · exact bdry here
  · exact loop here
  · exact loop here

theorem Consistent.legal_of_validate (inv : net.Consistent)
    (clean : hasErrors net.validate = false) : net.Legal := by
  refine inv.validate_eq_nil_iff.mp (eq_nil_iff_forall_not_mem.mpr fun finding mem => ?_)
  exact any_eq_false.mp clean finding mem (isError_of_mem_validate mem)

/-- A network before validation: every process has a place that fits its parent, and no more
out-ports than can be counted. -/
structure WellPlaced (net : Network) : Prop where
  inv : net.Consistent
  placed : net.Placed
  narrow : ∀ {id process}, net.process? id = some process → process.outPorts.length ≤ UInt32.size

theorem WellPlaced.dissolved (wellPlaced : net.WellPlaced) (dissolved : net.Dissolved lost next) :
    next.WellPlaced where
  inv := dissolved.evolves.inv
  placed := dissolved.placed
  narrow {id new} got := by
    obtain ⟨-, old, gotOld, core, -⟩ := dissolved.exists_former got
    have same : old.outPorts = new.outPorts := (congrArg Process.outPorts core :)
    rw [← same]
    exact wellPlaced.narrow gotOld

theorem WellPlaced.ends_flatten (wellPlaced : net.WellPlaced) :
    Edit.flatten.Ends net (fun _ next => next.WellPlaced) fun next =>
      next.WellPlaced ∨ next.Jammed := by
  refine (Network.ends_flatten wellPlaced.inv wellPlaced.placed).mono
    (fun _ next flattens => ?_) fun next failed => ?_
  · obtain ⟨lost, dissolved, -⟩ := flattens.exists_lost wellPlaced.inv wellPlaced.placed
    exact wellPlaced.dissolved dissolved
  · exact failed.2.imp (fun ⟨_, dissolved⟩ => wellPlaced.dissolved dissolved) fun jammed => jammed

theorem WellPlaced.prepared (wellPlaced : net.WellPlaced) (legal : net.Legal) :
    net.Prepared fun _ => True where
  ready := ⟨wellPlaced.inv, legal, wellPlaced.narrow⟩
  top {id proc} got := by
    cases isParent : proc.hierarchy.parent? with
    | none => rfl
    | some parent =>
      obtain ⟨outer, gotOuter, comp, -⟩ :=
        wellPlaced.placed.exists_composite got (mem_of_getLast? isParent)
      simp [legal.leaves gotOuter] at comp
  lasting := lasting_true
  holds := trivial

end Network

theorem Schedule.Fits.dated {sched : Schedule} {net : Network} (fits : sched.Fits net)
    (inv : net.Consistent) : sched.Dated net := by
  refine ⟨fun id mem => ?_, .inl fits⟩
  obtain ⟨proc, got⟩ := inv.exists_of_reachesOutput ((fits.complete id).mp mem)
  exact inv.taken got

/-- What is known of a network with the schedule that was found last. -/
def Network.Accompanied (found : Option Schedule) (net : Network) : Prop :=
  net.Tidy ∧ ∀ schedule ∈ found, schedule.Dated net

/-- What is known of a compilation between its runs. -/
inductive Compilation.Standing (state : Compilation) : Prop where
  | unscheduled (absent : state.schedule = none)
    (network : state.network.WellPlaced ∨ state.network.Jammed)
  | prepared (prepared : state.network.Prepared (Network.Accompanied state.schedule))

namespace Run

variable {run : Run} {origin state : Compilation} {pass term : Pass} {options : Options}
  {kept : Network → Prop} {done : List Pass}

theorem foldl_of_failing (failed : run.failing.isSome) (passes : List Pass) :
    passes.foldl Run.advance run = run := by
  induction passes with
  | nil => rfl
  | cons pass passes ih => rw [foldl_cons, advance, if_pos failed, ih]

theorem standing_conclude (standing : run.state.Standing) (term : Pass) :
    (run.conclude term).state.Standing := by
  have same : (run.conclude term).state.network = run.state.network ∧
      (run.conclude term).state.schedule = run.state.schedule := by
    unfold conclude
    split
    · exact ⟨rfl, rfl⟩
    · split <;> exact ⟨rfl, rfl⟩
  cases standing with
  | unscheduled absent network => exact .unscheduled (same.2.trans absent) (same.1 ▸ network)
  | prepared prep =>
    rw [← same.1, ← same.2] at prep
    exact .prepared prep

theorem Sound.standing
    (inv : run.Sound (Network.Accompanied origin.schedule) origin (term.required options)) :
    run.state.Standing ∧
    (term = .schedule →
      ∃ sched, run.state.schedule = some sched ∧ sched.Fits run.state.network) := by
  have ready := inv.prepared.ready
  rcases Pass.schedule_required options term with ⟨isLast, last⟩ | ⟨notLast, absent⟩
  · obtain ⟨sched, has, fits⟩ := inv.scheduled last
    refine ⟨.prepared
      ⟨ready, inv.prepared.top, Schedule.lasting_dated _, inv.prepared.holds.1,
        fun other isHas => ?_⟩, fun _ => ⟨sched, has, fits⟩⟩
    rw [has, Option.mem_some_iff] at isHas
    exact isHas ▸ fits.dated ready.inv
  · refine ⟨.prepared ?_, fun isLast => absurd isLast notLast⟩
    rw [inv.unscheduled absent]
    exact inv.prepared

section

variable (absent : state.schedule = none)
  (network : state.network.WellPlaced ∨ state.network.Jammed)

include absent network

theorem standing_flatten :
    let run := ({ state } : Run).advance .flatten
    run.state.Standing ∧ run.state.schedule = none ∧
      (run.failing = none → run.state.network.WellPlaced) := by
  have ends : Edit.flatten.Ends state.network (fun _ next => next.WellPlaced) fun next =>
      next.WellPlaced ∨ next.Jammed := by
    rcases network with wellPlaced | jammed
    · exact wellPlaced.ends_flatten
    · exact jammed.ends_flatten.mono (fun _ _ impossible => impossible.elim) fun _ jammed =>
        .inr jammed
  unfold Edit.Ends at ends
  rw [advance_eq rfl]
  cases runs : Edit.flatten.run state.network with
  | ok report next =>
    rw [runs] at ends
    simp only [Compilation.perform, Pass.transformation?, Compilation.transform, runs, finish,
      Compilation.record]
    exact ⟨.unscheduled absent (.inl ends), absent, fun _ => ends⟩
  | error fault next =>
    rw [runs] at ends
    simp only [Compilation.perform, Pass.transformation?, Compilation.transform, runs, finish,
      Compilation.record]
    exact ⟨.unscheduled absent ends, absent, fun succeeds => by
      simp [hasErrors, Compilation.internalError, Diagnostic.isError] at succeeds⟩

theorem standing_validate :
    let run := (({ state } : Run).advance .flatten).advance .validate
    run.state.Standing ∧
      (run.failing = none → run.Sound (fun _ => True) state [.flatten, .validate]) := by
  obtain ⟨standing, still, wellPlaced⟩ := standing_flatten absent network
  have start : Clean state [] { state } := ⟨rfl, by simp, rfl, rfl⟩
  have clean (going : (({ state } : Run).advance .flatten).failing = none) : Clean state
    [.flatten] _ := start.advance (of_advance going).2.1
  generalize ({ state } : Run).advance .flatten = first at standing still wellPlaced clean
  intro run
  cases failed : first.failing with
  | some pass =>
    -- Validation is not performed any more.
    have stopped : run = first := by simp [run, advance, failed]
    rw [stopped, failed]
    exact ⟨standing, fun succeeds => by cases succeeds⟩
  | none =>
    have network : run.state.network = first.state.network := by
      simp only [run, advance_eq failed]; rfl
    have sched : run.state.schedule = none := by simp only [run, advance_eq failed]; exact still
    have wellPlaced : run.state.network.WellPlaced := network ▸ wellPlaced failed
    refine ⟨.unscheduled sched (.inl wellPlaced), fun succeeds => ?_⟩
    have harmless : hasErrors first.state.network.validate = false := (of_advance succeeds).2.1
    have legal := wellPlaced.inv.legal_of_validate (network ▸ harmless)
    exact ⟨(clean failed).advance harmless, wellPlaced.prepared legal,
      by simp, by simp, by simp, fun _ => sched.trans absent.symm⟩

end

theorem Sound.accompanied (inv : run.Sound kept origin (done ++ [.removeRedundant]))
    (absent : origin.schedule = none) :
    run.Sound (Network.Accompanied origin.schedule) origin (done ++ [.removeRedundant]) where
  toClean := inv.toClean
  prepared :=
    ⟨inv.prepared.ready, inv.prepared.top, Schedule.lasting_dated _,
      inv.tidied (by simp), by simp [absent]⟩
  reduced := by simp
  tidied := inv.tidied
  scheduled := by simp
  unscheduled := inv.unscheduled

end Run

namespace Compilation

variable {state : Compilation}

/-- What is known of a compilation is known after each run, and a schedule that was looked for fits
the network. -/
theorem Standing.run (standing : state.Standing) (options : Options) (term : Pass) :
    (state.run options term).state.Standing ∧
    ((state.run options term).failing = none → term = .schedule →
      ∃ sched, (state.run options term).state.schedule = some sched ∧
        sched.Fits (state.run options term).state.network) := by
  -- A run that was sound to its end leaves what is known, and so does recording where the network
  -- comes from.
  have finish {run : Run}
      (inv : run.Sound (Network.Accompanied state.schedule) state (term.required options)) :
      (run.conclude term).state.Standing ∧ ((run.conclude term).failing = none → term = .schedule →
        ∃ sched, (run.conclude term).state.schedule = some sched ∧
        sched.Fits (run.conclude term).state.network) := by
    obtain ⟨provenance, concluded⟩ := inv.conclude_eq term
    have concludes := Run.standing_conclude inv.standing.1 term
    rw [concluded] at concludes ⊢
    exact ⟨concludes, fun _ => inv.standing.2⟩
  unfold Compilation.run
  cases standing with
  | prepared prep => exact finish (Run.sound_foldl prep (append_nil _).symm)
  | unscheduled absent network =>
    have opened := Run.standing_validate absent network
    rcases Pass.required_cases options term
      with ⟨isFirst, required⟩ | ⟨isSecond, required⟩ | required
    · rw [required]
      exact ⟨Run.standing_conclude (Run.standing_flatten absent network).1 term,
        fun _ isLast => by simp [isFirst] at isLast⟩
    · rw [required]
      exact ⟨Run.standing_conclude opened.1 term, fun _ isLast => by simp [isSecond] at isLast⟩
    · have continues : (term.required options).foldl Run.advance { state } =
          (Pass.removeRedundant :: (term.required options).drop 3).foldl
          Run.advance ((({ state } : Run).advance .flatten).advance .validate) := by
        conv_lhs => rw [required]
        rfl
      rw [continues]
      generalize (({ state } : Run).advance .flatten).advance .validate = run at opened
      cases failed : run.failing with
      | some pass =>
        rw [Run.foldl_of_failing (by simp [failed])]
        refine ⟨Run.standing_conclude opened.1 term, fun succeeds => ?_⟩
        rw [Run.of_conclude succeeds] at failed
        cases failed
      | none =>
        have tidying : Run.Sound _ state ([.flatten, .validate] ++ [.removeRedundant])
            (run.advance .removeRedundant) :=
          ((opened.2 failed).advance (by simp)).1
        have all : [.flatten, .validate] ++ [.removeRedundant] ++ (term.required options).drop 3 =
          term.required options := required.symm
        have inv := (tidying.accompanied absent).foldl (all.symm.trans (append_nil _).symm)
        rw [all] at inv
        exact finish inv

/-- The compilation after a number of runs. -/
def runAll (state : Compilation) (calls : List (Options × Pass)) : Compilation :=
  calls.foldl (fun state call => (state.run call.1 call.2).state) state

theorem Standing.runAll (standing : state.Standing) (calls : List (Options × Pass)) :
    (state.runAll calls).Standing := by
  induction calls generalizing state with
  | nil => exact standing
  | cons call calls ih => exact ih (standing.run call.1 call.2).1

theorem standing_of_load {text : String} (loaded : load text = .ok state)
    (wf : state.network.WellFormed) : state.Standing := by
  obtain ⟨loaded, unscheduled⟩ := network_of_load loaded
  exact .unscheduled unscheduled
    (.inl ⟨wf.toConsistent, (Network.presentable_of_load loaded).placed, wf.narrow⟩)

/--
After any runs over a loaded network, failed ones among them, the schedule passes its check exactly
if it holds the processes that lead to an output now.

That is so after a run that looked for a schedule.
-/
theorem runAll_schedule_iff {text : String} (loaded : load text = .ok state)
    (wellFormed : state.network.WellFormed) (calls : List (Options × Pass)) :
    (∀ schedule, (state.runAll calls).schedule = some schedule →
      ((schedule.verify (state.runAll calls).network).allPass ↔
        ∀ id, id ∈ schedule.order ↔ (state.runAll calls).network.ReachesOutput id)) ∧
    ∀ options, ((state.runAll calls).run options .schedule).failing = none →
      ∃ schedule, (state.runAll (calls ++ [(options, .schedule)])).schedule = some schedule ∧
        (schedule.verify (state.runAll (calls ++ [(options, .schedule)])).network).allPass := by
  -- Without a schedule there is nothing to show, and a schedule that was found fits or was
  -- outdated.
  have standing := (standing_of_load loaded wellFormed).runAll calls
  refine ⟨fun schedule found => ?_, fun options succeeds => ?_⟩
  · cases standing with
    | unscheduled absent _ =>
      rw [absent] at found
      cases found
    | prepared prepared =>
      exact (prepared.holds.2 schedule found).allPass_iff prepared.ready.inv
  · obtain ⟨next, scheduled⟩ := standing.run options .schedule
    obtain ⟨schedule, found, fits⟩ := scheduled succeeds rfl
    have last : state.runAll (calls ++ [(options, .schedule)]) =
        ((state.runAll calls).run options .schedule).state := by
      rw [Compilation.runAll, foldl_append]
      rfl
    rw [last]
    cases next with
    | unscheduled absent _ =>
      rw [absent] at found
      cases found
    | prepared prepared => exact ⟨schedule, found, fits.allPass prepared.ready.inv⟩

end Compilation

/-- A section of two maps. -/
def Description.twinIncrements : Description where
  processes :=
    let function : Func :=
      { name := "inc", params := [{ name := "x", dataType := { name := "int" } }],
        returnType := { name := "int" }, body := "return x + 1;" }
    [{ id := "u", kind := .unzip, inPorts := [{ name := "i" }],
       outPorts := [{ name := "o0" }, { name := "o1" }] },
      { id := "a", kind := .map function, inPorts := [{ name := "i" }],
        outPorts := [{ name := "o" }] },
      { id := "b", kind := .map function, inPorts := [{ name := "i" }],
        outPorts := [{ name := "o" }] },
      { id := "z", kind := .zip, inPorts := [{ name := "i0" }, { name := "i1" }],
        outPorts := [{ name := "o" }] }]
  connections :=
    [{ source := "u.o0", target := "a.i" }, { source := "u.o1", target := "b.i" },
      { source := "a.o", target := "z.i0" }, { source := "b.o", target := "z.i1" }]
  inputs := ["u.i"]
  outputs := ["z.o"]

namespace Compilation

/-- Once the section was scheduled as it is, replacing it by one process leaves a schedule that
misses that process, until a schedule is looked for again. -/
theorem runAll_schedule_twinIncrements :
    ∃ state, load Description.twinIncrements.compact = .ok state ∧ state.network.WellFormed ∧
      (∃ schedule,
        (state.runAll [({ dataParallel := false }, .schedule), ({}, .mergeParallelMaps)]).schedule =
          some schedule ∧
        ¬ ∀ id, id ∈ schedule.order ↔
          (state.runAll [({ dataParallel := false }, .schedule),
            ({}, .mergeParallelMaps)]).network.ReachesOutput id) ∧
      ∃ last,
        state.runAll [({ dataParallel := false }, .schedule), ({}, .mergeParallelMaps),
          ({}, .schedule)] = last ∧
        ∃ schedule, last.schedule = some schedule ∧ (schedule.verify last.network).allPass := by
  obtain ⟨net, loaded, passed⟩ := Network.exists_load .twinIncrements (fun net =>
    let state := ({ source := Description.twinIncrements.compact, network := net } : Compilation)
    let last := state.runAll [({ dataParallel := false }, .schedule), ({}, .mergeParallelMaps)]
    net.ports.nextKey ≤ UInt32.size && (last.run {} .schedule).failing = none &&
      last.schedule.any fun schedule => !(schedule.verify last.network).allPass)
    (by decide +kernel) (by decide +kernel) (by decide +kernel)
  have consistent := (Network.presentable_of_load loaded).referable.toConsistent
  have loaded := load_eq loaded
  generalize isState :
    ({ source := Description.twinIncrements.compact, network := net } : Compilation) = state
    at loaded passed
  have same : state.network = net := by rw [← isState]
  simp only [Bool.and_eq_true, decide_eq_true_eq, Option.any_eq_true, Bool.not_eq_true'] at passed
  obtain ⟨⟨keysFit, succeeds⟩, schedule, found, outdated⟩ := passed
  have wellFormed : state.network.WellFormed := same ▸ ⟨consistent, keysFit⟩
  have known :=
    runAll_schedule_iff loaded wellFormed
      [({ dataParallel := false }, .schedule), ({}, .mergeParallelMaps)]
  refine ⟨state, loaded, wellFormed, ⟨schedule, found, ?_⟩, _, rfl, known.2 {} succeeds⟩
  rw [← known.1 schedule found, outdated]
  exact Bool.false_ne_true

/-- Both runs over the section succeed, and the schedule does not pass its check. -/
theorem runAll_schedule_outdated :
    ∃ state, load Description.twinIncrements.compact = .ok state ∧
      (state.run { dataParallel := false } .schedule).failing = none ∧
      ((state.run { dataParallel := false } .schedule).state.run {} .mergeParallelMaps).failing =
        none ∧
      ∃ schedule,
        (state.runAll [({ dataParallel := false }, .schedule), ({}, .mergeParallelMaps)]).schedule =
          some schedule ∧
        schedule.order = ["u", "a", "b", "z"] ∧
        ¬ (schedule.verify (state.runAll [({ dataParallel := false }, .schedule),
          ({}, .mergeParallelMaps)]).network).allPass := by
  obtain ⟨net, loaded, passed⟩ := Network.exists_load .twinIncrements (fun net =>
    let state := ({ source := Description.twinIncrements.compact, network := net } : Compilation)
    let last := state.runAll [({ dataParallel := false }, .schedule), ({}, .mergeParallelMaps)]
    (state.run { dataParallel := false } .schedule).failing = none &&
      ((state.run { dataParallel := false } .schedule).state.run {} .mergeParallelMaps).failing =
      none &&
      last.schedule.any fun schedule => schedule.order =
      ["u", "a", "b", "z"] && !(schedule.verify last.network).allPass)
    (by decide +kernel) (by decide +kernel) (by decide +kernel)
  simp only [Bool.and_eq_true, decide_eq_true_eq, Option.any_eq_true, Bool.not_eq_true'] at passed
  obtain ⟨⟨first, second⟩, schedule, found, order, outdated⟩ := passed
  exact ⟨_, load_eq loaded, first, second, schedule, found,
    order, by rw [outdated]; exact Bool.false_ne_true⟩

end Compilation

end Dataflow
