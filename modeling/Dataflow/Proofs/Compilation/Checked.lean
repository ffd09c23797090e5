import Dataflow.Proofs.Transform.Flattened

/-! What is known of a network that was flattened and validated without an error: which of its
processes fit their kinds. -/

open List

namespace Dataflow

namespace Run

variable {run : Run} {pass term : Pass}

theorem of_advance (succeeds : (run.advance pass).failing = none) :
    run.failing = none ∧ hasErrors (run.state.perform pass).2 = false ∧
    (run.advance pass).state.network = (run.state.perform pass).1.network := by
  unfold advance at succeeds ⊢
  split at succeeds
  · grind
  · rename_i going
    rw [if_neg going]
    simp only [finish] at succeeds ⊢
    split at succeeds
    · cases succeeds
    · rename_i clean
      exact ⟨by simpa using going, by simpa using clean, rfl⟩

theorem of_conclude (succeeds : (run.conclude term).failing = none) : run.failing = none := by
  unfold conclude at succeeds
  split at succeeds
  · exact succeeds
  · rename_i going
    simpa using going

end Run

theorem Compilation.flattened_of_run {state : Compilation} {options : Options}
    (succeeds : (state.run options .validate).failing = none) :
    ∃ report next, Edit.flatten.run state.network = .ok report next ∧
      hasErrors next.validate = false := by
  have required : Pass.required options .validate = [.flatten, .validate] := by
    rcases options with ⟨_ | _, _ | _⟩ <;> decide +kernel
  have ends := Run.of_conclude succeeds
  rw [required, foldl_cons, foldl_cons] at ends
  obtain ⟨between, validated, -⟩ := Run.of_advance ends
  obtain ⟨-, flattened, network⟩ := Run.of_advance between
  simp only [perform, Pass.transformation?, transform] at flattened
  cases runs : Edit.flatten.run state.network with
  | ok report next =>
    refine ⟨report, next, rfl, ?_⟩
    simp only [perform, Pass.transformation?, transform, runs] at network
    simp only [perform, Pass.transformation?, reduceCtorEq, if_false] at validated
    rwa [network] at validated
  | error fault next =>
    rw [runs] at flattened
    cases flattened

namespace Process

theorem defect?_helper {proc : Process} {dir : Direction} (kind : proc.kind = dir.helperKind)
    (inner : proc.ports dir.opposite ≠ []) : proc.defect? = none ↔ proc.allPorts.length = 1 := by
  have total : proc.allPorts.length =
      (proc.ports dir).length + (proc.ports dir.opposite).length := by
    cases dir <;> simp [allPorts, ports, Direction.opposite, Nat.add_comm]
  have positive := length_pos_iff.mpr inner
  rw [defect?_helper_iff kind, total, ← length_eq_zero_iff, ← length_eq_one_iff]
  omega

end Process

theorem Network.defect?_of_validate {net : Network} (clean : hasErrors net.validate = false)
    {id : ProcessId} {proc : Process} (got : net.process? id = some proc)
    (leaf : proc.kind.isLeaf) : proc.defect? = none := by
  cases has : proc.defect? with
  | none => rfl
  | some defect =>
    have mem :
        { severity := .error, subject := some id, message := defect.text, code := some .arity } ∈
        net.validate := by
      simp only [validate, mem_append, mem_flatMap]
      exact .inl
        (.inl (.inl (.inl ⟨(id, proc), mem_toList.mpr got, by simp [processFindings, leaf, has]⟩)))
    exact absurd rfl (any_eq_false.mp clean _ mem)

theorem Compilation.network_of_load {text : String} {state : Compilation}
    (loaded : load text = .ok state) :
    Network.load text = .ok state.network ∧ state.schedule = none := by
  unfold load at loaded
  cases isNetwork : Network.load text with
  | error findings => simp [isNetwork, bind, Except.bind] at loaded
  | ok net =>
    simp only [isNetwork, bind, Except.bind, pure, Except.pure, Except.ok.injEq] at loaded
    subst loaded
    exact ⟨rfl, rfl⟩

/-- Once a loaded network was flattened and validated without an error, what did not fit its kind in
it were helpers with more ports than the one that was led through. -/
theorem Compilation.run_validate_defects {text : String} {state : Compilation} {options : Options}
    (loaded : load text = .ok state) (succeeds : (state.run options .validate).failing = none)
    (id : ProcessId) (process : Process) (stored : state.network.process? id = some process) :
    process.defect? = none ↔
      ∀ composite direction index, state.network.helperAt? composite direction index = some id →
        process.allPorts.length = 1 := by
  obtain ⟨description, -, coherent, built⟩ := Network.exists_description (network_of_load loaded).1
  have consistent := built.declares.inv
  have placed := built.placed coherent.toArranged
  obtain ⟨report, next, runs, clean⟩ := flattened_of_run succeeds
  have flattens := (Edit.ends_of_run runs).mp (Network.ends_flatten consistent placed)
  have fitted := flattens.fitted consistent placed
  -- A process is a composite, or a helper, or it stays and is looked at by validation.
  by_cases isHelper : ∃ composite direction index,
    state.network.helperAt? composite direction index = some id
  · obtain ⟨composite, direction, index, listed⟩ := isHelper
    obtain ⟨kind, inner⟩ := of_found stored (fitted.helpers listed)
    rw [Process.defect?_helper kind inner]
    exact ⟨fun single _ _ _ _ => single, fun single => single composite direction index listed⟩
  · refine iff_of_true ?_ fun composite direction index listed =>
      absurd ⟨composite, direction, index, listed⟩ isHelper
    cases isLeaf : process.kind.isLeaf with
    | false =>
      obtain ⟨inside, kind⟩ : ∃ inside, process.kind = .composite inside := by
        cases kind : process.kind <;> simp_all [Kind.isLeaf, Kind.inside?]
      exact (Process.defect?_composite_iff kind).mpr (fitted.counts stored kind)
    | true =>
      have stays : ¬ state.network.Passing id := by
        rintro (⟨again, storedAgain, composite⟩ | listed)
        · obtain rfl := Option.mem_unique stored storedAgain
          simp [isLeaf] at composite
        · exact isHelper listed
      have storedLater :=
        (flattens.process?_eq_some consistent placed).mpr ⟨stays, process, stored, rfl⟩
      exact (Network.defect?_of_validate clean storedLater isLeaf :)

theorem Compilation.load_eq {text : String} {net : Network} (loaded : Network.load text = .ok net) :
    load text = .ok { source := text, network := net } := by
  rw [load, loaded]
  rfl

/-- A helper inside two composites has a single port, and fits its kind. -/
theorem Compilation.run_validate_defects_nestedPassage :
    ∃ state process, load Description.nestedPassage.compact = .ok state ∧
      (state.run {} .validate).failing = none ∧ state.network.process? "c1" = some process ∧
      process.defect? = none := by
  obtain ⟨net, loaded, passed⟩ := Network.exists_load .nestedPassage (fun net =>
    (({ source := Description.nestedPassage.compact, network := net } : Compilation).run
    {} .validate).failing = none &&
      (net.process? "c1").any (·.allPorts.length = 1)) (by decide +kernel) (by decide +kernel)
      (by decide +kernel)
  simp only [Bool.and_eq_true, decide_eq_true_eq, Option.any_eq_true] at passed
  obtain ⟨succeeds, process, stored, single⟩ := passed
  have fits := run_validate_defects (load_eq loaded) succeeds "c1" process stored
  exact ⟨_, process, load_eq loaded, succeeds, stored, fits.mpr fun _ _ _ _ => single⟩

/-- A composite whose helper feeds two processes at once. -/
def Description.forkedHelper : Description where
  processes := [
    { id := "a", kind := .delay "0", inPorts := [{ name := "i" }], outPorts := [{ name := "o" }] },
    { id := "c", kind := .composite { inputs := ["h"] }, inPorts := [{ name := "i" }] },
    { id := "h", parent := some "c", kind := .inport,
      outPorts := [{ name := "o0" }, { name := "o1" }] },
    { id := "x", parent := some "c", kind := .delay "0", inPorts := [{ name := "i" }],
      outPorts := [{ name := "o" }] },
    { id := "y", parent := some "c", kind := .delay "0", inPorts := [{ name := "i" }],
      outPorts := [{ name := "o" }] }]
  connections :=
    [{ source := "a.o", target := "c.i" }, { source := "h.o0", target := "x.i" },
      { source := "h.o1", target := "y.i" }]
  inputs := ["a.i"]
  outputs := ["x.o", "y.o"]

/-- The second connection of the helper gets lost, and no error is found. -/
theorem Compilation.run_validate_defects_forkedHelper :
    ∃ state process, load Description.forkedHelper.compact = .ok state ∧
      (state.run {} .validate).failing = none ∧ state.network.process? "h" = some process ∧
      process.defect? ≠ none := by
  obtain ⟨net, loaded, passed⟩ := Network.exists_load .forkedHelper (fun net =>
    (({ source := Description.forkedHelper.compact, network := net } : Compilation).run
    {} .validate).failing = none &&
      (net.process? "h").any (·.defect? ≠ none)) (by decide +kernel) (by decide +kernel)
      (by decide +kernel)
  simp only [Bool.and_eq_true, decide_eq_true_eq, Option.any_eq_true] at passed
  obtain ⟨succeeds, process, stored, misfit⟩ := passed
  exact ⟨_, process, load_eq loaded, succeeds, stored, misfit⟩

end Dataflow
