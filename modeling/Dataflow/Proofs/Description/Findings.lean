import Dataflow.Proofs.Description.Build
import Mathlib.Data.List.Basic

/-! When the construction of a network finds nothing wrong, and how it ends then. -/

open List

namespace Dataflow.Builder

variable {α β : Type} {net : Network} {edit : Edit Unit} {reached : Network → Prop}

/-- A step finds nothing exactly if something holds, and then ends in a known way. -/
structure Finds (step : Builder α) (net : Network) (holds : Prop) (ends : α → Network → Prop) :
    Prop where
  judges : ∀ findings : List Diagnostic, (step.run { net, findings }).2.findings = findings ↔ holds
  reaches : holds →
    ∀ findings : List Diagnostic,
      ends (step.run { net, findings }).1 (step.run { net, findings }).2.net

namespace Finds

variable {step : Builder α} {next : α → Builder β} {holds holdsToo : Prop}
  {ends : α → Network → Prop}

theorem congr (finds : Finds step net holds ends) (same : holds ↔ holdsToo)
    {endsToo : α → Network → Prop}
    (looser : ∀ ans after, holdsToo → ends ans after → endsToo ans after) :
    Finds step net holdsToo endsToo where
  judges findings := (finds.judges findings).trans same
  reaches good findings := looser _ _ good (finds.reaches (same.mpr good) findings)

theorem of_error
    (grown : ∀ findings, ∃ finding, (step.run { net, findings }).2.findings = findings ++ [finding])
    (bad : ¬ holds) : Finds step net holds ends where
  judges findings := by
    obtain ⟨finding, has⟩ := grown findings
    simp [has, bad]
  reaches good := absurd good bad

theorem of_same {ans : α} {after : Network}
    (runs : ∀ findings, step.run { net, findings } = (ans, { net := after, findings })) :
    Finds step net True fun known reached => known = ans ∧ reached = after where
  judges findings := by simp [runs findings]
  reaches _ findings := by simp [runs findings]

/-- Steps in sequence find nothing exactly if none of them does. -/
theorem bind (first : Finds step net holds ends) {endsToo : β → Network → Prop}
    (second : ∀ ans between, holds → ends ans between → Finds (next ans) between holdsToo endsToo)
    (grows : Grows step) (growsToo : ∀ ans, Grows (next ans)) :
    Finds (step >>= next) net (holds ∧ holdsToo) endsToo := by
  have runs (findings : List Diagnostic) : (step >>= next).run { net, findings } =
      (next (step.run { net, findings }).1).run (step.run { net, findings }).2 := rfl
  by_cases good : holds
  · -- What is found then is what the second step finds.
    have state (findings : List Diagnostic) :
        (step.run { net, findings }).2 =
        { net := (step.run { net, findings }).2.net, findings } := by
      have clean := (first.judges findings).mpr good
      cases between : (step.run { net, findings }).2 with
      | mk after has =>
        rw [between] at clean
        rw [← clean]
    constructor
    · intro findings
      rw [runs, state]
      exact ((second _ _ good (first.reaches good findings)).judges findings).trans (by simp [good])
    · intro both findings
      rw [runs, state]
      exact (second _ _ good (first.reaches good findings)).reaches both.2 findings
  · refine ⟨fun findings => ⟨fun clean => ?_, fun both => absurd both.1 good⟩,
      fun both => absurd both.1 good⟩
    obtain ⟨more, -, grown⟩ := grows.appends { net, findings }
    obtain ⟨behind, -, grownToo⟩ :=
      (growsToo (step.run { net, findings }).1).appends (step.run { net, findings }).2
    rw [runs, grownToo, grown, append_assoc] at clean
    have none : more = [] := (append_eq_nil_iff.mp (append_right_eq_self.mp clean)).1
    exact absurd ((first.judges findings).mp (by rw [grown, none, append_nil])) good

theorem pure (ans : α) :
    Finds (Pure.pure ans) net True fun known after => known = ans ∧ after = net :=
  .of_same fun _ => rfl

theorem get_bind {next : Building → Builder α}
    (finds : ∀ building : Building, building.net = net → Finds (next building) net holds ends) :
    Finds (MonadState.get >>= next) net holds ends where
  judges findings := (finds { net, findings } rfl).judges findings
  reaches good findings := (finds { net, findings } rfl).reaches good findings

theorem discard (finds : Finds step net holds ends) :
    Finds (Functor.discard step) net holds fun _ after => ∃ ans, ends ans after where
  judges := finds.judges
  reaches good findings := ⟨_, finds.reaches good findings⟩

section

variable (succeeds : holds → ∃ after, edit.run net = .ok () after ∧ reached after)
  (stops : ¬ holds → ∃ fault after, edit.run net = .error fault after) (subject : Option ProcessId)

include succeeds stops subject

theorem attempt (context : String) :
    Finds (Builder.attempt subject context edit) net holds fun done after =>
      done = true ∧ reached after := by
  by_cases good : holds
  · obtain ⟨after, runs, reaches⟩ := succeeds good
    have same : Finds (Builder.attempt subject context edit) net True fun done reached =>
        done = true ∧ reached = after := by
      refine .of_same fun findings => ?_
      simp only [Builder.attempt, StateT.run_bind, StateT.run_get, pure_bind, runs]
      rfl
    exact same.congr (by simp [good]) fun _ _ _ done => ⟨done.1, done.2 ▸ reaches⟩
  · obtain ⟨fault, after, refuses⟩ := stops good
    refine .of_error (fun findings => ?_) good
    simp only [Builder.attempt, StateT.run_bind, StateT.run_get, pure_bind, refuses]
    exact ⟨_, rfl⟩

theorem discard_attempt (context : String) :
    Finds (Functor.discard (Builder.attempt subject context edit)) net holds fun _ after =>
      reached after :=
  (attempt succeeds stops subject context).discard.congr Iff.rfl fun _ _ _ ⟨_, _, reaches⟩ =>
    reaches

end

/-- Steps for the entries of a list find nothing exactly if each of them does, given those before
it. -/
theorem forM {entries : List α} {step : α → Builder PUnit} (holds : List α → α → Prop)
    (reached : List α → Network → Prop)
    (each : ∀ done entry net, done ++ [entry] <+: entries → reached done net →
      Finds (step entry) net (holds done entry) fun _ after => reached (done ++ [entry]) after)
    (grows : ∀ entry, Grows (step entry)) (start : reached [] net) :
    Finds (entries.forM step) net (∀ done entry, done ++ [entry] <+: entries → holds done entry)
      fun _ after => reached entries after := by
  suffices behind : ∀ rest done net, done ++ rest = entries → reached done net →
      Finds (rest.forM step) net
      (∀ front entry, front ++ [entry] <+: rest → holds (done ++ front) entry) fun _ after =>
        reached (done ++ rest) after by
    exact (behind entries [] net rfl start).congr Iff.rfl fun _ _ _ done => done
  intro rest
  induction rest with
  | nil =>
    intro done net split start
    exact (pure PUnit.unit).congr (by simp) fun _ _ _ ⟨_, same⟩ => by
      rw [same, append_nil]; exact start
  | cons entry rest ih =>
    intro done net split start
    have ahead : done ++ [entry] <+: entries :=
      ⟨rest, by rw [← split, append_assoc, singleton_append]⟩
    have first := each done entry net ahead start
    have both :=
      first.bind
        (fun _ between _ next =>
          ih (done ++ [entry]) between (by rw [← split, append_assoc]; rfl) next)
        (grows entry) fun _ => Grows.forM grows rest
    refine both.congr ⟨?_, ?_⟩ fun _ after _ reaches => by rwa [append_assoc] at reaches
    · rintro ⟨here, new⟩ front other ahead
      cases front with
      | nil => grind
      | cons head front => grind
    · intro all
      refine ⟨by simpa using all [] entry (by simp), fun front other ahead => ?_⟩
      simpa using all (entry :: front) other (cons_prefix_cons.mpr ⟨rfl, ahead⟩)

/-- Questions about the entries of a list find nothing exactly if none of them does. -/
theorem mapM {step : α → Builder β} {holds : α → Prop} {known : α → β}
    (each : ∀ entry, Finds (step entry) net (holds entry) fun ans after =>
      ans = known entry ∧ after = net) (grows : ∀ entry, Grows (step entry)) (entries : List α) :
    Finds (entries.mapM step) net (∀ entry ∈ entries, holds entry) fun answers after =>
      answers = entries.map known ∧ after = net := by
  induction entries with
  | nil =>
    exact (pure []).congr (by simp) fun _ _ _ same => same
  | cons entry entries ih =>
    rw [mapM_cons]
    refine ((each entry).bind (fun first between _ ⟨isFirst, same⟩ => ?_) (grows entry) fun _ =>
      (Grows.mapM grows entries).bind fun _ => .pure _).congr forall_mem_cons.symm fun _ _ _ same =>
      same
    subst same
    refine (ih.bind (fun others between _ ⟨isOthers, same⟩ => ?_) (Grows.mapM grows entries)
      fun _ => .pure _).congr (and_iff_left trivial)
      fun _ _ _ same => same
    subst same
    rw [isFirst, isOthers]
    exact pure _

end Finds

end Dataflow.Builder
