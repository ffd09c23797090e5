import Dataflow.Network.Edit

/-! How edits end: what holds of a run follows from what holds of its steps. -/

open List

namespace Dataflow.Edit

variable {α β : Type} {net between : Network} {fault : Fault}

@[simp] theorem run_throw (fault : Fault) : (throw fault : Edit α).run net = .error fault net := rfl

@[simp] theorem run_answer (ans : α) :
    (liftM (Except.ok ans : Except Fault α) : Edit α).run net = .ok ans net :=
  rfl

@[simp] theorem run_refusal (fault : Fault) :
    (liftM (Except.error fault : Except Fault α) : Edit α).run net = .error fault net :=
  rfl

theorem run_ask {question : Network → Except Fault α} {ans : α} {further : α → Edit β}
    (asked : question net = .ok ans) :
    (do further (← question (← get)) : Edit β).run net = (further ans).run net := by
  simp only [EStateM.run_bind, EStateM.run_get, asked, run_answer]

@[simp] theorem run_map (change : α → β) (edit : Edit α) :
    (change <$> edit).run net = match edit.run net with
      | .ok ans after => .ok (change ans) after
      | .error fault after => .error fault after := by
  show (EStateM.map change edit : Edit β) net = _
  simp only [EStateM.map, EStateM.run]
  cases edit net <;> rfl

@[simp] theorem run_discard (edit : Edit α) :
    (discard edit).run net = match edit.run net with
      | .ok _ after => .ok () after
      | .error fault after => .error fault after := by
  exact run_map (fun _ => ()) edit

@[simp] theorem run_forM_singleton (step : α → Edit PUnit) (entry : α) :
    ([entry].forM step).run net = (step entry).run net := by
  show (step entry >>= fun _ => pure PUnit.unit : Edit PUnit).run net = _
  rw [EStateM.run_bind]
  cases (step entry).run net <;> rfl

theorem run_forM_cons_error (step : α → Edit PUnit) {entry : α} {rest : List α}
    (refuses : (step entry).run net = .error fault between) :
    ((entry :: rest).forM step).run net = .error fault between := by
  show (step entry >>= fun _ => rest.forM step : Edit PUnit).run net = _
  rw [EStateM.run_bind, refuses]

theorem run_forM_append {step : α → Edit PUnit} {front back : List α}
    (runs : (front.forM step).run net = .ok .unit between) :
    ((front ++ back).forM step).run net = (back.forM step).run between := by
  induction front generalizing net with
  | nil =>
    cases runs
    rfl
  | cons entry front ih =>
    change (step entry >>= fun _ => front.forM step : Edit PUnit).run net = _ at runs
    show (step entry >>= fun _ => (front ++ back).forM step : Edit PUnit).run net = _
    rw [EStateM.run_bind] at runs ⊢
    cases first : (step entry).run net with
    | ok ans mid =>
      rw [first] at runs
      exact ih runs
    | error fault mid => simp [first] at runs

theorem of_run_foldlM {step : β → α → Edit β} (holds : List α → β → Network → Prop)
    (each : ∀ {entry rest ans net result next}, holds (entry :: rest) ans net →
      (step ans entry).run net = .ok result next → holds rest result next)
    {entries : List α} {ans result : β} {next : Network} (ready : holds entries ans net)
    (runs : (entries.foldlM step ans).run net = .ok result next) : holds [] result next := by
  induction entries generalizing ans net with
  | nil =>
    cases runs
    exact ready
  | cons entry rest ih =>
    rw [foldlM_cons, EStateM.run_bind] at runs
    cases first : (step ans entry).run net with
    | ok between mid =>
      rw [first] at runs
      exact ih (each ready first) runs
    | error fault mid => simp [first] at runs

/-- An edit ends with an answer and a network, or at a fault with what was done before it. -/
def Ends (edit : Edit α) (net : Network) (answered : α → Network → Prop) (failed : Network → Prop) :
    Prop :=
  match edit.run net with
  | .ok answer after => answered answer after
  | .error _ after => failed after

/-- The network an edit leaves, whether it succeeds or stops at a fault. -/
def after (edit : Edit α) (net : Network) : Network :=
  match edit.run net with
  | .ok _ after => after
  | .error _ after => after

/-- Whether an edit ends with an answer and a network of a given kind. -/
def succeeds (edit : Edit α) (net : Network) (answered : α → Network → Prop)
    [∀ answer after, Decidable (answered answer after)] : Bool :=
  match edit.run net with
  | .ok answer after => answered answer after
  | .error .. => false

/-- The fault at which an edit stops, if it does. -/
def refusal? (edit : Edit α) (net : Network) : Option Fault :=
  match edit.run net with
  | .ok .. => none
  | .error fault _ => some fault

variable {edit : Edit α} {next : α → Edit β} {answered : α → Network → Prop}
  {failed : Network → Prop}

theorem exists_run_of_succeeds [∀ ans after, Decidable (answered ans after)]
    (succeeds : edit.succeeds net answered) :
    ∃ ans after, edit.run net = .ok ans after ∧ answered ans after := by
  unfold Edit.succeeds at succeeds
  split at succeeds
  · grind
  · cases succeeds

theorem exists_run_of_refusal? (refuses : edit.refusal? net = some fault) :
    ∃ after, edit.run net = .error fault after := by
  unfold refusal? at refuses
  split at refuses
  · cases refuses
  · grind

theorem Ends.after {kept : Network → Prop} (ends : edit.Ends net (fun _ => kept) kept) :
    kept (edit.after net) := by
  unfold Edit.Ends at ends
  unfold Edit.after
  split at ends <;> simp_all

/-- A run can be described more loosely. -/
theorem Ends.mono {looser : α → Network → Prop} {looserFailed : Network → Prop}
    (ends : edit.Ends net answered failed)
    (onAns : ∀ ans after, answered ans after → looser ans after)
    (onFault : ∀ after, failed after → looserFailed after) : edit.Ends net looser looserFailed := by
  unfold Edit.Ends at *
  split at ends
  · exact onAns _ _ ends
  · exact onFault _ ends

theorem Ends.imp {looser : α → Network → Prop} (ends : edit.Ends net answered failed)
    (onAns : ∀ ans after, answered ans after → looser ans after) : edit.Ends net looser failed :=
  ends.mono onAns fun _ fault => fault

theorem Ends.and {answeredToo : α → Network → Prop} {failedToo : Network → Prop}
    (ends : edit.Ends net answered failed) (endsToo : edit.Ends net answeredToo failedToo) :
    edit.Ends net (fun ans after => answered ans after ∧ answeredToo ans after) fun after =>
      failed after ∧ failedToo after := by
  unfold Edit.Ends at *
  cases runs : edit.run net with
  | ok ans after =>
    rw [runs] at ends endsToo
    exact ⟨ends, endsToo⟩
  | error fault after =>
    rw [runs] at ends endsToo
    exact ⟨ends, endsToo⟩

theorem ends_bind {answered : β → Network → Prop} :
    (edit >>= next).Ends net answered failed ↔
      edit.Ends net (fun ans between => (next ans).Ends between answered failed) failed := by
  unfold Edit.Ends
  rw [EStateM.run_bind]
  cases edit.run net <;> rfl

@[simp] theorem ends_pure {ans : α} :
    (pure ans : Edit α).Ends net answered failed ↔ answered ans net :=
  Iff.rfl

@[simp] theorem ends_throw : (throw fault : Edit α).Ends net answered failed ↔ failed net :=
  Iff.rfl

@[simp] theorem ends_get {answered : Network → Network → Prop} :
    (get : Edit Network).Ends net answered failed ↔ answered net net :=
  Iff.rfl

@[simp] theorem ends_answer {ans : α} :
    (liftM (Except.ok ans : Except Fault α) : Edit α).Ends net answered failed ↔ answered ans net :=
  Iff.rfl

@[simp] theorem ends_refusal :
    (liftM (Except.error fault : Except Fault α) : Edit α).Ends net answered failed ↔ failed net :=
  Iff.rfl

@[simp] theorem ends_modify {change : Network → Network} {answered : PUnit → Network → Prop} :
    (modify change : Edit PUnit).Ends net answered failed ↔ answered .unit (change net) :=
  Iff.rfl

@[simp] theorem ends_discard {answered : Unit → Network → Prop} :
    (discard edit).Ends net answered failed ↔ edit.Ends net (fun _ => answered ()) failed := by
  unfold Edit.Ends
  rw [run_discard]
  cases edit.run net <;> rfl

theorem ends_foldlM {step : β → α → Edit β} (holds : List α → β → Network → Prop)
    (each : ∀ {entry rest ans net}, holds (entry :: rest) ans net →
      (step ans entry).Ends net (fun result next => holds rest result next) failed)
    {entries : List α} {ans : β} (ready : holds entries ans net) :
    (entries.foldlM step ans).Ends net (fun result next => holds [] result next) failed := by
  induction entries generalizing ans net with
  | nil => exact ready
  | cons entry rest ih =>
    exact ends_bind.mpr ((each ready).imp fun result next readyRest => ih readyRest)

theorem ends_mapM {step : α → Edit β} (holds : List α → Network → Prop)
    (each : ∀ {entry rest net}, holds (entry :: rest) net →
      (step entry).Ends net (fun _ next => holds rest next) failed) {entries : List α}
    (ready : holds entries net) :
    (entries.mapM step).Ends net (fun _ next => holds [] next) failed := by
  induction entries generalizing net with
  | nil => exact ready
  | cons entry rest ih =>
    rw [mapM_cons]
    exact ends_bind.mpr ((each ready).imp fun _ next readyRest => ends_bind.mpr (ih readyRest))

theorem forM_eq_mapM (step : α → Edit PUnit) (entries : List α) :
    entries.forM step = (do let _ ← entries.mapM step) := by
  induction entries with
  | nil => rfl
  | cons entry rest ih =>
    show (step entry >>= fun _ => rest.forM step) = _
    rw [ih, mapM_cons]
    simp

theorem ends_forM {step : α → Edit PUnit} (holds : List α → Network → Prop)
    (each : ∀ {entry rest net}, holds (entry :: rest) net →
      (step entry).Ends net (fun _ next => holds rest next) failed) {entries : List α}
    (ready : holds entries net) :
    (entries.forM step).Ends net (fun _ next => holds [] next) failed := by
  rw [forM_eq_mapM]
  exact ends_bind.mpr (ends_mapM holds each ready)

theorem ends_of_run {ans : α} {after : Network} (runs : edit.run net = .ok ans after) :
    edit.Ends net answered failed ↔ answered ans after := by
  rw [Ends, runs]

theorem Ends.exists_run (ends : edit.Ends net answered fun _ => False) :
    ∃ ans next, edit.run net = .ok ans next ∧ answered ans next := by
  unfold Edit.Ends at ends
  split at ends
  · grind
  · exact ends.elim

end Dataflow.Edit
