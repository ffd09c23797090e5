import Dataflow.Description.Build
import Dataflow.Proofs.Edit.Calls

/-! Networks are built from descriptions by calls, whatever is wrong with the descriptions, and all
that is found is errors. -/

open List

namespace Dataflow

namespace Builder

variable {α β : Type} {step : Builder α} {next : α → Builder β}

/-- A step of the construction makes calls, and adds findings to those before, all of which are
errors. -/
structure Grows (step : Builder α) : Prop where
  proceeds : ∀ building : Building, building.net.Consistent →
    building.net.Proceeds (step.run building).2.net
  appends : ∀ building : Building, ∃ more : List Diagnostic, (∀ finding ∈ more, finding.isError) ∧
    (step.run building).2.findings = building.findings ++ more

namespace Grows

theorem bind (first : Grows step) (second : ∀ ans, Grows (next ans)) : Grows (step >>= next) where
  proceeds building inv := by
    have proceeds := first.proceeds building inv
    exact proceeds.trans ((second _).proceeds _ proceeds.inv)
  appends building := by
    obtain ⟨pre, errors, grown⟩ := first.appends building
    obtain ⟨behind, errorsToo, grownToo⟩ :=
      (second (step.run building).1).appends (step.run building).2
    refine ⟨pre ++ behind, fun finding mem => ?_, ?_⟩
    · grind
    · rw [← append_assoc, ← grown]
      exact grownToo

theorem of_same (same : ∀ building, (step.run building).2 = building) : Grows step where
  proceeds building inv := by rw [same]; exact .refl inv
  appends building := ⟨[], by simp, by rw [same, append_nil]⟩

theorem pure (ans : α) : Grows (Pure.pure ans) := .of_same fun _ => rfl

theorem get : Grows MonadState.get := .of_same fun _ => rfl

theorem discard (grows : Grows step) : Grows (Functor.discard step) where
  proceeds := grows.proceeds
  appends := grows.appends

theorem forM {step : α → Builder PUnit} (grows : ∀ entry, Grows (step entry)) (entries : List α) :
    Grows (entries.forM step) := by
  induction entries with
  | nil => exact pure _
  | cons entry entries ih => exact (grows entry).bind fun _ => ih

theorem mapM {step : α → Builder β} (grows : ∀ entry, Grows (step entry)) (entries : List α) :
    Grows (entries.mapM step) := by
  induction entries with
  | nil => exact pure _
  | cons entry entries ih =>
    rw [mapM_cons]
    exact (grows entry).bind fun _ => ih.bind fun _ => pure _

end Grows

theorem grows_report {finding : Diagnostic} (isError : finding.isError) :
    Grows (report finding) where
  proceeds _ inv := .refl inv
  appends _ := ⟨[finding], by simpa using isError, rfl⟩

theorem grows_malformed (subject : Option ProcessId) (message : String) :
    Grows (malformed subject message) :=
  grows_report rfl

theorem grows_unknown (subject : Option ProcessId) (message : String) :
    Grows (unknown subject message) :=
  grows_report rfl

section

variable (subject : Option ProcessId) (context : String)

theorem grows_attempt {edit : Edit Unit} (call : Call)
    (made : ∀ net, edit.after net = call.apply net) (allowed : ∀ net, call.Allowed net) :
    Grows (attempt subject context edit) where
  proceeds building inv := by
    have left : ((attempt subject context edit).run building).2.net = edit.after building.net := by
      simp only [attempt, StateT.run_bind, StateT.run_get, pure_bind, Edit.after]
      cases edit.run building.net <;> rfl
    rw [left, made]
    exact .of_call call inv (allowed _)
  appends building := by
    simp only [attempt, StateT.run_bind, StateT.run_get, pure_bind]
    cases edit.run building.net with
    | ok ans next => exact ⟨[], by simp, (append_nil building.findings).symm⟩
    | error fault next => exact ((grows_malformed ..).bind fun _ => .pure false).appends _

theorem grows_attempt_addProcess (id : ProcessId) (kind : Kind Composite) (hier : Hierarchy) :
    Grows (attempt subject context (discard <| Edit.addProcess id kind hier)) :=
  grows_attempt subject context (.addProcess id kind hier) (by simp [Call.apply, Call.edit])
    fun _ => trivial

theorem grows_attempt_addPort (owner : ProcessId) (name : String) (dir : Direction)
    (dataType : Option DataType) :
    Grows (attempt subject context (discard <| Edit.addPort owner name dir dataType)) :=
  grows_attempt subject context (.addPort owner name dir dataType) (by simp [Call.apply, Call.edit])
    fun _ => trivial

theorem grows_attempt_modifyProcess (id : ProcessId) {change : Process → Process}
    (kept : ∀ proc dir, (change proc).ports dir = proc.ports dir) :
    Grows (attempt subject context (Edit.modifyProcess id change)) :=
  grows_attempt subject context (.modifyProcess id change) (by simp [Call.apply, Call.edit])
    fun _ => kept

theorem grows_attempt_connect (src dst : PortKey) :
    Grows (attempt subject context (Edit.connect src dst)) :=
  grows_attempt subject context (.connect src dst) (by simp [Call.apply, Call.edit])
    fun _ => trivial

theorem grows_attempt_addInput (key : PortKey) :
    Grows (attempt subject context (Edit.addInput key)) :=
  grows_attempt subject context (.addInput key) (by simp [Call.apply, Call.edit]) fun _ => trivial

theorem grows_attempt_addOutput (key : PortKey) :
    Grows (attempt subject context (Edit.addOutput key)) :=
  grows_attempt subject context (.addOutput key) (by simp [Call.apply, Call.edit]) fun _ => trivial

end

theorem grows_locate (desc : Description) (decl : ProcessDecl) : Grows (locate desc decl) := by
  unfold locate
  split
  · exact .pure _
  · exact (grows_malformed ..).bind fun _ => .pure _
  · exact (grows_unknown ..).bind fun _ => .pure _

theorem grows_addPorts (id : ProcessId) (dir : Direction) (ports : List PortDecl) :
    Grows (ports.forM fun port =>
      discard <| attempt (some id) "" (discard <| Edit.addPort id port.name dir port.dataType)) :=
  .forM (fun _ => (grows_attempt_addPort ..).discard) ports

theorem grows_addProcess (hier : Hierarchy) (decl : ProcessDecl) :
    Grows (addProcess hier decl) := by
  refine (grows_attempt_addProcess ..).bind fun added => ?_
  split
  · exact (grows_addPorts ..).bind fun _ => grows_addPorts ..
  · exact .pure _

theorem grows_addProcesses (desc : Description) : Grows (addProcesses desc) :=
  (Grows.mapM (grows_locate desc) _).bind fun _ => Grows.forM (fun _ => grows_addProcess ..) _

theorem grows_fillComposite (decl : ProcessDecl) : Grows (fillComposite decl) := by
  unfold fillComposite
  split
  · refine Grows.get.bind fun _ => ?_
    split
    · refine (Grows.forM (fun helper => Grows.get.bind fun _ => ?_) _).bind fun _ =>
        (grows_attempt_modifyProcess _ _ _ fun _ dir => by cases dir <;> rfl).discard
      split
      · exact .pure _
      · exact grows_unknown ..
    · exact .pure _
  · exact .pure _

theorem grows_resolve (dir : Direction) (ref : String) : Grows (resolve dir ref) := by
  refine Grows.get.bind fun _ => ?_
  dsimp only
  split
  · exact (grows_malformed ..).bind fun _ => .pure _
  split
  · exact (grows_unknown ..).bind fun _ => .pure _
  split
  · exact .pure _
  · exact (grows_unknown ..).bind fun _ => .pure _

theorem grows_addConnection (link : Connection) : Grows (addConnection link) := by
  refine (grows_resolve ..).bind fun _ => (grows_resolve ..).bind fun _ => ?_
  split
  · exact (grows_attempt_connect ..).discard
  · exact .pure _

theorem grows_addInput (ref : String) : Grows (addInput ref) := by
  refine (grows_resolve ..).bind fun _ => ?_
  split
  · exact (grows_attempt_addInput ..).discard
  · exact .pure _

theorem grows_addOutput (ref : String) : Grows (addOutput ref) := by
  refine (grows_resolve ..).bind fun _ => ?_
  split
  · exact (grows_attempt_addOutput ..).discard
  · exact .pure _

theorem grows_build (desc : Description) : Grows (build desc) := by
  refine (grows_addProcesses desc).bind fun _ => ?_
  refine (Grows.forM grows_fillComposite _).bind fun _ =>
    (Grows.forM grows_addConnection _).bind fun _ => ?_
  exact (Grows.forM grows_addInput _).bind fun _ => Grows.forM grows_addOutput _

end Builder

theorem Network.proceeds_of_load {text : String} {net : Network}
    (loaded : Network.load text = .ok net) : Network.Proceeds {} net := by
  unfold Network.load at loaded
  split at loaded
  · rename_i desc _
    unfold Description.build at loaded
    dsimp only at loaded
    split at loaded
    · simp at loaded
    · cases loaded
      exact (Builder.grows_build desc).proceeds {} Consistent.empty
  · simp at loaded

end Dataflow
