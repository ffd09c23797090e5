import Dataflow.Proofs.Edit.Safe

/-! Everything that is done to a network is made of a few calls, each of which keeps it
consistent. -/

namespace Dataflow

/-- The calls that all edits of a network are made of. -/
inductive Call where
  /-- Takes a fresh name. -/
  | freshId (stem : String)
  /-- Adds a process under a given name. -/
  | addProcess (id : ProcessId) (kind : Kind Composite) (hierarchy : Hierarchy)
  /-- Changes a process. -/
  | modifyProcess (id : ProcessId) (change : Process → Process)
  /-- Removes a process. -/
  | removeProcess (id : ProcessId)
  /-- Adds a port to a process. -/
  | addPort (owner : ProcessId) (name : String) (direction : Direction) (dataType : Option DataType)
  /-- Connects two ports. -/
  | connect (source target : PortKey)
  /-- Breaks a connection. -/
  | disconnect (key : PortKey)
  /-- Makes a port an input of the graph. -/
  | addInput (key : PortKey)
  /-- Makes a port an output of the graph. -/
  | addOutput (key : PortKey)
  /-- Puts one port in the place of another on the boundary. -/
  | replaceBoundary (old new : PortKey)

namespace Call

/-- What a call does; only a call that adds a port hands out a key. -/
def edit : Call → Edit (Option PortKey)
  | .freshId stem => (fun _ => none) <$> Edit.freshId stem
  | .addProcess id kind hierarchy => (fun _ => none) <$> Edit.addProcess id kind hierarchy
  | .modifyProcess id change => (fun _ => none) <$> Edit.modifyProcess id change
  | .removeProcess id => (fun _ => none) <$> Edit.removeProcess id
  | .addPort owner name direction dataType => some <$> Edit.addPort owner name direction dataType
  | .connect source target => (fun _ => none) <$> Edit.connect source target
  | .disconnect key => (fun _ => none) <$> Edit.disconnect key
  | .addInput key => (fun _ => none) <$> Edit.addInput key
  | .addOutput key => (fun _ => none) <$> Edit.addOutput key
  | .replaceBoundary old new => (fun _ => none) <$> Edit.replaceBoundary old new

/-- The network that a call leaves, whether it succeeds or not. -/
def apply (call : Call) (net : Network) : Network :=
  call.edit.after net

/-- The key that a call hands out, if it adds a port and succeeds. -/
def key? (call : Call) (net : Network) : Option PortKey :=
  match call.edit.run net with
  | .ok key? _ => key?
  | .error _ _ => none

/-- What a call asks of its arguments, besides what it checks itself. -/
def Allowed (net : Network) : Call → Prop
  | .modifyProcess _ change =>
    ∀ process direction, (change process).ports direction = process.ports direction
  | .replaceBoundary _ new => net.Live [new]
  | _ => True

end Call

/-- Allowed calls lead from one network to another, each of them successful or not, and hand out the
given keys on the way. -/
inductive Network.Calls : Network → List PortKey → Network → Prop where
  /-- No call leads anywhere else. -/
  | done (net : Network) : Calls net [] net
  /-- A call comes before the others. -/
  | call {net next : Network} {keys : List PortKey} (call : Call) (allowed : call.Allowed net)
    (onwards : Calls (call.apply net) keys next) : Calls net ((call.key? net).toList ++ keys) next

variable {net between next : Network}

@[simp] theorem Edit.after_map {α β : Type} (change : α → β) (edit : Edit α) :
    (change <$> edit).after net = edit.after net := by
  unfold after
  rw [run_map]
  cases edit.run net <;> rfl

@[simp] theorem Edit.after_discard {α : Type} (edit : Edit α) :
    (discard edit).after net = edit.after net :=
  after_map (fun _ => ()) edit

theorem Call.evolves_apply (call : Call) (inv : net.Consistent) (allowed : call.Allowed net) :
    net.Evolves (call.apply net) := by
  have each {α : Type} {edit : Edit α} {pre : Network → Prop} {behind : α → Network → Prop}
      (guarded : edit.Guarded pre behind) (ready : pre net) (change : α → Option PortKey) :
      net.Evolves ((change <$> edit).after net) := by
    rw [Edit.after_map]
    exact ((guarded.ends net inv ready).mono (fun _ _ held => held.1) fun _ evo => evo).after
  cases call with
  | freshId stem => exact each (Edit.safe_freshId stem) trivial _
  | addProcess id kind hier => exact each (Edit.safe_addProcess id kind hier) trivial _
  | modifyProcess id change => exact each (Edit.safe_modifyProcess allowed) trivial _
  | removeProcess id => exact each (Edit.safe_removeProcess id) trivial _
  | addPort owner name dir dataType =>
    exact each (Edit.safe_addPort owner name dir dataType) trivial _
  | connect src dst => exact each (Edit.safe_connect src dst) trivial _
  | disconnect key => exact each (Edit.safe_disconnect key) trivial _
  | addInput key => exact each (Edit.safe_addInput key) trivial _
  | addOutput key => exact each (Edit.safe_addOutput key) trivial _
  | replaceBoundary old new => exact each (Edit.guarded_replaceBoundary old new) allowed _

namespace Network

theorem Calls.append {keys more : List PortKey} (first : net.Calls keys between)
    (second : between.Calls more next) : net.Calls (keys ++ more) next := by
  induction first with
  | done => exact second
  | call call allowed _ ih =>
    rw [List.append_assoc]
    exact .call call allowed (ih second)

/-- A network evolves into another one by calls. -/
structure Proceeds (net next : Network) : Prop extends net.Evolves next where
  calls : ∃ keys, net.Calls keys next

namespace Proceeds

theorem refl (inv : net.Consistent) : net.Proceeds net :=
  ⟨.refl inv, [], .done net⟩

theorem trans (first : net.Proceeds between) (second : between.Proceeds next) :
    net.Proceeds next := by
  obtain ⟨keys, calls⟩ := first.calls
  obtain ⟨more, onwards⟩ := second.calls
  exact ⟨first.toEvolves.trans second.toEvolves, _, calls.append onwards⟩

theorem of_call (call : Call) (inv : net.Consistent) (allowed : call.Allowed net) :
    net.Proceeds (call.apply net) :=
  ⟨call.evolves_apply inv allowed, _, .call call allowed (.done _)⟩

end Proceeds

end Network

end Dataflow
