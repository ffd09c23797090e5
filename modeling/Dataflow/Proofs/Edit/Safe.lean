import Dataflow.Proofs.Network.Removal

/-! Elementary edits keep networks consistent, whether they succeed or stop at a fault. -/

open List

namespace Dataflow

open Network

namespace Network

/-- All of the given ports are found. -/
def Live (net : Network) (keys : List PortKey) : Prop :=
  ∀ key ∈ keys, (net.port? key).isSome

variable {net : Network} {keys : List PortKey}

theorem Live.relink (live : net.Live keys) (key : PortKey) (link : Option PortKey) :
    (net.relink key link).Live keys := by
  intro other mem
  rw [port?_relink]
  split <;> simp [live other mem]

theorem Live.unlink (live : net.Live keys) (key : PortKey) : (net.unlink key).Live keys := by
  unfold Network.unlink
  split
  · exact (live.relink key none).relink _ none
  · exact live.relink key none

end Network

namespace Edit

variable {α β : Type} {edit : Edit α} {next : α → Edit β} {net : Network} {id : ProcessId}
  {key : PortKey}

/-- An edit keeps consistent networks consistent; what it needs besides is `before`, and what it
promises `behind`. -/
structure Guarded (before : Network → Prop) (edit : Edit α) (behind : α → Network → Prop) :
    Prop where
  ends : ∀ net, net.Consistent → before net →
    edit.Ends net (fun answer after => net.Evolves after ∧ behind answer after) net.Evolves

/-- An edit keeps every consistent network consistent. -/
def Safe (edit : Edit α) : Prop :=
  edit.Guarded (fun _ => True) fun _ _ => True

variable {pre : Network → Prop} {between : α → Network → Prop} {behind : β → Network → Prop}

theorem Guarded.bind (first : edit.Guarded pre between)
    (second : ∀ ans, (next ans).Guarded (between ans) behind) :
    (edit >>= next).Guarded pre behind := by
  refine ⟨fun net inv ready => ?_⟩
  refine ends_bind.mpr ((first.ends net inv ready).mono ?_ fun _ evo => evo)
  rintro ans mid ⟨evo, held⟩
  refine ((second ans).ends mid evo.inv held).mono ?_ fun _ onwards => evo.trans onwards
  rintro result last ⟨onwards, reached⟩
  exact ⟨evo.trans onwards, reached⟩

/-- A guarded edit can be described more loosely. -/
theorem Guarded.mono {stronger : Network → Prop} {weaker : α → Network → Prop}
    (guarded : edit.Guarded pre between) (needs : ∀ net, stronger net → pre net)
    (promises : ∀ ans net, between ans net → weaker ans net) : edit.Guarded stronger weaker where
  ends net inv ready := (guarded.ends net inv (needs net ready)).mono
    (fun _ _ held => ⟨held.1, promises _ _ held.2⟩) fun _ evo => evo

theorem guarded_pure {ans : α} (holds : ∀ net, pre net → between ans net) :
    (pure ans : Edit α).Guarded pre between where
  ends _ inv ready := ⟨.refl inv, holds _ ready⟩

theorem guarded_throw (fault : Fault) : (throw fault : Edit α).Guarded pre between where
  ends _ inv _ := Network.Evolves.refl inv

theorem guarded_get : (get : Edit Network).Guarded pre fun seen net => seen = net ∧ pre net where
  ends _ inv ready := ⟨.refl inv, rfl, ready⟩

namespace Safe

theorem evolves (safe : edit.Safe) {ans : α} {after : Network} (inv : net.Consistent)
    (run : edit.run net = .ok ans after) : net.Evolves after := by
  have ends := safe.ends net inv trivial
  rw [Ends, run] at ends
  exact ends.1

theorem bind (first : edit.Safe) (second : ∀ ans, (next ans).Safe) : (edit >>= next).Safe :=
  Guarded.bind first second

end Safe

theorem safe_of_ends
    (ends : ∀ net, net.Consistent → edit.Ends net (fun _ => net.Evolves) (· = net)) :
    edit.Safe where
  ends net inv _ := (ends net inv).mono (fun _ _ evo => ⟨evo, trivial⟩) fun _ same => by
    rw [same]
    exact .refl inv

theorem safe_modifyProcess {change : Process → Process}
    (kept : ∀ proc dir, (change proc).ports dir = proc.ports dir) :
    (modifyProcess id change).Safe := by
  refine safe_of_ends fun net inv => ?_
  cases got : net.process? id with
  | none => rw [Ends, run_modifyProcess_absent got]
  | some proc =>
    exact (ends_of_run (run_modifyProcess got _)).mpr
      (inv.setProcess got fun dir => .of_eq (kept proc dir))

theorem guarded_adopt (parent child : ProcessId) :
    (adopt parent child).Guarded (fun net => net.process? id = none) fun _ net =>
      net.process? id = none := by
  refine ⟨fun net inv absent => ?_⟩
  cases got : net.process? parent with
  | none => simpa [adopt, Ends, process_eq_error got] using .refl inv
  | some proc =>
    cases shape : proc.kind with
    | composite inside =>
      have different : parent ≠ id := by
        rintro rfl
        simp [absent] at got
      simp only [adopt, Ends, EStateM.run_bind, EStateM.run_get, process_eq_ok.mpr got, run_answer,
        shape, run_modifyProcess got, process?_setProcess, different, if_false, absent, and_true]
      exact inv.setProcess got fun dir => by cases dir <;> exact .refl _
    | _ => simpa [adopt, Ends, process_eq_ok.mpr got, shape] using .refl inv

theorem safe_addProcess (id : ProcessId) (kind : Kind Composite) (hier : Hierarchy) :
    (addProcess id kind hier).Safe := by
  have insertion : (modify fun net => { net with
        processes := net.processes.insert id { kind, hierarchy := hier }, names :=
        net.names.reserve id } : Edit PUnit).Guarded
      (fun net => net.process? id = none) fun _ _ => True :=
    ⟨fun net inv absent => ⟨inv.addProcess absent kind hier, trivial⟩⟩
  refine guarded_get.bind fun seen => ?_
  dsimp only
  split
  · have refused : (throw (.duplicateId id) : Edit PUnit).Guarded (fun net => seen = net ∧ True)
        fun _ _ => False :=
      guarded_throw _
    exact refused.bind fun _ => ⟨fun _ _ impossible => impossible.elim⟩
  rename_i absent
  have free : ∀ net, seen = net ∧ True → net.process? id = none := fun net isSeen => by
    simpa [isSeen.1, contains_eq] using absent
  have finish : (modify (fun net => { net with
        processes := net.processes.insert id { kind, hierarchy := hier }, names :=
        net.names.reserve id }) >>= fun _ =>
      pure id : Edit ProcessId).Guarded (fun net => net.process? id = none) fun _ _ => True :=
    insertion.bind fun _ => guarded_pure fun _ _ => trivial
  split
  · rename_i parent placed
    exact ((guarded_adopt parent id).bind fun _ => finish).mono free fun _ _ held => held
  · exact finish.mono free fun _ _ held => held

theorem safe_freshId (stem : String) : (freshId stem).Safe := by
  refine ⟨fun net inv _ => ?_⟩
  refine ⟨inv.supply ?_, trivial⟩
  intro id taken
  simp [Std.TreeSet.contains_insert, taken]

theorem safe_addFresh (stem : String) (kind : Kind Composite) (hier : Hierarchy) :
    (addFresh stem kind hier).Safe :=
  (safe_freshId stem).bind fun id => safe_addProcess id kind hier

theorem safe_connect (src dst : PortKey) : (connect src dst).Safe := by
  refine safe_of_ends fun net inv => (ends_connect net src dst).imp ?_
  rintro _ _ ⟨first, second, hasFirst, hasSecond, leaves, enters, freeFirst, freeSecond, rfl⟩
  exact (inv.link hasFirst hasSecond leaves enters freeFirst freeSecond).evolves

theorem safe_disconnect (key : PortKey) : (disconnect key).Safe := by
  refine safe_of_ends fun net inv => ?_
  cases has : net.port? key with
  | none => rw [Ends, run_disconnect_absent has]
  | some port => exact (ends_of_run (run_disconnect inv.linked has)).mpr (inv.unlink has).evolves

theorem safe_addPort (owner : ProcessId) (name : String) (dir : Direction)
    (dataType : Option DataType) : (addPort owner name dir dataType).Safe := by
  refine safe_of_ends fun net inv => ?_
  unfold Ends
  cases got : net.process? owner with
  | none => rw [run_addPort_absent got]
  | some proc =>
    rw [run_addPort got]
    by_cases fresh : (proc.ports dir).any fun key => (net.port? key).any (·.name = name)
    · rw [if_pos fresh]
    rw [if_neg fresh]
    simp only [any_eq_true, Option.any_eq_true, decide_eq_true_eq, not_exists, not_and] at fresh
    let port : Port := { name, owner, direction := dir, dataType }
    exact Network.Consistent.addPort inv (got : net.process? port.owner = some proc) rfl fresh

theorem safe_removeProcess (id : ProcessId) : (removeProcess id).Safe := by
  refine safe_of_ends fun net inv => ?_
  cases got : net.process? id with
  | none => simp [removeProcess, Ends, process_eq_error got]
  | some proc =>
    exact (ends_removeProcess inv got).mono (fun _ _ held => held.2.evolves inv got held.1)
      fun _ held => held.1

theorem safe_addBoundary {inputs outs : Network → List PortKey}
    (within : ∀ net : Network, ∀ other ∈ inputs net ++ outs net,
      other = key ∨ net.isBoundary other) :
    (do let _ ← (← get).port key; modify fun net =>
      { net with inputs := inputs net, outputs := outs net } : Edit Unit).Safe := by
  refine safe_of_ends fun net inv => ?_
  cases has : net.port? key with
  | none => simp [Ends, port_eq_error has]
  | some port =>
    simp only [ends_bind, ends_get, port_eq_ok.mpr has, ends_answer, ends_modify]
    refine inv.setBoundary fun other mem => ?_
    rcases within net other mem with rfl | onBdry
    · simp [has]
    · exact inv.boundary onBdry

theorem safe_addInput (key : PortKey) : (addInput key).Safe :=
  @safe_addBoundary key (fun net => net.inputs ++ [key]) (·.outputs) fun net other mem => by
    grind [isBoundary]

theorem safe_addOutput (key : PortKey) : (addOutput key).Safe :=
  @safe_addBoundary key (·.inputs) (fun net => net.outputs ++ [key]) fun net other mem => by
    grind [isBoundary]

theorem guarded_replaceBoundary (old new : PortKey) :
    (replaceBoundary old new).Guarded (·.Live [new]) fun _ _ => True := by
  refine ⟨fun net inv live => ?_⟩
  refine ⟨inv.setBoundary fun key mem => ?_, trivial⟩
  simp only [← map_append, mem_map] at mem
  obtain ⟨former, mem, rfl⟩ := mem
  split
  · exact live new (by simp)
  · exact inv.boundary (by simpa [isBoundary] using mem)

end Edit

end Dataflow
