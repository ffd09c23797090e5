import Dataflow.Proofs.Edit.Outcome
import Dataflow.Proofs.Network.Consistent

/-! What each elementary edit does, and at which faults it stops. -/

namespace Dataflow

open Network

namespace Network

variable {net : Network} {id : ProcessId} {key : PortKey}

theorem process_eq_error (absent : net.process? id = none) :
    net.process id = .error (.unknownProcess id) := by
  simp [process, absent]

theorem port_eq_error (absent : net.port? key = none) :
    net.port key = .error (.unknownPort key) := by
  simp [port, absent]

theorem peer_eq_ok {port : Port} (has : net.port? key = some port) :
    net.peer key = .ok port.connection := by
  rw [peer, port_eq_ok.mpr has]
  rfl

theorem peer_eq_error (absent : net.port? key = none) :
    net.peer key = .error (.unknownPort key) := by
  rw [peer, port_eq_error absent]
  rfl

theorem portAt_eq {proc : Process} {dir : Direction} {idx : Nat} (got : net.process? id = some proc)
    (mem : (proc.ports dir)[idx]? = some key) : net.portAt id dir idx = .ok key := by
  simp [portAt, process_eq_ok.mpr got, mem, bind, Except.bind, pure, Except.pure]

/-- The network in which two ports lead to each other. -/
def join (net : Network) (source target : PortKey) : Network :=
  (net.relink source (some target)).relink target (some source)

@[simp] theorem process?_join (src dst : PortKey) :
    (net.join src dst).process? id = net.process? id := rfl

@[simp] theorem inputs_join (src dst : PortKey) : (net.join src dst).inputs = net.inputs := rfl

@[simp] theorem outputs_join (src dst : PortKey) : (net.join src dst).outputs = net.outputs := rfl

@[simp] theorem nextKey_join (src dst : PortKey) :
    (net.join src dst).ports.nextKey = net.ports.nextKey := by
  simp [join]

theorem port?_join {src dst : PortKey} (apart : src ≠ dst) (other : PortKey) :
    (net.join src dst).port? other = (net.port? other).map fun port =>
      if other = src then { port with connection := some dst }
      else if other = dst then { port with connection := some src }
      else port := by
  rw [join, port?_relink, port?_relink]
  by_cases first : other = src
  · simp [first, Ne.symm apart]
  by_cases second : other = dst
  · simp [second, apart, Ne.symm apart]
  simp [first, second, Ne.symm first, Ne.symm second]

theorem port?_join_of_ne {first second : PortKey} (notFirst : key ≠ first)
    (notSecond : key ≠ second) : (net.join first second).port? key = net.port? key := by
  rw [join, port?_relink, port?_relink, if_neg (Ne.symm notSecond), if_neg (Ne.symm notFirst)]

end Network

namespace Edit

variable {net : Network} {id : ProcessId} {key src dst : PortKey} {proc : Process}
  {port first second : Port}

theorem run_modifyProcess (got : net.process? id = some proc) (change : Process → Process) :
    (modifyProcess id change).run net = .ok () (net.setProcess id (change proc)) := by
  simp [modifyProcess, process_eq_ok.mpr got, setProcess]

theorem run_modifyProcess_absent (absent : net.process? id = none) (change : Process → Process) :
    (modifyProcess id change).run net = .error (.unknownProcess id) net := by
  simp [modifyProcess, process_eq_error absent]

theorem run_setConnection (has : net.port? key = some port) (link : Option PortKey) :
    (setConnection key link).run net = .ok () (net.relink key link) := by
  simp [setConnection, port_eq_ok.mpr has, relink]

section

variable (hasFirst : net.port? src = some first) (hasSecond : net.port? dst = some second)

include hasFirst hasSecond

theorem run_connect :
    (connect src dst).run net =
      if first.direction ≠ .output ∨ second.direction ≠ .input then
        .error (.directionMismatch src dst) net
      else if first.isConnected then .error (.portInUse src) net
      else if second.isConnected then .error (.portInUse dst) net
      else .ok () ((net.relink src (some dst)).relink dst (some src)) := by
  have stillThere : ∃ port, (net.relink src (some dst)).port? dst = some port := by
    rw [port?_relink, hasSecond]
    split <;> exact ⟨_, rfl⟩
  obtain ⟨port, stillHas⟩ := stillThere
  simp only [connect, EStateM.run_bind, EStateM.run_get, port_eq_ok.mpr hasFirst,
    port_eq_ok.mpr hasSecond, run_answer]
  split
  · rfl
  split
  · rfl
  split
  · rfl
  simp [run_setConnection hasFirst, run_setConnection stillHas]

theorem run_connect_free (leaves : first.direction = .output) (enters : second.direction = .input)
    (freeFirst : first.connection = none) (freeSecond : second.connection = none) :
    (connect src dst).run net = .ok () (net.join src dst) := by
  rw [run_connect hasFirst hasSecond]
  simp [leaves, enters, Port.isConnected, freeFirst, freeSecond, join]

end

theorem run_connect_absent_source (absent : net.port? src = none) :
    (connect src dst).run net = .error (.unknownPort src) net := by
  simp [connect, port_eq_error absent]

theorem run_connect_absent_target (has : net.port? src = some first)
    (absent : net.port? dst = none) :
    (connect src dst).run net = .error (.unknownPort dst) net := by
  simp [connect, port_eq_ok.mpr has, port_eq_error absent]

theorem ends_connect (net : Network) (src dst : PortKey) :
    (connect src dst).Ends net
      (fun _ next => ∃ first second, net.port? src = some first ∧ net.port? dst = some second ∧
        first.direction = .output ∧ second.direction = .input ∧ first.connection = none ∧
        second.connection = none ∧ next = net.join src dst)
      (· = net) := by
  unfold Ends
  cases hasFirst : net.port? src with
  | none => rw [run_connect_absent_source hasFirst]
  | some first =>
    cases hasSecond : net.port? dst with
    | none => rw [run_connect_absent_target hasFirst hasSecond]
    | some second =>
      rw [run_connect hasFirst hasSecond]
      by_cases sides : first.direction ≠ .output ∨ second.direction ≠ .input
      · rw [if_pos sides]
      by_cases usedFirst : first.isConnected
      · rw [if_neg sides, if_pos usedFirst]
      by_cases usedSecond : second.isConnected
      · grind
      rw [if_neg sides, if_neg usedFirst, if_neg usedSecond]
      simp only [not_or, ne_eq, Decidable.not_not] at sides
      simp only [Port.isConnected, Option.not_isSome_iff_eq_none] at usedFirst usedSecond
      exact ⟨first, second, rfl, rfl, sides.1, sides.2, usedFirst, usedSecond, rfl⟩

/-- A connection is broken at both ends. -/
theorem run_disconnect (linked : net.Linked) (has : net.port? key = some port) :
    (disconnect key).run net = .ok port.connection (net.unlink key) := by
  cases conn : port.connection with
  | none => simp [disconnect, peer_eq_ok has, conn, run_setConnection has, unlink, has]
  | some other =>
    obtain ⟨peer, hasPeer, -⟩ := linked has conn
    have stillThere : ∃ port, (net.relink key none).port? other = some port := by
      rw [port?_relink, hasPeer]
      split <;> exact ⟨_, rfl⟩
    obtain ⟨still, hasStill⟩ := stillThere
    simp [disconnect, peer_eq_ok has, conn, run_setConnection has, run_setConnection hasStill,
      unlink, has]

theorem run_disconnect_absent (absent : net.port? key = none) :
    (disconnect key).run net = .error (.unknownPort key) net := by
  simp [disconnect, peer_eq_error absent]

theorem run_addPort (got : net.process? id = some proc) (name : String) (dir : Direction)
    (dataType : Option DataType) :
    (addPort id name dir dataType).run net =
      if (proc.ports dir).any fun key => (net.port? key).any (·.name = name) then
        .error (.duplicatePort id name dir) net
      else .ok net.ports.nextKey
        ((net.pushPort { name, owner := id, direction := dir, dataType }).setProcess id
          (proc.addPort dir net.ports.nextKey)) := by
  simp only [addPort, EStateM.run_bind, EStateM.run_get, process_eq_ok.mpr got, run_answer]
  split
  · rfl
  · have kept : (net.pushPort { name, owner := id, direction := dir, dataType }).process? id =
      some proc := got
    have modified := run_modifyProcess kept (·.addPort dir net.ports.nextKey)
    simp only [pushPort] at modified
    simp [modified, pushPort]

theorem run_addPort_absent (absent : net.process? id = none) (name : String) (dir : Direction)
    (dataType : Option DataType) :
    (addPort id name dir dataType).run net = .error (.unknownProcess id) net := by
  simp [addPort, process_eq_error absent]

theorem run_freePort (linked : net.Linked) (has : net.port? key = some port) :
    (freePort key).run net = .ok () ((net.unlink key).freeKey key) := by
  simp [freePort, run_disconnect linked has, freeKey]

end Edit

namespace Network

variable {net next : Network} {id : ProcessId} {key : PortKey} {proc : Process} {port : Port}

/-- What is left when a process gets one more port. -/
structure Ported (net : Network) (process : Process) (port : Port) (next : Network) : Prop where
  evolves : net.Evolves next
  processes : ∀ id, next.process? id =
    if id = port.owner then some (process.addPort port.direction net.ports.nextKey)
    else net.process? id
  ports : ∀ key, next.port? key = if key = net.ports.nextKey then some port else net.port? key
  nextKey : next.ports.nextKey = net.ports.nextKey + 1
  inputs : next.inputs = net.inputs
  outputs : next.outputs = net.outputs

theorem Ported.port_of_lt (ported : net.Ported proc port next) (old : key < net.ports.nextKey) :
    next.port? key = net.port? key := by
  rw [ported.ports, if_neg (Nat.ne_of_lt old)]

/-- A process gets a port whose name is new among those of its direction. -/
theorem Consistent.run_addPort (inv : net.Consistent) (got : net.process? id = some proc)
    (name : String) (dir : Direction) (dataType : Option DataType)
    (fresh : ∀ key ∈ proc.ports dir, ∀ other, net.port? key = some other → other.name ≠ name) :
    ∃ next, (Edit.addPort id name dir dataType).run net = .ok net.ports.nextKey next ∧
      net.Ported proc { name, owner := id, direction := dir, dataType } next := by
  have unused : ¬ (proc.ports dir).any fun key => (net.port? key).any (·.name = name) := by
    simpa [Option.any_eq_true] using fresh
  have runs := Edit.run_addPort got name dir dataType
  rw [if_neg unused] at runs
  refine ⟨_, runs,
    @Consistent.addPort net { name, owner := id, direction := dir, dataType } proc inv got rfl
    fresh, fun other => ?_, fun key => ?_, by simp, rfl, rfl⟩
  · rw [process?_setProcess, process?_pushPort]
    simp only [eq_comm]
  · rw [port?_setProcess, port?_pushPort]

end Network

end Dataflow
