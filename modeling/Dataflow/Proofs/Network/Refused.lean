import Dataflow.Proofs.Edit.Fresh
import Dataflow.Proofs.Network.Reachable

/-!
When single operations on a network are refused.

What an operation asks for is checked before anything changes, or is true of every sound network. So
an operation that is refused leaves the network as it was, up to a name that was taken.
-/

open List Option

namespace Dataflow

/-- Why a network has no place for a process of that name. -/
inductive Network.Misplaced (net : Network) (hierarchy : Hierarchy) (id : ProcessId) :
    Fault → Prop where
  | unknownParent {parent : ProcessId} (inside : hierarchy.parent? = some parent)
    (absent : net.process? parent = none) : Misplaced net hierarchy id (.unknownProcess parent)
  | leafParent {parent : ProcessId} {process : Process} (inside : hierarchy.parent? = some parent)
    (stored : net.process? parent = some process) (leaf : process.kind.isLeaf) :
    Misplaced net hierarchy id (.malformedComposite parent (.insideLeaf id))

/-- Why a network refuses an operation, and at which fault the operation then may stop. -/
inductive Network.Refuses (net : Network) : Operation → Fault → Prop where
  | duplicateId {id : ProcessId} {kind : Kind Composite} {hierarchy : Hierarchy} {process : Process}
    (stored : net.process? id = some process) :
    Refuses net (.addProcess id kind hierarchy) (.duplicateId id)
  | misplaced {id : ProcessId} {kind : Kind Composite} {hierarchy : Hierarchy} {fault : Fault}
    (misplaced : net.Misplaced hierarchy id fault) :
    Refuses net (.addProcess id kind hierarchy) fault
  | misplacedFresh {stem : String} {kind : Kind Composite} {hierarchy : Hierarchy} {fault : Fault}
    (misplaced : net.Misplaced hierarchy (net.names.fresh stem).1 fault) :
    Refuses net (.addFresh stem kind hierarchy) fault
  | unknownProcess {id : ProcessId} (absent : net.process? id = none) :
    Refuses net (.removeProcess id) (.unknownProcess id)
  | onBoundary {id : ProcessId} {process : Process} {key : PortKey}
    (stored : net.process? id = some process) (listed : key ∈ process.allPorts)
    (outer : net.isBoundary key) : Refuses net (.removeProcess id) (.danglingBoundary key id)
  | unknownOwner {owner : ProcessId} {name : String} {direction : Direction}
    {dataType : Option DataType} (absent : net.process? owner = none) :
    Refuses net (.addPort owner name direction dataType) (.unknownProcess owner)
  | duplicatePort {owner : ProcessId} {direction : Direction} {dataType : Option DataType}
    {process : Process} {key : PortKey} {port : Port} (stored : net.process? owner = some process)
    (listed : key ∈ process.ports direction) (found : net.port? key = some port) :
    Refuses net (.addPort owner port.name direction dataType)
      (.duplicatePort owner port.name direction)
  | unknownSource {source target : PortKey} (absent : net.port? source = none) :
    Refuses net (.connect source target) (.unknownPort source)
  | unknownTarget {source target : PortKey} (absent : net.port? target = none) :
    Refuses net (.connect source target) (.unknownPort target)
  | wrongSource {source target : PortKey} {port : Port} (found : net.port? source = some port)
    (enters : port.direction ≠ .output) :
    Refuses net (.connect source target) (.directionMismatch source target)
  | wrongTarget {source target : PortKey} {port : Port} (found : net.port? target = some port)
    (leaves : port.direction ≠ .input) :
    Refuses net (.connect source target) (.directionMismatch source target)
  | sourceInUse {source target : PortKey} {port : Port} (found : net.port? source = some port)
    (used : port.connection ≠ none) : Refuses net (.connect source target) (.portInUse source)
  | targetInUse {source target : PortKey} {port : Port} (found : net.port? target = some port)
    (used : port.connection ≠ none) : Refuses net (.connect source target) (.portInUse target)
  | unknownEnd {key : PortKey} (absent : net.port? key = none) :
    Refuses net (.disconnect key) (.unknownPort key)
  | unknownInput {key : PortKey} (absent : net.port? key = none) :
    Refuses net (.addInput key) (.unknownPort key)
  | unknownOutput {key : PortKey} (absent : net.port? key = none) :
    Refuses net (.addOutput key) (.unknownPort key)

variable {net : Network} {id owner : ProcessId} {kind : Kind Composite} {hierarchy : Hierarchy}
  {key source target : PortKey}
  {operation : Operation} {fault : Fault}

namespace Operation

/-- The operations that are a single step. -/
def IsSingle : Operation → Prop
  | .replaceBoundary .. | .redirect .. | .destroyChain _ | .perform _ => False
  | _ => True

/-- What an operation leaves when it is refused. -/
def residue (net : Network) : Operation → Network
  | .addFresh stem _ _ => { net with names := (net.names.fresh stem).2 }
  | _ => net

/-- An operation succeeds only if nothing speaks against it, and stops only for a reason, without a
trace. -/
def Answers (net : Network) (operation : Operation) : Prop :=
  match operation.edit.run net with
  | .ok _ _ => ∀ fault, ¬ net.Refuses operation fault
  | .error fault after => net.Refuses operation fault ∧ after = operation.residue net

theorem answers_of_ok {next : Network} (runs : operation.edit.run net = .ok () next)
    (free : ∀ fault, ¬ net.Refuses operation fault) : operation.Answers net := by
  rwa [Answers, runs]

theorem answers_of_error (runs : operation.edit.run net = .error fault (operation.residue net))
    (refuses : net.Refuses operation fault) : operation.Answers net := by
  rw [Answers, runs]
  exact ⟨refuses, rfl⟩

end Operation

theorem Edit.addProcess_cases (absent : net.process? id = none) :
    (∃ next, (addProcess id kind hierarchy).run net = .ok id next ∧
      ∀ fault, ¬ net.Misplaced hierarchy id fault) ∨
    ∃ fault, (addProcess id kind hierarchy).run net = .error fault net ∧
      net.Misplaced hierarchy id fault := by
  have free : net.contains id = false := by simp [Network.contains_eq, absent]
  cases inside : hierarchy.parent? with
  | none =>
    refine .inl
      ⟨_, by simp only [addProcess, EStateM.run_bind, EStateM.run_get, free, inside]; rfl, ?_⟩
    rintro fault ⟨⟩ <;> simp_all
  | some parent =>
    cases got : net.process? parent with
    | none =>
      refine .inr ⟨.unknownProcess parent, ?_, .unknownParent inside got⟩
      simp [addProcess, free, inside, adopt, Network.process_eq_error got]
    | some proc =>
      cases shape : proc.kind with
      | composite body =>
        refine .inl ⟨_, by
          simp only [addProcess, EStateM.run_bind, EStateM.run_get, free, Bool.false_eq_true,
            if_false, inside, adopt, Network.process_eq_ok.mpr got, run_answer, shape,
            run_modifyProcess got]
          rfl, ?_⟩
        rintro fault ⟨⟩ <;> simp_all [Kind.isLeaf, Kind.inside?]
      | _ =>
        refine .inr
          ⟨.malformedComposite parent (.insideLeaf id), ?_,
            .leafParent inside got (by simp [shape, Kind.isLeaf, Kind.inside?])⟩
        simp [addProcess, free, inside, adopt, Network.process_eq_ok.mpr got, shape]

namespace Network.Consistent

variable (inv : net.Consistent)

include inv

theorem answers_addFresh (stem : String) :
    (Operation.addFresh stem kind hierarchy).Answers net := by
  let named : Network := { net with names := (net.names.fresh stem).2 }
  have absent : named.process? (net.names.fresh stem).1 = none :=
    inv.process?_eq_none (net.names.not_contains_fresh stem)
  have runs : (Operation.addFresh stem kind hierarchy).edit.run net =
      (discard (Edit.addProcess (net.names.fresh stem).1 kind hierarchy)).run named := rfl
  have same {fault} : named.Misplaced hierarchy (net.names.fresh stem).1 fault ↔
      net.Misplaced hierarchy (net.names.fresh stem).1 fault := by
    constructor <;> rintro (⟨inside, absent⟩ | ⟨inside, got, leaf⟩)
    all_goals first | exact .unknownParent inside absent | exact .leafParent inside got leaf
  rcases Edit.addProcess_cases absent with ⟨next, adds, placed⟩ | ⟨fault, stops, misplaced⟩
  · refine Operation.answers_of_ok (by rw [runs, Edit.run_discard, adds]) ?_
    rintro fault ⟨⟩
    exact placed fault (same.mpr ‹_›)
  · exact Operation.answers_of_error (by rw [runs, Edit.run_discard, stops]; rfl)
      (.misplacedFresh (same.mp misplaced))

theorem answers_removeProcess (id : ProcessId) : (Operation.removeProcess id).Answers net := by
  cases got : net.process? id with
  | none =>
    exact Operation.answers_of_error
      (by simp [Operation.edit, Edit.removeProcess, process_eq_error got]; rfl)
      (.unknownProcess got)
  | some proc =>
    cases outer : proc.allPorts.find? net.isBoundary with
    | some key =>
      refine Operation.answers_of_error ?_
        (.onBoundary got (mem_of_find?_eq_some outer) (find?_some outer))
      simp [Operation.edit, Edit.removeProcess, process_eq_ok.mpr got, outer]
      rfl
    | none =>
      have inner : ∀ key ∈ proc.allPorts, ¬ net.isBoundary key := find?_eq_none.mp outer
      obtain ⟨next, runs, -⟩ := run_removeProcess inv got inner
      refine Operation.answers_of_ok (by simp only [Operation.edit, Edit.run_discard, runs]; rfl)
        fun fault refuses => ?_
      cases refuses with
      | unknownProcess absent => cases got.symm.trans absent
      | onBoundary gotToo mem onBdry => grind

theorem answers_disconnect (key : PortKey) : (Operation.disconnect key).Answers net := by
  cases has : net.port? key with
  | none =>
    exact Operation.answers_of_error (by simp [Operation.edit, Edit.run_disconnect_absent has]; rfl)
      (.unknownEnd has)
  | some port =>
    refine Operation.answers_of_ok
      (by simp only [Operation.edit, Edit.run_discard, Edit.run_disconnect inv.linked has]; rfl) ?_
    rintro fault ⟨⟩
    simp_all

end Network.Consistent

namespace Network

theorem answers_addProcess : (Operation.addProcess id kind hierarchy).Answers net := by
  cases got : net.process? id with
  | some proc =>
    refine Operation.answers_of_error ?_ (.duplicateId got)
    simp [Operation.edit, Edit.addProcess, contains_eq, got]
    rfl
  | none =>
    rcases @Edit.addProcess_cases _ _ kind hierarchy got
      with ⟨next, adds, placed⟩ | ⟨fault, stops, misplaced⟩
    · refine Operation.answers_of_ok (by simp only [Operation.edit, Edit.run_discard, adds]; rfl)
        fun fault refuses => ?_
      cases refuses with
      | duplicateId too => cases got.symm.trans too
      | misplaced misplaced => exact placed fault misplaced
    · exact Operation.answers_of_error (by simp only [Operation.edit, Edit.run_discard, stops]; rfl)
        (.misplaced misplaced)

theorem answers_addPort {name : String} {dir : Direction} {dataType : Option DataType} :
    (Operation.addPort owner name dir dataType).Answers net := by
  cases got : net.process? owner with
  | none =>
    exact Operation.answers_of_error (by simp [Operation.edit, Edit.run_addPort_absent got]; rfl)
      (.unknownOwner got)
  | some proc =>
    have runs := Edit.run_addPort got name dir dataType
    by_cases used : (proc.ports dir).any fun key => (net.port? key).any (·.name = name)
    · rw [if_pos used] at runs
      obtain ⟨key, mem, names⟩ := any_eq_true.mp used
      obtain ⟨port, has, isName⟩ := (any_eq_true _ _).mp names
      obtain rfl := of_decide_eq_true isName
      exact Operation.answers_of_error (by simp only [Operation.edit, Edit.run_discard, runs]; rfl)
        (.duplicatePort got mem has)
    · rw [if_neg used] at runs
      refine Operation.answers_of_ok (by simp only [Operation.edit, Edit.run_discard, runs]; rfl)
        fun fault refuses => used ?_
      cases refuses with
      | unknownOwner absent => cases got.symm.trans absent
      | duplicatePort gotToo mem has => grind

theorem answers_connect : (Operation.connect source target).Answers net := by
  cases hasFirst : net.port? source with
  | none =>
    exact Operation.answers_of_error (Edit.run_connect_absent_source hasFirst)
      (.unknownSource hasFirst)
  | some first =>
    cases hasSecond : net.port? target with
    | none =>
      exact Operation.answers_of_error (Edit.run_connect_absent_target hasFirst hasSecond)
        (.unknownTarget hasSecond)
    | some second =>
      have runs : (Operation.connect source target).edit.run net = _ :=
        Edit.run_connect hasFirst hasSecond
      by_cases sides : first.direction ≠ .output ∨ second.direction ≠ .input
      · rw [if_pos sides] at runs
        exact Operation.answers_of_error runs
          (sides.elim (.wrongSource hasFirst) (.wrongTarget hasSecond))
      rw [if_neg sides] at runs
      by_cases usedFirst : first.isConnected
      · rw [if_pos usedFirst] at runs
        exact Operation.answers_of_error runs
          (.sourceInUse hasFirst (isSome_iff_ne_none.mp usedFirst))
      rw [if_neg usedFirst] at runs
      by_cases usedSecond : second.isConnected
      · rw [if_pos usedSecond] at runs
        exact Operation.answers_of_error runs
          (.targetInUse hasSecond (isSome_iff_ne_none.mp usedSecond))
      rw [if_neg usedSecond] at runs
      refine Operation.answers_of_ok runs ?_
      rintro fault ⟨⟩ <;> simp_all [Port.isConnected]

theorem answers_addBoundary :
    (Operation.addInput key).Answers net ∧ (Operation.addOutput key).Answers net := by
  cases has : net.port? key with
  | none =>
    refine ⟨Operation.answers_of_error ?_ (.unknownInput has),
      Operation.answers_of_error ?_ (.unknownOutput has)⟩ <;>
      simp [Operation.edit, Edit.addInput, Edit.addOutput, port_eq_error has, Operation.residue]
  | some port =>
    refine ⟨Operation.answers_of_ok
      (by simp [Operation.edit, Edit.addInput, port_eq_ok.mpr has]; rfl) ?_,
      Operation.answers_of_ok
      (by simp [Operation.edit, Edit.addOutput, port_eq_ok.mpr has]; rfl) ?_⟩ <;>
    · rintro fault ⟨⟩
      simp_all

/-- A single operation stops exactly if the network refuses it, at a fault that tells why, and then
leaves processes, ports and boundary as they were; only the addition of a process under a fresh name
uses up that name. -/
theorem WellFormed.refused_iff (wellFormed : net.WellFormed) (single : operation.IsSingle) :
    ((∃ fault after, operation.edit.run net = .error fault after) ↔
      ∃ fault, net.Refuses operation fault) ∧
    ∀ fault after, operation.edit.run net = .error fault after →
      net.Refuses operation fault ∧ after.processes = net.processes ∧ after.ports = net.ports ∧
      after.inputs = net.inputs ∧ after.outputs = net.outputs ∧
      ((∀ stem kind hierarchy, operation ≠ .addFresh stem kind hierarchy) → after = net) := by
  -- Each operation answers in one of two ways, and its residue is all that a refusal changes.
  have consistent := wellFormed.toConsistent
  have answers : operation.Answers net := by
    cases operation with
    | addProcess id kind hierarchy => exact answers_addProcess
    | addFresh stem kind hierarchy => exact consistent.answers_addFresh stem
    | removeProcess id => exact consistent.answers_removeProcess id
    | addPort owner name direction dataType => exact answers_addPort
    | connect source target => exact answers_connect
    | disconnect key => exact consistent.answers_disconnect key
    | addInput key => exact answers_addBoundary.1
    | addOutput key => exact answers_addBoundary.2
    | _ => exact single.elim
  rw [Operation.Answers] at answers
  cases runs : operation.edit.run net with
  | ok answer after =>
    rw [runs] at answers
    exact ⟨by simpa using answers, by simp⟩
  | error fault after =>
    rw [runs] at answers
    obtain ⟨refuses, rfl⟩ := answers
    refine ⟨⟨fun _ => ⟨fault, refuses⟩, fun _ => ⟨fault, _, rfl⟩⟩, ?_⟩
    rintro _ _ ⟨⟩
    refine ⟨refuses, ?_⟩
    cases operation <;> simp [Operation.residue]

/-- A copier on the boundary cannot be removed, and nothing is placed inside of it. -/
theorem refused_iff_halfMoved :
    halfMoved.WellFormed ∧
    halfMoved.Refuses (.addProcess "x" .zip ⟨["c"]⟩) (.malformedComposite "c" (.insideLeaf "x")) ∧
    halfMoved.Refuses (.removeProcess "a") (.danglingBoundary 0 "a") ∧
    ∃ fault, (Operation.removeProcess "a").edit.run halfMoved = .error fault halfMoved := by
  have reachable : halfMoved.Reachable := Reachable.empty.foldl (by simp [Operation.Allowed])
  have wellFormed : halfMoved.WellFormed := ⟨reachable.inv, by decide +kernel⟩
  have stored {id : ProcessId} (isStored : (halfMoved.process? id).isSome) :=
    (some_get isStored).symm
  have outer : halfMoved.Refuses (.removeProcess "a") (.danglingBoundary 0 "a") :=
    .onBoundary (stored (by decide +kernel)) (by decide +kernel) (by decide +kernel)
  have known :=
    WellFormed.refused_iff wellFormed (show (Operation.removeProcess "a").IsSingle from trivial)
  obtain ⟨fault, after, runs⟩ := known.1.mpr ⟨_, outer⟩
  obtain rfl := (known.2 fault after runs).2.2.2.2.2 (by simp)
  exact ⟨wellFormed, .misplaced (.leafParent rfl (stored (by decide +kernel)) (by decide +kernel)),
    outer, fault, runs⟩

end Network

end Dataflow
