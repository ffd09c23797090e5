import Dataflow.Proofs.Edit.Safe

/-! Nested networks: composites know what is placed directly inside them. -/

open List Option

namespace Dataflow

/-- The process with one more child, if it is a composite. -/
def Process.adopt (process : Process) (child : ProcessId) : Process :=
  { process with
      kind :=
    process.kind.mapInside fun inside => { inside with children := inside.children ++ [child] } }

@[simp] theorem Kind.inside?_mapInside {body other : Type} (kind : Kind body)
    (change : body → other) : (kind.mapInside change).inside? = kind.inside?.map change := by
  cases kind <;> rfl

@[simp] theorem Kind.mapInside_mapInside {body other third : Type} (kind : Kind body)
    (change : body → other) (too : other → third) :
    (kind.mapInside change).mapInside too = kind.mapInside fun inside => too (change inside) := by
  cases kind <;> rfl

namespace Network

variable {net next : Network} {id : ProcessId} {proc : Process} {children : List ProcessId}

/-- The composite that a process is placed in. -/
def parentOf? (net : Network) (id : ProcessId) : Option ProcessId :=
  (net.process? id).bind (·.hierarchy.parent?)

/-- What is listed as placed in a composite. -/
def childrenOf? (net : Network) (id : ProcessId) : Option (List ProcessId) :=
  ((net.process? id).bind (·.kind.inside?)).map (·.children)

/-- Composites list exactly the processes that are placed directly inside them. -/
structure Nested (net : Network) : Prop where
  housed : ∀ {id parent}, net.parentOf? id = some parent →
    ∃ children, net.childrenOf? parent = some children
  members : ∀ {id children}, net.childrenOf? id = some children →
    ∀ child, child ∈ children ↔ net.parentOf? child = some id
  once : ∀ {id children}, net.childrenOf? id = some children → children.Nodup

theorem bind_inside?_eq_some {α : Type} {ask : Composite → Option α} {ans : α} :
    ((net.process? id).bind (·.kind.inside?)).bind ask = some ans ↔
      ∃ proc inside, net.process? id = some proc ∧ proc.kind = .composite inside ∧
        ask inside = some ans := by
  simp only [bind_eq_some_iff]
  constructor
  · rintro ⟨inside, ⟨proc, got, isInside⟩, mem⟩
    cases kind : proc.kind <;> simp_all [Kind.inside?]
  · rintro ⟨proc, inside, got, kind, mem⟩
    exact ⟨inside, ⟨proc, got, by rw [kind]; rfl⟩, mem⟩

theorem childrenOf?_eq_some :
    net.childrenOf? id = some children ↔
      ∃ proc inside, net.process? id = some proc ∧ proc.kind = .composite inside ∧
        inside.children = children := by
  simp [childrenOf?, map_eq_bind, bind_inside?_eq_some]

/-- Edits that change no place and no list of children keep a network nested. -/
theorem Nested.congr (nested : net.Nested) (parents : ∀ id, next.parentOf? id = net.parentOf? id)
    (children : ∀ id, next.childrenOf? id = net.childrenOf? id) : next.Nested where
  housed isParent := by
    rw [parents] at isParent
    rw [children]
    exact nested.housed isParent
  members isInside child := by
    rw [children] at isInside
    rw [parents]
    exact nested.members isInside child
  once isInside := by
    rw [children] at isInside
    exact nested.once isInside

theorem Nested.update {changed : Process} (nested : net.Nested) (got : net.process? id = some proc)
    (procs : ∀ other, next.process? other = if other = id then some changed else net.process? other)
    (place : changed.hierarchy = proc.hierarchy)
    (children : changed.kind.inside?.map (·.children) = proc.kind.inside?.map (·.children)) :
    next.Nested := by
  refine nested.congr (fun other => ?_) fun other => ?_
  · rw [parentOf?, procs, parentOf?]
    split
    · rename_i here
      simp [here, got, place]
    · rfl
  · rw [childrenOf?, procs, childrenOf?]
    split
    · rename_i here
      simp [here, got, children]
    · rfl

/-- What is left when a process without ports is added at its place. -/
structure Settled (net : Network) (id : ProcessId) (process : Process) (next : Network) : Prop where
  evolves : net.Evolves next
  absent : net.process? id = none
  processes : ∀ other, next.process? other =
    if other = id then some process
    else (net.process? other).map fun found =>
      if process.hierarchy.parent? = some other then found.adopt id else found
  ports : next.ports = net.ports
  inputs : next.inputs = net.inputs
  outputs : next.outputs = net.outputs

theorem run_addProcess (inv : net.Consistent) (absent : net.process? id = none)
    (kind : Kind Composite) (hier : Hierarchy)
    (housed : ∀ parent, hier.parent? = some parent →
      ∃ children, net.childrenOf? parent = some children) :
    ∃ next, (Edit.addProcess id kind hier).run net = .ok id next ∧
      net.Settled id { kind, hierarchy := hier } next := by
  -- Without a parent only the new process is stored, and with one it is listed there as well.
  have new : net.contains id = false := by rw [contains_eq, absent]; rfl
  have evo {next} (runs : (Edit.addProcess id kind hier).run net = .ok id next) :
      net.Evolves next :=
    (Edit.safe_addProcess id kind hier).evolves inv runs
  cases isParent : hier.parent? with
  | none =>
    have runs : (Edit.addProcess id kind hier).run net =
        .ok id
        { net.setProcess id { kind, hierarchy := hier } with names := net.names.reserve id } := by
      simp [Edit.addProcess, new, isParent, setProcess]
    refine ⟨_, runs, evo runs, absent, fun other => ?_, rfl, rfl, rfl⟩
    refine (process?_setProcess ..).trans ?_
    by_cases here : other = id
    · simp [here]
    · simp [here, Ne.symm here, isParent]
  | some parent =>
    obtain ⟨children, isInside⟩ := housed parent isParent
    obtain ⟨outer, inside, got, comp, -⟩ := childrenOf?_eq_some.mp isInside
    have apart : parent ≠ id := fun same => by simp [same, absent] at got
    have runs : (Edit.addProcess id kind hier).run net =
        .ok id
        { (net.setProcess parent (outer.adopt id)).setProcess id { kind, hierarchy := hier } with
          names := net.names.reserve id } := by
      have modified := Edit.run_modifyProcess got fun proc =>
        { proc with kind := .composite { inside with children := inside.children ++ [id] } }
      simp [Edit.addProcess, new, isParent, Edit.adopt, process_eq_ok.mpr got, comp, modified,
        setProcess, Process.adopt, Kind.mapInside]
    refine ⟨_, runs, evo runs, absent, fun other => ?_, rfl, rfl, rfl⟩
    refine (process?_setProcess ..).trans ?_
    rw [process?_setProcess]
    by_cases here : other = id
    · simp [here]
    by_cases there : other = parent
    · simp [there, isParent, got, Ne.symm apart, apart]
    · simp [here, Ne.symm here, Ne.symm there, isParent]

theorem run_addProcess_error (kind : Kind Composite) (hier : Hierarchy)
    (misplaced : net.process? id ≠ none ∨
      ∃ parent, hier.parent? = some parent ∧ net.childrenOf? parent = none) :
    ∃ fault next, (Edit.addProcess id kind hier).run net = .error fault next := by
  by_cases known : (net.process? id).isSome
  · exact ⟨.duplicateId id, net, by simp [Edit.addProcess, contains_eq, known]⟩
  have absent : net.process? id = none := by simpa using known
  obtain ⟨parent, isParent, leaf⟩ := misplaced.resolve_left fun other => other absent
  have unknown : net.contains id = false := by rw [contains_eq, absent]; rfl
  cases got : net.process? parent with
  | none =>
    exact ⟨.unknownProcess parent, net,
      by simp [Edit.addProcess, unknown, isParent, Edit.adopt, process_eq_error got]⟩
  | some outer =>
    cases kind : outer.kind <;>
      simp_all [Edit.addProcess, Edit.adopt, process_eq_ok.mpr got, childrenOf?, Kind.inside?]

/-- A process that is added with nothing inside keeps a network nested. -/
theorem Settled.nested (settled : net.Settled id proc next) (nested : net.Nested)
    (housed : ∀ parent, proc.hierarchy.parent? = some parent →
      ∃ children, net.childrenOf? parent = some children)
    (bare : ∀ inside, proc.kind.inside? = some inside → inside.children = []) : next.Nested := by
  have parents (other : ProcessId) : next.parentOf? other = if other =
      id then proc.hierarchy.parent? else net.parentOf? other := by
    rw [parentOf?, settled.processes]
    split
    · rfl
    · rw [bind_map]
      congr 1
      funext has
      split <;> rfl
  have children (other : ProcessId) : next.childrenOf? other = if other =
      id then (proc.kind.inside?.map fun _ => [])
      else (net.childrenOf? other).map fun children => if proc.hierarchy.parent? =
        some other then children ++ [id] else children := by
    rw [childrenOf?, settled.processes]
    split
    · cases isInside : proc.kind.inside? with
      | none => simp [isInside]
      | some inside => simp [isInside, bare inside isInside]
    · cases got : net.process? other with
      | none => simp [childrenOf?, got]
      | some has => split <;> simp [childrenOf?, got, Process.adopt, Function.comp_def]
  -- The new process was not there before, neither as a composite nor as a child.
  have old {other mem} (isInside : net.childrenOf? other = some mem) : other ≠ id := by
    rintro rfl
    obtain ⟨_, _, got, -⟩ := childrenOf?_eq_some.mp isInside
    simp [settled.absent] at got
  have unhoused (child : ProcessId) : net.parentOf? child ≠ some id := fun isParent => by
    obtain ⟨mem, isInside⟩ := nested.housed isParent
    exact old isInside rfl
  have orphan : net.parentOf? id = none := by rw [parentOf?, settled.absent]; rfl
  have still {parent} (isInside : ∃ mem, net.childrenOf? parent = some mem) :
      ∃ mem, next.childrenOf? parent = some mem := by
    obtain ⟨mem, isInside⟩ := isInside
    exact ⟨_, by rw [children, if_neg (old isInside), isInside]; rfl⟩
  have outside {parent} (isParent : proc.hierarchy.parent? = some parent) : parent ≠ id := by grind
  constructor
  · intro child parent isParent
    rw [parents] at isParent
    split at isParent
    · exact still (housed parent isParent)
    · exact still (nested.housed isParent)
  · intro comp mem isInside child
    rw [children] at isInside
    rw [parents]
    split at isInside
    · rename_i isNew
      obtain ⟨-, -, rfl⟩ := map_eq_some_iff.mp isInside
      have none : (if child = id then proc.hierarchy.parent? else net.parentOf? child) ≠
        some comp := by grind
      simpa using none
    · obtain ⟨pre, isPre, rfl⟩ := map_eq_some_iff.mp isInside
      have members := nested.members isPre
      by_cases here : child = id
      · grind
      · by_cases isParent : proc.hierarchy.parent? = some comp <;> simp [isParent, here, members]
  · intro comp mem isInside
    rw [children] at isInside
    split at isInside
    · obtain ⟨-, -, rfl⟩ := map_eq_some_iff.mp isInside
      exact nodup_nil
    · obtain ⟨pre, isPre, rfl⟩ := map_eq_some_iff.mp isInside
      have absent : id ∉ pre := fun mem => by simp [(nested.members isPre id).mp mem] at orphan
      split
      · refine nodup_append.mpr
          ⟨nested.once isPre, by simp, fun child isChild other isNew same => ?_⟩
        exact absent (mem_singleton.mp isNew ▸ same ▸ isChild)
      · exact nested.once isPre

end Network

end Dataflow
