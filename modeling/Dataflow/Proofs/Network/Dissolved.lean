import Dataflow.Proofs.Network.Gate

/-! Networks that lose processes: what is left keeps its kind, its ports and its place among the
others that are left. -/

open List

namespace Dataflow

/-- What a process keeps when others go: all but its place and its children. -/
def Process.core (process : Process) : Process :=
  { process with kind := process.kind.mapInside fun inside => { inside with children := [] },
                 hierarchy := {} }

@[simp] theorem Process.ports_core (proc : Process) (dir : Direction) :
    proc.core.ports dir = proc.ports dir := by
  cases dir <;> rfl

@[simp] theorem Process.isLeaf_core (proc : Process) :
    proc.core.kind.isLeaf = proc.kind.isLeaf := by
  simp [Process.core, Kind.isLeaf]

@[simp] theorem Process.core_disown (proc : Process) (child : ProcessId) :
    (proc.disown child).core = proc.core := by
  simp [Process.core, Process.disown, Kind.disown]

theorem Process.kind_core {proc : Process} (leaf : proc.kind.isLeaf) :
    proc.core.kind = proc.kind := by
  cases kind : proc.kind <;> simp_all [Process.core, Kind.mapInside, Kind.isLeaf, Kind.inside?]

theorem Process.isLeaf_eq {proc other : Process} (same : proc.core = other.core) :
    proc.kind.isLeaf = other.kind.isLeaf := by
  rw [← isLeaf_core, same, isLeaf_core]

theorem Process.kind_eq {proc other : Process} (same : proc.core = other.core)
    (leaf : other.kind.isLeaf) : proc.kind = other.kind := by
  have leafToo : proc.kind.isLeaf := isLeaf_eq same ▸ leaf
  rw [← kind_core leaf, ← kind_core leafToo, same]

/-- Processes with the same core are composites with the same helpers. -/
theorem Process.exists_composite {proc other : Process} (same : proc.core = other.core)
    {inside : Composite} (kind : other.kind = .composite inside) :
    ∃ around : Composite, proc.kind = .composite around ∧ around.toHelpers = inside.toHelpers := by
  have cores := congrArg Process.kind same
  simp only [Process.core, kind, Kind.mapInside] at cores
  cases own : proc.kind with
  | composite around => grind
  | _ => rw [own] at cores; cases cores

/-- The place of a process when some composites around it are gone. -/
def Hierarchy.outside (hierarchy : Hierarchy) (gone : List ProcessId) : Hierarchy :=
  ⟨hierarchy.path.filter (· ∉ gone)⟩

theorem Hierarchy.outside_eq_self {hier : Hierarchy} {gone : List ProcessId}
    (apart : ∀ id ∈ hier.path, id ∉ gone) : hier.outside gone = hier := by
  have kept : hier.path.filter (· ∉ gone) = hier.path := by simpa using apart
  rw [outside, kept]

theorem Hierarchy.outside_append (hier : Hierarchy) (gone more : List ProcessId) :
    hier.outside (gone ++ more) = (hier.outside gone).outside more := by
  simp only [outside, filter_filter, mem_append, not_or, Bool.decide_and]
  congr 2
  funext id
  exact Bool.and_comm ..

namespace Network

variable {net next last : Network} {id comp helper : ProcessId} {proc : Process}
  {dir : Direction} {idx : Nat}
  {key outer inner : PortKey} {gone more : List ProcessId} {port : Port}

/-- Networks in which the place of a process is that of the composite around it, and inside that. -/
structure Placed (net : Network) : Prop extends net.Nested where
  rooted : ∀ {id process parent}, net.process? id = some process →
    process.hierarchy.parent? = some parent →
    ∃ outer, net.process? parent = some outer ∧ process.hierarchy = outer.hierarchy.child parent

section

variable (placed : net.Placed) (got : net.process? id = some proc)

include placed got

theorem Placed.exists_outer {pre behind : List ProcessId}
    (isPath : proc.hierarchy.path = pre ++ comp :: behind) :
    ∃ outer, net.process? comp = some outer ∧ outer.kind.isLeaf = false ∧
      outer.hierarchy.path = pre := by
  induction behind using List.reverseRecOn generalizing id proc with
  | nil =>
    have isParent : proc.hierarchy.parent? = some comp := by
      rw [Hierarchy.parent?, isPath, getLast?_concat]
    obtain ⟨outer, gotOuter, place⟩ := placed.rooted got isParent
    have isParentOf : net.parentOf? id = some comp := by rw [parentOf?, got]; exact isParent
    obtain ⟨children, isInside⟩ := placed.housed isParentOf
    obtain ⟨too, inside, gotToo, kind, -⟩ := childrenOf?_eq_some.mp isInside
    obtain rfl := Option.mem_unique gotOuter gotToo
    rw [place] at isPath
    exact ⟨outer, gotOuter, by rw [kind]; rfl, append_cancel_right isPath⟩
  | append_singleton behind parent ih =>
    rw [← cons_append, ← append_assoc] at isPath
    obtain ⟨outer, gotOuter, place⟩ :=
      placed.rooted got (by rw [Hierarchy.parent?, isPath, getLast?_concat])
    rw [place] at isPath
    exact ih gotOuter (append_cancel_right isPath)

/-- What is around a process are composites, each with fewer others around it. -/
theorem Placed.exists_composite (around : comp ∈ proc.hierarchy.path) :
    ∃ outer, net.process? comp = some outer ∧ outer.kind.isLeaf = false ∧
      outer.hierarchy.depth < proc.hierarchy.depth := by
  obtain ⟨pre, behind, isPath⟩ := append_of_mem around
  obtain ⟨outer, gotOuter, isComp, isOuterPath⟩ := placed.exists_outer got isPath
  exact ⟨outer, gotOuter, isComp, by simp [Hierarchy.depth, isPath, isOuterPath]⟩

theorem Placed.not_mem_path : id ∉ proc.hierarchy.path := fun around => by
  obtain ⟨-, less⟩ := of_found got (placed.exists_composite got around)
  exact Nat.lt_irrefl _ less

theorem Placed.not_mem_path_of_leaf (leaf : proc.kind.isLeaf) {other : ProcessId} {has : Process}
    (gotOther : net.process? other = some has) : id ∉ has.hierarchy.path := fun around => by
  obtain ⟨isComp, -⟩ := of_found got (placed.exists_composite gotOther around)
  simp [leaf] at isComp

end

/-- What is left of a network when some processes are gone and what was inside them is not. -/
structure Dissolved (net : Network) (gone : List ProcessId) (next : Network) : Prop where
  evolves : net.Evolves next
  placed : next.Placed
  cores : ∀ id, (next.process? id).map Process.core =
    if id ∈ gone then none else (net.process? id).map Process.core
  places : ∀ id, (next.process? id).map (·.hierarchy) =
    if id ∈ gone then none else (net.process? id).map (·.hierarchy.outside gone)
  declared : ∀ key, (next.port? key).map Port.unlinked =
    ((net.port? key).map Port.unlinked).filter (·.owner ∉ gone)

namespace Dissolved

theorem refl (inv : net.Consistent) (placed : net.Placed) : net.Dissolved [] net where
  evolves := .refl inv
  placed := placed
  cores id := by simp
  places id := by
    have same (hier : Hierarchy) : hier.outside [] = hier := Hierarchy.outside_eq_self (by simp)
    simp [same]
  declared key := by cases net.port? key <;> rfl

theorem process?_eq_none (dissolved : net.Dissolved gone next) (isGone : id ∈ gone) :
    next.process? id = none := by
  have none := dissolved.cores id
  rwa [if_pos isGone, Option.map_eq_none_iff] at none

/-- Processes can go one after the other. -/
theorem trans (first : net.Dissolved gone next) (second : next.Dissolved more last) :
    net.Dissolved (gone ++ more) last where
  evolves := first.evolves.trans second.evolves
  placed := second.placed
  cores id := by
    rw [second.cores, first.cores]
    by_cases early : id ∈ gone <;> simp [early]
  places id := by
    have both : (next.process? id).map (·.hierarchy.outside more) =
        ((next.process? id).map (·.hierarchy)).map (·.outside more) := by
      rw [Option.map_map]
      rfl
    rw [second.places, both, first.places]
    by_cases early : id ∈ gone
    · simp [early]
    · simp [early, Hierarchy.outside_append, Function.comp_def]
  declared key := by
    rw [second.declared, first.declared, Option.filter_filter]
    congr 1
    simp

section

variable (dissolved : net.Dissolved gone next)

include dissolved

theorem exists_former {new : Process} (got : next.process? id = some new) :
    id ∉ gone ∧
    ∃ old, net.process? id = some old ∧ old.core = new.core ∧
      new.hierarchy = old.hierarchy.outside gone := by
  have cores := dissolved.cores id
  have places := dissolved.places id
  rw [got] at cores places
  split at cores
  · cases cores
  · rename_i still
    obtain ⟨old, gotOld, same⟩ := Option.map_eq_some_iff.mp cores.symm
    rw [if_neg still, gotOld] at places
    exact ⟨still, old, gotOld, same, Option.some.inj places⟩

theorem exists_later (got : net.process? id = some proc) (still : id ∉ gone) :
    ∃ new, next.process? id = some new ∧ new.core = proc.core ∧
      new.hierarchy = proc.hierarchy.outside gone := by
  have cores := dissolved.cores id
  rw [if_neg still, got] at cores
  obtain ⟨new, gotNew, same⟩ := Option.map_eq_some_iff.mp cores
  obtain ⟨-, old, gotOld, -, place⟩ := dissolved.exists_former gotNew
  obtain rfl := Option.mem_unique got gotOld
  exact ⟨new, gotNew, same, place⟩

theorem exists_former_port (has : next.port? key = some port) :
    port.owner ∉ gone ∧ ∃ old, net.port? key = some old ∧ old.unlinked = port.unlinked := by
  have declared := dissolved.declared key
  rw [has, Option.map_some, eq_comm, Option.filter_eq_some_iff] at declared
  obtain ⟨old, hasOld, same⟩ := Option.map_eq_some_iff.mp declared.1
  have still : port.unlinked.owner ∉ gone := by simpa using declared.2
  exact ⟨still, old, hasOld, same⟩

theorem exists_later_port (has : net.port? key = some port) (still : port.owner ∉ gone) :
    ∃ new, next.port? key = some new ∧ new.unlinked = port.unlinked := by
  have declared := dissolved.declared key
  have stays : port.unlinked.owner ∉ gone := still
  rw [has, Option.map_some, Option.filter_some_pos (by simpa using stays)] at declared
  exact Option.map_eq_some_iff.mp declared

theorem portAt?_eq (id : ProcessId) (dir : Direction) (idx : Nat) :
    next.portAt? id dir idx = if id ∈ gone then none else net.portAt? id dir idx := by
  have byCore (net : Network) : net.portAt? id dir idx =
      ((net.process? id).map Process.core).bind fun proc => (proc.ports dir)[idx]? := by
    rw [portAt?, Option.bind_map]
    rfl
  rw [byCore next, dissolved.cores, byCore net]
  split <;> rfl

theorem helperAt?_eq (id : ProcessId) (dir : Direction) (idx : Nat) :
    next.helperAt? id dir idx = if id ∈ gone then none else net.helperAt? id dir idx := by
  have byCore (net : Network) : net.helperAt? id dir idx =
      (((net.process? id).map Process.core).bind (·.kind.inside?)).bind fun inside =>
      (inside.listed dir)[idx]? := by
    rw [helperAt?]
    simp [Function.comp_def, Process.core, Option.bind_map, Option.bind_assoc]
  rw [byCore next, dissolved.cores, byCore net]
  split <;> rfl

theorem gate_iff : next.Gate comp dir helper outer inner ↔
    comp ∉ gone ∧ helper ∉ gone ∧ net.Gate comp dir helper outer inner := by
  simp only [Gate, dissolved.helperAt?_eq, dissolved.portAt?_eq]
  constructor <;> grind

end

end Dissolved

/-- What remains when a leaf is removed is placed as before. -/
theorem Removed.placed (removed : net.Removed id proc next) (got : net.process? id = some proc)
    (leaf : proc.kind.isLeaf) (placed : net.Placed) : next.Placed := by
  have parents (other : ProcessId) : next.parentOf? other = if other =
      id then none else net.parentOf? other := by
    rw [parentOf?, removed.processes]
    split
    · rfl
    · rw [Option.bind_map]
      congr 1
      funext has
      split <;> rfl
  have isParent : net.parentOf? id = proc.hierarchy.parent? := by rw [parentOf?, got]; rfl
  -- No other composite lists the process, so that it makes no difference where it is struck out.
  have children (other : ProcessId) : next.childrenOf? other =
      (net.childrenOf? other).map (·.filter (· ≠ id)) := by
    rw [childrenOf?, removed.processes]
    split
    · rename_i here
      cases isInside : net.childrenOf? other with
      | none => rfl
      | some mem =>
        obtain ⟨too, inside, gotToo, kind, -⟩ := childrenOf?_eq_some.mp isInside
        obtain rfl := Option.mem_unique got (here ▸ gotToo)
        simp [kind, Kind.isLeaf, Kind.inside?] at leaf
    · cases isInside : net.childrenOf? other with
      | none =>
        cases gotOther : net.process? other with
        | none => rfl
        | some has =>
          simp only [childrenOf?, gotOther, Option.bind_some, Option.map_eq_none_iff] at isInside
          split <;> simp [isInside, Process.disown, Kind.disown]
      | some mem =>
        obtain ⟨has, inside, gotOther, kind, rfl⟩ := childrenOf?_eq_some.mp isInside
        rw [gotOther]
        simp only [Option.map_some, Option.bind_some]
        split
        · simp [Process.disown, Kind.disown, Kind.mapInside, kind, Kind.inside?]
        · rename_i elsewhere
          have absent : ∀ child ∈ inside.children, child ≠ id := by
            rintro child isChild rfl
            exact elsewhere (isParent.symm.trans ((placed.members isInside child).mp isChild))
          have kept : inside.children.filter (· ≠ id) = inside.children := by simpa using absent
          rw [kind, kept]
          rfl
  refine ⟨⟨?_, ?_, ?_⟩, ?_⟩
  · intro child parent isParentOf
    rw [parents] at isParentOf
    split at isParentOf
    · cases isParentOf
    · obtain ⟨mem, isInside⟩ := placed.housed isParentOf
      exact ⟨_, by rw [children, isInside]; rfl⟩
  · intro comp mem isInside child
    rw [children] at isInside
    obtain ⟨pre, isPre, rfl⟩ := Option.map_eq_some_iff.mp isInside
    rw [parents, mem_filter, placed.members isPre]
    by_cases here : child = id <;> simp [here]
  · intro comp mem isInside
    rw [children] at isInside
    obtain ⟨pre, isPre, rfl⟩ := Option.map_eq_some_iff.mp isInside
    exact (placed.once isPre).filter _
  · intro other new parent gotNew isParentOf
    have places {other} (elsewhere : other ≠ id) : (next.process? other).map (·.hierarchy) =
        (net.process? other).map (·.hierarchy) := by
      rw [removed.processes, if_neg elsewhere, Option.map_map]
      refine Option.map_congr fun has _ => ?_
      split <;> rfl
    have elsewhere : other ≠ id := fun here => by
      rw [removed.processes, if_pos here] at gotNew
      cases gotNew
    have place := places elsewhere
    rw [gotNew, eq_comm] at place
    obtain ⟨old, gotOld, same⟩ := Option.map_eq_some_iff.mp place
    obtain ⟨outer, gotOuter, rooted⟩ := placed.rooted gotOld (by rw [same]; exact isParentOf)
    have around : parent ∈ old.hierarchy.path := by
      rw [rooted]; exact mem_append_right _ (mem_singleton_self parent)
    have apart : parent ≠ id :=
      fun here => placed.not_mem_path_of_leaf got leaf gotOld (here ▸ around)
    have placeOuter := places apart
    rw [gotOuter] at placeOuter
    obtain ⟨newOuter, gotNewOuter, sameOuter⟩ := Option.map_eq_some_iff.mp placeOuter
    exact ⟨newOuter, gotNewOuter,
      same.symm.trans (rooted.trans (congrArg (Hierarchy.child · parent) sameOuter.symm))⟩

section

variable (removed : net.Removed id proc next) (inv : net.Consistent)
  (got : net.process? id = some proc)

include removed inv got

/-- The ports of a removed process are gone, and the others are declared as before. -/
theorem Removed.declared (key : PortKey) :
    (next.port? key).map Port.unlinked =
      ((net.port? key).map Port.unlinked).filter (·.owner ∉ [id]) := by
  rw [removed.ports]
  cases has : net.port? key with
  | none => split <;> rfl
  | some port =>
    have mem : key ∈ proc.allPorts ↔ port.unlinked.owner = id := by
      rw [inv.mem_allPorts got]
      constructor
      · rintro ⟨too, hasToo, owner⟩
        exact Option.mem_unique has hasToo ▸ owner
      · exact fun owner => ⟨port, has, owner⟩
    by_cases here : port.unlinked.owner = id <;> simp [mem, here, Option.filter]

/-- When a leaf is removed, it alone is gone. -/
theorem Removed.dissolved (inner : ∀ key ∈ proc.allPorts, ¬net.isBoundary key)
    (leaf : proc.kind.isLeaf) (placed : net.Placed) : net.Dissolved [id] next where
  evolves := removed.evolves inv got inner
  placed := removed.placed got leaf placed
  cores other := by
    rw [removed.processes]
    by_cases here : other = id
    · simp [here]
    · rw [if_neg here, if_neg (by simpa using here), Option.map_map]
      refine Option.map_congr fun has _ => ?_
      split <;> simp
  places other := by
    rw [removed.processes]
    by_cases here : other = id
    · simp [here]
    · rw [if_neg here, if_neg (by simpa using here), Option.map_map]
      refine Option.map_congr fun has gotHas => ?_
      -- A leaf is around no process.
      have apart : has.hierarchy.outside [id] = has.hierarchy :=
          Hierarchy.outside_eq_self fun around isAround same =>
        placed.not_mem_path_of_leaf got leaf gotHas (mem_singleton.mp same ▸ isAround)
      simp only [Function.comp_apply, apart]
      split <;> rfl
  declared := removed.declared inv got

end

end Network

end Dataflow
