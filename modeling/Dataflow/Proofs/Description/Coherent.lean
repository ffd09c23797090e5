import Dataflow.Description.Build
import Mathlib.Data.List.Nodup
import Mathlib.Data.List.Perm.Subperm
import Mathlib.Data.List.TakeWhile
import Mathlib.Logic.Relation

/-! Coherent descriptions: what everything that is described refers to is described, too. -/

open List

namespace Dataflow

/-- The declared ports of a process in one direction, in order. -/
def ProcessDecl.ports (decl : ProcessDecl) : Direction → List PortDecl
  | .input => decl.inPorts
  | .output => decl.outPorts

namespace Builder

variable {owner name ref : String}

theorem dropWhile_reverse_eq_cons {mark : Char} {pre behind : List Char} (last : mark ∉ behind) :
    (pre ++ mark :: behind).reverse.dropWhile (· ≠ mark) = mark :: pre.reverse ∧
      (pre ++ mark :: behind).reverse.takeWhile (· ≠ mark) = behind.reverse := by
  have passed : ∀ other ∈ behind.reverse, decide (other ≠ mark) = true := fun other mem => by grind
  have split : (pre ++ mark :: behind).reverse = behind.reverse ++ mark :: pre.reverse := by simp
  rw [split, dropWhile_append_of_pos passed, takeWhile_append_of_pos passed]
  simp

theorem splitReference?_eq_some :
    splitReference? ref = some (owner, name) ↔ '.' ∉ name.toList ∧ ref = owner ++ "." ++ name := by
  constructor
  · intro split
    unfold splitReference? at split
    dsimp only at split
    split at split
    · cases split
    · rename_i dot rest isRest
      obtain ⟨rfl, rfl⟩ := split
      have isDot : dot = '.' := by
        have stops := head?_dropWhile_not (· ≠ '.') ref.toList.reverse
        rw [isRest] at stops
        simpa using stops
      have whole : ref.toList =
          rest.reverse ++ '.' :: (ref.toList.reverse.takeWhile (· ≠ '.')).reverse := by
        have split :=
          congrArg List.reverse
            (takeWhile_append_dropWhile (p := (· ≠ '.')) (l := ref.toList.reverse))
        rw [isRest, isDot] at split
        simpa using split.symm
      refine ⟨fun mem => ?_, String.toList_injective ?_⟩
      · rw [String.toList_ofList, mem_reverse] at mem
        simpa using mem_takeWhile_imp mem
      · simpa using whole
  · rintro ⟨dotless, rfl⟩
    have parts := @dropWhile_reverse_eq_cons '.' owner.toList name.toList dotless
    have chars : (owner ++ "." ++ name).toList = owner.toList ++ '.' :: name.toList := by simp
    unfold splitReference?
    rw [chars]
    simp only [parts.1, parts.2]
    simp

end Builder

namespace Description

variable {desc : Description} {id : ProcessId} {decl : ProcessDecl}

/-- A process is declared directly inside another one. -/
def Inside (description : Description) (child parent : ProcessId) : Prop :=
  ∃ decl ∈ description.processes, decl.id = child ∧ decl.parent = some parent

/-- A reference, split at its last dot, names a declared port. -/
def Names (description : Description) (direction : Direction) (reference : String) : Prop :=
  ∃ decl ∈ description.processes, ∃ port ∈ decl.ports direction,
    '.' ∉ port.name.toList ∧ reference = decl.id ++ "." ++ port.name

/-- The processes of a description can be placed, each with its ports. -/
structure Arranged (description : Description) : Prop where
  distinct : (description.processes.map (·.id)).Nodup
  acyclic : ∀ id, ¬ Relation.TransGen description.Inside id id
  parents : ∀ decl ∈ description.processes, ∀ parent, decl.parent = some parent →
    ∃ outer ∈ description.processes, outer.id = parent ∧ ∃ helpers, outer.kind = .composite helpers
  ports : ∀ decl ∈ description.processes, ∀ direction, ((decl.ports direction).map (·.name)).Nodup

/-- A description in which names are unique and everything that is referred to is declared. -/
structure Coherent (description : Description) : Prop extends description.Arranged where
  helpers : ∀ decl ∈ description.processes, ∀ helpers, decl.kind = .composite helpers →
    ∀ helper ∈ helpers.inputs ++ helpers.outputs, ∃ other ∈ description.processes, other.id = helper
  connections : ∀ connection ∈ description.connections,
    description.Names .output connection.source ∧ description.Names .input connection.target
  /-- No port is in two connections; different references never name the same port. -/
  sources : (description.connections.map (·.source)).Nodup
  targets : (description.connections.map (·.target)).Nodup
  inputs : ∀ reference ∈ description.inputs, description.Names .input reference
  outputs : ∀ reference ∈ description.outputs, description.Names .output reference

theorem mem_of_find? (has : desc.find? id = some decl) : decl ∈ desc.processes ∧ decl.id = id :=
  ⟨mem_reverse.mp (mem_of_find?_eq_some has), by simpa using find?_some has⟩

section

variable (distinct : (desc.processes.map (·.id)).Nodup) (mem : decl ∈ desc.processes)

include distinct mem

theorem eq_of_id_eq {other : ProcessDecl} (memToo : other ∈ desc.processes)
    (same : decl.id = other.id) : decl = other :=
  inj_on_of_nodup_map distinct mem memToo same

theorem find?_eq_some :
    desc.find? decl.id = some decl := by
  cases has : desc.find? decl.id with
  | none =>
    have absent := find?_eq_none.mp has decl (mem_reverse.mpr mem)
    simp at absent
  | some other =>
    obtain ⟨memToo, same⟩ := mem_of_find? has
    rw [eq_of_id_eq distinct memToo mem same]

end

/-- The composites around a process whose parent is given, found by going from parent to parent. -/
inductive Above (description : Description) : Option ProcessId → List ProcessId → Prop where
  | top : Above description none []
  | inside {parent : ProcessId} {decl : ProcessDecl} {path : List ProcessId}
    (found : description.find? parent = some decl) (above : Above description decl.parent path) :
    Above description (some parent) (path ++ [parent])

namespace Above

variable {parent : Option ProcessId} {path other : List ProcessId}

theorem getLast?_eq (above : desc.Above parent path) : path.getLast? = parent := by
  cases above with
  | top => rfl
  | inside has above => exact getLast?_concat ..

theorem unique (above : desc.Above parent path) (aboveToo : desc.Above parent other) :
    path = other := by
  induction above generalizing other with
  | top => cases aboveToo; rfl
  | inside has above ih =>
    cases aboveToo with
    | inside hasToo aboveToo => grind

end Above

theorem exists_above_of_climb {self : ProcessId} {fuel : Nat} {parent : Option ProcessId}
    {path result : List ProcessId} (climbs : desc.climb self fuel path parent = .ok result) :
    ∃ outer, desc.Above parent outer ∧ result = outer ++ path := by
  induction fuel generalizing path parent with
  | zero =>
    cases parent with
    | none =>
      cases climbs
      exact ⟨[], .top, rfl⟩
    | some parent => cases climbs
  | succ fuel ih =>
    cases parent with
    | none =>
      cases climbs
      exact ⟨[], .top, rfl⟩
    | some parent =>
      rw [climb] at climbs
      split at climbs
      · cases climbs
      split at climbs
      · cases climbs
      · rename_i decl has
        obtain ⟨outer, above, rfl⟩ := ih climbs
        exact ⟨outer ++ [parent], .inside has above, by simp⟩

theorem above_of_place {hier : Hierarchy} (placed : desc.place decl = .ok hier) :
    desc.Above decl.parent hier.path := by
  cases climbs : desc.climb decl.id (desc.processes.length + 1) [] decl.parent with
  | error reason => simp [place, climbs, bind, Except.bind] at placed
  | ok path =>
    obtain ⟨outer, above, rfl⟩ := exists_above_of_climb climbs
    simp only [place, climbs, bind, Except.bind, pure, Except.pure, Except.ok.injEq] at placed
    rw [← placed, append_nil]
    exact above

theorem acyclic_of_above (distinct : (desc.processes.map (·.id)).Nodup)
    (placed : ∀ decl ∈ desc.processes, ∃ path, desc.Above decl.parent path) (id : ProcessId) :
    ¬ Relation.TransGen desc.Inside id id := by
  -- Every step outwards leads to a process with fewer composites around it.
  have shorter {child parent} (leads : Relation.TransGen desc.Inside child parent) :
      ∀ decl ∈ desc.processes, ∀ path, decl.id = child → desc.Above decl.parent path →
        ∃ outer ∈ desc.processes, ∃ less, outer.id = parent ∧ desc.Above outer.parent less ∧
        less.length < path.length := by
    have step {child parent} (inside : desc.Inside child parent) :
        ∀ decl ∈ desc.processes, ∀ path, decl.id = child → desc.Above decl.parent path →
          ∃ outer ∈ desc.processes, ∃ less, outer.id = parent ∧ desc.Above outer.parent less ∧
            less.length < path.length := by
      rintro decl mem path rfl above
      obtain ⟨too, memToo, same, isParent⟩ := inside
      rw [← eq_of_id_eq distinct mem memToo same.symm] at isParent
      rw [isParent] at above
      cases above with
      | @inside _ outer less has above =>
        obtain ⟨isDeclared, named⟩ := mem_of_find? has
        exact ⟨outer, isDeclared, less, named, above, by simp⟩
    induction leads with
    | single inside => exact step inside
    | tail leads inside ih =>
      intro decl mem path named above
      obtain ⟨mid, isMid, less, namedMid, aboveMid, shorter⟩ := ih decl mem path named above
      obtain ⟨outer, isOuter, least, namedOuter, aboveOuter, shortest⟩ :=
        step inside mid isMid less namedMid aboveMid
      exact ⟨outer, isOuter, least, namedOuter, aboveOuter, by omega⟩
  intro leads
  obtain ⟨decl, mem, named⟩ : ∃ decl ∈ desc.processes, decl.id = id := by
    obtain ⟨_, ⟨decl, mem, named, -⟩, -⟩ := Relation.TransGen.head'_iff.mp leads
    exact ⟨decl, mem, named⟩
  obtain ⟨path, above⟩ := placed decl mem
  obtain ⟨outer, isOuter, less, namedOuter, aboveOuter, shorter⟩ :=
    shorter leads decl mem path named above
  obtain rfl := eq_of_id_eq distinct mem isOuter (named.trans namedOuter.symm)
  rw [above.unique aboveOuter] at shorter
  exact Nat.lt_irrefl _ shorter

theorem exists_climb (distinct : (desc.processes.map (·.id)).Nodup)
    (acyclic : ∀ id, ¬ Relation.TransGen desc.Inside id id)
    (declared : ∀ decl ∈ desc.processes, ∀ parent, decl.parent = some parent →
      ∃ outer ∈ desc.processes, outer.id = parent) (self : ProcessId) (fuel : Nat)
    (path : List ProcessId) (parent : Option ProcessId)
    (known : ∀ outer, parent = some outer → ∃ decl ∈ desc.processes, decl.id = outer)
    (leads : ∀ below ∈ self :: path, ∀ outer, parent = some outer →
      Relation.TransGen desc.Inside below outer) (once : path.Nodup)
    (inside : path ⊆ desc.processes.map (·.id))
    (enough : desc.processes.length < fuel + path.length) :
    ∃ result, desc.climb self fuel path parent = .ok result := by
  induction fuel generalizing path parent with
  | zero =>
    -- There are not so many names.
    have short := (subperm_of_subset once inside).length_le
    rw [length_map] at short
    omega
  | succ fuel ih =>
    cases parent with
    | none => exact ⟨path, by rw [climb]⟩
    | some parent =>
      have fresh : ¬ (parent = self ∨ parent ∈ path) := by
        rintro (rfl | met)
        · exact acyclic parent (leads parent mem_cons_self parent rfl)
        · exact acyclic parent (leads parent (mem_cons_of_mem _ met) parent rfl)
      obtain ⟨decl, mem, rfl⟩ := known parent rfl
      rw [climb, if_neg fresh, find?_eq_some distinct mem]
      rw [not_or] at fresh
      have further {outer} (isParent : decl.parent = some outer) : desc.Inside decl.id outer :=
        ⟨decl, mem, rfl, isParent⟩
      refine ih _ _ (fun outer isParent => declared decl mem outer isParent)
        (fun below met outer isParent => ?_)
        (nodup_cons.mpr ⟨fresh.2, once⟩) (cons_subset.mpr ⟨mem_map_of_mem mem, inside⟩)
        (by simp only [length_cons]; omega)
      rcases mem_cons.mp met with rfl | met
      · grind
      rcases mem_cons.mp met with rfl | met
      · exact .single (further isParent)
      · grind

theorem Arranged.exists_place (arranged : desc.Arranged) (mem : decl ∈ desc.processes) :
    ∃ hier, desc.place decl = .ok hier := by
  have declared : ∀ decl ∈ desc.processes, ∀ parent, decl.parent = some parent →
      ∃ outer ∈ desc.processes, outer.id = parent := fun decl mem parent isParent => by
    obtain ⟨outer, isOuter, named, -⟩ := arranged.parents decl mem parent isParent
    exact ⟨outer, isOuter, named⟩
  obtain ⟨path, climbs⟩ := exists_climb arranged.distinct arranged.acyclic declared decl.id
    (desc.processes.length + 1) [] decl.parent (declared decl mem)
      (fun below met outer isParent => by
      rw [mem_singleton.mp met]
      exact .single ⟨decl, mem, rfl, isParent⟩) nodup_nil (nil_subset _) (by simp)
  exact ⟨⟨path⟩, by simp [place, climbs, bind, Except.bind, pure, Except.pure]⟩

end Description

end Dataflow
