import Dataflow.Proofs.Network.Legal
import Dataflow.Transform.Inline

/-! Which composite is inlined next: the deepest one, and the first one of these by name. -/

open List

namespace Dataflow.Network

variable {net : Network} {id : ProcessId} {proc : Process}

/-- The deeper one of a composite found before and the process of an entry, if that is a
composite. -/
def deeper (deepest : Option (ProcessId × Nat)) (entry : ProcessId × Process) :
    Option (ProcessId × Nat) :=
  if entry.2.kind.isLeaf ∨
    (deepest.any fun (_, other) => entry.2.hierarchy.depth ≤ other) then deepest
  else some (entry.1, entry.2.hierarchy.depth)

theorem innermostComposite?_eq (net : Network) :
    net.innermostComposite? = (net.processes.toList.foldl deeper none).map (·.1) :=
  rfl

/-- What is found among entries: the first one of the deepest composites. -/
inductive Deepest (entries : List (ProcessId × Process)) : Option (ProcessId × Nat) → Prop where
  | none (leaves : ∀ entry ∈ entries, entry.2.kind.isLeaf) : Deepest entries none
  | some {before behind : List (ProcessId × Process)} {id : ProcessId} {process : Process}
    (split : entries = before ++ (id, process) :: behind) (composite : process.kind.isLeaf = false)
    (first : ∀ entry ∈ before, entry.2.kind.isLeaf = false →
      entry.2.hierarchy.depth < process.hierarchy.depth)
    (deepest : ∀ entry ∈ behind, entry.2.kind.isLeaf = false →
      entry.2.hierarchy.depth ≤ process.hierarchy.depth) :
    Deepest entries (some (id, process.hierarchy.depth))

theorem Deepest.concat {entries : List (ProcessId × Process)} {has : Option (ProcessId × Nat)}
    (deepest : Deepest entries has) (entry : ProcessId × Process) :
    Deepest (entries ++ [entry]) (deeper has entry) := by
  have concat {holds : ProcessId × Process → Prop} (pre : ∀ other ∈ entries, holds other)
      (here : holds entry) :
      ∀ other ∈ entries ++ [entry], holds other := fun other mem => by grind
  unfold deeper
  cases leaf : entry.2.kind.isLeaf with
  | true =>
    cases deepest with
    | none leaves => simpa using .none (concat leaves leaf)
    | @some pre behind id proc split comp first deepest =>
      refine .some (by rw [split, append_assoc, cons_append]) comp first fun other mem inner => ?_
      rcases mem_append.mp mem with mem | mem
      · exact deepest other mem inner
      · rw [mem_singleton.mp mem, leaf] at inner
        cases inner
  | false =>
    cases deepest with
    | none leaves =>
      exact .some rfl leaf (fun other mem inner => by simp [leaves other mem] at inner) (by simp)
    | @some pre behind id proc split comp first deepest =>
      simp only [Bool.false_eq_true, Option.any_some, decide_eq_true_eq, false_or]
      split
      · rename_i shallow
        refine .some (by rw [split, append_assoc, cons_append]) comp first fun other mem inner => ?_
        rcases mem_append.mp mem with mem | mem
        · exact deepest other mem inner
        · exact mem_singleton.mp mem ▸ shallow
      · rename_i deep
        have deep := Nat.lt_of_not_le deep
        refine .some rfl leaf (fun other mem inner => ?_) (by simp)
        rw [split] at mem
        rcases mem_append.mp mem with mem | mem
        · exact Nat.lt_trans (first other mem inner) deep
        rcases mem_cons.mp mem with rfl | mem
        · exact deep
        · exact Nat.lt_of_le_of_lt (deepest other mem inner) deep

theorem deepest_foldl (entries : List (ProcessId × Process)) :
    Deepest entries (entries.foldl deeper none) := by
  induction entries using List.reverseRecOn with
  | nil => exact .none (by simp)
  | append_singleton entries entry ih =>
    rw [foldl_append]
    exact ih.concat entry

theorem innermostComposite?_eq_none_iff :
    net.innermostComposite? = none ↔ ∀ id proc, net.process? id = some proc → proc.kind.isLeaf := by
  have has := deepest_foldl net.processes.toList
  rw [innermostComposite?_eq]
  generalize net.processes.toList.foldl deeper none = result at has
  cases has with
  | none leaves => exact ⟨fun _ id proc got => leaves (id, proc) (mem_toList.mpr got), fun _ => rfl⟩
  | @some pre behind id proc split comp first deepest =>
    refine ⟨fun none => by simp at none, fun leaves => ?_⟩
    have got : net.process? id = some proc := mem_toList.mp (by rw [split]; simp)
    simp [leaves id proc got] at comp

theorem ordered_toList (net : Network) :
    net.processes.toList.Pairwise fun first second => first.1 < second.1 := by
  have ordered : net.processes.toList.Pairwise fun first second => compare first.1 second.1 = .lt :=
    Std.TreeMap.ordered_keys_toList
  exact ordered.imp fun pre => compareOfLessAndEq_eq_lt.mp pre

theorem innermostComposite?_eq_some (has : net.innermostComposite? = some id) :
    ∃ proc, net.process? id = some proc ∧ proc.kind.isLeaf = false ∧
      ∀ other inner, net.process? other = some inner → inner.kind.isLeaf = false →
        other = id ∨ inner.hierarchy.depth < proc.hierarchy.depth ∨
        inner.hierarchy.depth = proc.hierarchy.depth ∧ id < other := by
  have mem := deepest_foldl net.processes.toList
  have ordered := net.ordered_toList
  rw [innermostComposite?_eq] at has
  generalize net.processes.toList.foldl deeper none = result at mem has
  cases mem with
  | none leaves => cases has
  | @some pre behind name proc split comp first deepest =>
    obtain rfl := Option.some.inj has
    refine ⟨proc, mem_toList.mp (by rw [split]; simp), comp, fun other inner got isInner => ?_⟩
    have mem := mem_toList.mpr got
    rw [split] at mem ordered
    rcases mem_append.mp mem with mem | mem
    · exact .inr (.inl (first _ mem isInner))
    rcases mem_cons.mp mem with here | mem
    · exact .inl (congrArg Prod.fst here)
    · -- Of equally deep composites the first one is kept.
      have behindIt := (pairwise_cons.mp (pairwise_append.mp ordered).2.1).1 _ mem
      rcases Nat.lt_or_eq_of_le (deepest _ mem isInner) with less | same
      · exact .inr (.inl less)
      · exact .inr (.inr ⟨same, behindIt⟩)

end Dataflow.Network
