import Mathlib.Data.List.Chain
import Mathlib.Data.List.Duplicate
import Mathlib.Data.List.Nodup
import Mathlib.Data.List.Perm.Subperm
import Mathlib.Logic.Relation

/-! Loops of a relation: closed chains, and what remains of them when the relation changes. -/

open List

namespace Dataflow.Graph

open Relation

variable {α : Type} {r s : α → α → Prop} {loop : List α} {node : α}

theorem isChain_concat {list : List α} :
    (list ++ [node]).IsChain r ↔ list.IsChain r ∧ ∀ last ∈ list.getLast?, r last node := by
  rw [isChain_append]
  simp

theorem nodup_concat {list : List α} : (list ++ [node]).Nodup ↔ list.Nodup ∧ node ∉ list := by
  rw [← concat_eq_append, List.nodup_concat, and_comm]

/-- A closed chain, in which each node is followed by the next one and the last node by the
first. -/
def IsLoop (r : α → α → Prop) (loop : List α) : Prop :=
  ∃ first rest, loop = first :: rest ∧ (loop ++ [first]).IsChain r

namespace IsLoop

section

variable (isLoop : IsLoop r loop)

include isLoop

theorem ne_nil : loop ≠ [] := by
  obtain ⟨first, rest, rfl, -⟩ := isLoop
  exact cons_ne_nil _ _

theorem imp_of_mem (holds : ∀ a ∈ loop, ∀ b ∈ loop, r a b → s a b) : IsLoop s loop := by
  obtain ⟨first, rest, rfl, chain⟩ := isLoop
  refine ⟨first, rest, rfl, chain.imp_of_mem_imp fun a b mem memNext rel => ?_⟩
  have onLoop (c : α) (mem : c ∈ first :: rest ++ [first]) : c ∈ first :: rest := by
    rcases mem_append.mp mem with mem | mem
    · exact mem
    · rw [mem_singleton.mp mem]
      exact mem_cons_self
  exact holds a (onLoop a mem) b (onLoop b memNext) rel

theorem rotate (mem : node ∈ loop) :
    ∃ rest, (node :: rest).Perm loop ∧ IsLoop r (node :: rest) := by
  obtain ⟨first, others, rfl, chain⟩ := isLoop
  obtain ⟨front, back, split⟩ := append_of_mem mem
  refine ⟨back ++ front, ?_, node, back ++ front, rfl, ?_⟩
  · rw [split]
    exact (perm_append_comm : (node :: back ++ front).Perm (front ++ node :: back))
  · cases front with
    | nil => grind
    | cons head front =>
      obtain ⟨rfl, rfl⟩ := List.cons.inj split
      have whole : (first :: front ++ node :: (back ++ [first])).IsChain r := by simpa using chain
      obtain ⟨pre, behind⟩ := isChain_split.mp whole
      have joined : (node :: back ++ first :: (front ++ [node])).IsChain r :=
        isChain_split.mpr ⟨behind, pre⟩
      simpa using joined

theorem transGen {other : α} (mem : node ∈ loop) (memOther : other ∈ loop) :
    TransGen r node other := by
  obtain ⟨rest, perm, first, others, same, chain⟩ := isLoop.rotate mem
  obtain ⟨rfl, rfl⟩ := List.cons.inj same
  have reaches : (node :: (rest ++ [node])).IsChain (TransGen r) :=
    chain.imp fun a b rel => .single rel
  rw [isChain_iff_pairwise] at reaches
  refine rel_of_pairwise_cons reaches ?_
  rcases mem_cons.mp (perm.symm.subset memOther) with rfl | behind
  · exact mem_append_right rest (mem_singleton_self _)
  · exact mem_append_left _ behind

theorem exists_next (mem : node ∈ loop) : ∃ other ∈ loop, r node other := by
  obtain ⟨rest, perm, first, others, same, chain⟩ := isLoop.rotate mem
  obtain ⟨rfl, rfl⟩ := List.cons.inj same
  cases rest with
  | nil => exact ⟨node, mem, by simpa using chain⟩
  | cons other rest =>
    exact ⟨other, perm.subset (by simp), (isChain_cons_cons.mp chain).1⟩

theorem exists_nodup [DecidableEq α] : ∃ part, IsLoop r part ∧ part.Nodup ∧ part ⊆ loop := by
  induction len : loop.length using Nat.strong_induction_on generalizing loop with
  | _ size ih =>
    by_cases once : loop.Nodup
    · grind
    · obtain ⟨node, twice⟩ := exists_duplicate_iff_not_nodup.mpr once
      obtain ⟨rest, perm, first, others, same, chain⟩ := isLoop.rotate twice.mem
      obtain ⟨rfl, rfl⟩ := List.cons.inj same
      have too : node ∈ rest := by
        have counted := duplicate_iff_two_le_count.mp twice
        rw [← perm.count_eq, count_cons_self] at counted
        exact count_pos_iff.mp (by omega)
      obtain ⟨front, back, rfl⟩ := append_of_mem too
      have shorter : IsLoop r (node :: front) := by
        refine ⟨node, front, rfl, ?_⟩
        have whole : (node :: front ++ node :: (back ++ [node])).IsChain r := by simpa using chain
        exact (isChain_split.mp whole).1
      have less : (node :: front).length < size := by
        rw [← len, ← perm.length_eq]
        simp
      obtain ⟨part, isPart, onlyOnce, inside⟩ := ih _ less shorter rfl
      refine ⟨part, isPart, onlyOnce, fun a mem => perm.subset ?_⟩
      exact cons_subset_cons node (subset_append_left front _) (inside mem)

end

theorem exists_swap (isLoop : IsLoop (Function.swap r) loop) :
    ∃ back, IsLoop r back ∧ back ⊆ loop := by
  obtain ⟨first, rest, rfl, chain⟩ := isLoop
  refine ⟨first :: rest.reverse, ⟨first, rest.reverse, rfl, ?_⟩, by simp⟩
  have turned := isChain_reverse.mpr chain
  simpa using turned

theorem exists_previous (isLoop : IsLoop r loop) (mem : node ∈ loop) :
    ∃ other ∈ loop, r other node := by
  obtain ⟨rest, perm, first, others, same, chain⟩ := isLoop.rotate mem
  obtain ⟨rfl, rfl⟩ := List.cons.inj same
  obtain ⟨last, isLast⟩ : ∃ last, (node :: rest).getLast? = some last :=
    ⟨_, getLast?_eq_some_getLast (cons_ne_nil node rest)⟩
  exact ⟨last, perm.subset (mem_of_getLast? isLast), (isChain_concat.mp chain).2 last isLast⟩

end IsLoop

theorem exists_isLoop_of_forall_next [DecidableEq α] {nodes : List α} {inside : α → Prop}
    (known : ∀ a, inside a → a ∈ nodes) (onwards : ∀ a, inside a → ∃ b, inside b ∧ r a b)
    (starts : inside node) : ∃ loop, IsLoop r loop ∧ ∀ a ∈ loop, inside a := by
  -- One can go on for as long as one likes.
  have walk (len : Nat) : ∃ chain : List α, chain.length = len + 1 ∧ chain.IsChain r ∧
      ∀ a ∈ chain, inside a := by
    induction len with
    | zero => exact ⟨[node], rfl, .singleton node, by simpa using starts⟩
    | succ len ih =>
      obtain ⟨chain, counts, chained, within⟩ := ih
      obtain ⟨last, isLast⟩ : ∃ last, chain.getLast? = some last := by
        cases ends : chain.getLast? with
        | none => simp [getLast?_eq_none_iff.mp ends] at counts
        | some last => exact ⟨last, rfl⟩
      obtain ⟨next, isInside, rel⟩ := onwards last (within last (mem_of_getLast? isLast))
      refine ⟨chain ++ [next], by simp [counts], isChain_concat.mpr ⟨chained, fun end_ isEnd => ?_⟩,
        fun a mem => ?_⟩
      · exact Option.mem_unique isLast isEnd ▸ rel
      · grind
  obtain ⟨chain, counts, chained, within⟩ := walk nodes.length
  have repeats : ¬ chain.Nodup := fun once => by
    have short := (subperm_of_subset once fun a mem => known a (within a mem)).length_le
    omega
  obtain ⟨too, twice⟩ := exists_duplicate_iff_not_nodup.mpr repeats
  obtain ⟨front, behind, rfl, first⟩ := eq_append_cons_of_mem twice.mem
  have counted := duplicate_iff_two_le_count.mp twice
  rw [count_append, count_eq_zero_of_not_mem first, count_cons_self] at counted
  obtain ⟨mid, back, rfl⟩ := append_of_mem (count_pos_iff.mp (show 0 < behind.count too by omega))
  have onwards : (too :: mid ++ too :: back).IsChain r := chained.suffix (suffix_append _ _)
  exact ⟨too :: mid, ⟨too, mid, rfl, (isChain_split.mp onwards).1⟩, fun a mem => within a (by
    simp only [mem_append, mem_cons] at mem ⊢
    tauto)⟩

/-- A relation `s` comes from `r` by new nodes that lead from one node to another, where `r` has
another way. -/
structure Detour (r s : α → α → Prop) (inner : α → Prop) (source target : α) (way : List α) :
    Prop where
  step : ∀ {a b}, s a b →
    ¬ inner a ∧ ¬ inner b ∧ r a b ∨ a = source ∧ (inner b ∨ b = target) ∨
    inner a ∧ (inner b ∨ b = target)
  source_outer : ¬ inner source
  target_outer : ¬ inner target
  way : (source :: way ++ [target]).IsChain r

namespace Detour

variable {inner : α → Prop} {src dst : α} {way : List α}

variable (detour : Detour r s inner src dst way)

include detour

/-- A chain that starts outside and never leaves the source stays outside. -/
theorem outer {chain : List α} (chained : (node :: chain).IsChain s) (starts : ¬ inner node)
    (avoids : src ∉ (node :: chain).dropLast) :
    (node :: chain).IsChain r ∧ ∀ a ∈ node :: chain, ¬ inner a := by
  induction chain generalizing node with
  | nil => exact ⟨isChain_singleton node, by simpa using starts⟩
  | cons next chain ih =>
    obtain ⟨rel, onwards⟩ := isChain_cons_cons.mp chained
    simp only [dropLast_cons_of_ne_nil (cons_ne_nil next chain), mem_cons, not_or] at avoids
    rcases detour.step rel with ⟨-, outside, kept⟩ | ⟨here, -⟩ | ⟨inside, -⟩
    · obtain ⟨rest, outsideAll⟩ := ih onwards outside avoids.2
      refine ⟨isChain_cons_cons.mpr ⟨kept, rest⟩, fun a mem => ?_⟩
      rcases mem_cons.mp mem with rfl | mem
      · exact starts
      · exact outsideAll a mem
    · exact absurd here.symm avoids.1
    · exact absurd inside starts

/-- A chain that starts inside comes out at the target. -/
theorem leaves {chain : List α} {last : α} (chained : (node :: chain ++ [last]).IsChain s)
    (starts : inner node) (ends : ¬ inner last) :
    ∃ front back, node :: chain ++ [last] = front ++ dst :: back ∧ ∀ a ∈ front, inner a := by
  induction chain generalizing node with
  | nil =>
    have rel : s node last := by simpa using chained
    rcases detour.step rel with ⟨outside, -⟩ | ⟨rfl, -⟩ | ⟨-, inside | rfl⟩
    · exact absurd starts outside
    · exact absurd starts detour.source_outer
    · exact absurd inside ends
    · exact ⟨[node], [], rfl, by simpa using starts⟩
  | cons next chain ih =>
    obtain ⟨rel, onwards⟩ := isChain_cons_cons.mp chained
    rcases detour.step rel with ⟨outside, -⟩ | ⟨rfl, -⟩ | ⟨-, inside | rfl⟩
    · exact absurd starts outside
    · exact absurd starts detour.source_outer
    · grind
    · exact ⟨[node], chain ++ [last], rfl, by simpa using starts⟩

theorem reroute {rest front back : List α} (once : (src :: rest).Nodup)
    (chained : (src :: rest ++ [src]).IsChain s) (split : rest ++ [src] = front ++ dst :: back) :
    ∃ outside, rest = front ++ outside ∧
      (∀ a ∈ outside, ¬ inner a) ∧
      IsLoop r (src :: way ++ outside) := by
  have ends : (dst :: back).getLast? = some src := by
    have whole := congrArg List.getLast? split
    simpa using whole.symm
  obtain ⟨outside, closes⟩ : ∃ outside, dst :: back = outside ++ [src] := by
    refine ⟨(dst :: back).dropLast, ?_⟩
    have parts := dropLast_append_getLast (cons_ne_nil dst back)
    rw [getLast?_eq_some_getLast (cons_ne_nil dst back), Option.some.injEq] at ends
    rw [ends] at parts
    exact parts.symm
  have restSplit : rest = front ++ outside := by
    rw [closes, ← append_assoc] at split
    exact append_cancel_right split
  have behind : (dst :: back).IsChain s := by
    refine chained.suffix ?_
    rw [cons_append, split]
    exact (suffix_append _ _).trans (suffix_cons _ _)
  have avoids : src ∉ (dst :: back).dropLast := by simp_all
  obtain ⟨kept, outer⟩ := detour.outer behind detour.target_outer avoids
  refine ⟨outside, restSplit, fun a mem => outer a (closes ▸ mem_append_left _ mem), ?_⟩
  refine ⟨src, way ++ outside, rfl, ?_⟩
  have joined :=
    isChain_split.mpr (show (src :: way ++ [dst]).IsChain r ∧ _ from ⟨detour.way, kept⟩)
  rw [append_assoc, ← closes]
  exact joined

section

variable (isLoop : IsLoop s loop) (once : loop.Nodup) (outside : ∃ a ∈ loop, ¬ inner a)

include isLoop once outside

theorem exists_isLoop :
    ∃ front others, (front ++ others).Perm loop ∧
      (∀ a ∈ front, inner a) ∧
      (∀ a ∈ others, ¬ inner a) ∧
      (front = [] ∧ IsLoop r others ∨
        ∃ rest, others = src :: rest ∧ IsLoop r (src :: way ++ rest)) := by
  by_cases passes : src ∈ loop
  · obtain ⟨rest, perm, chained⟩ := isLoop.rotate passes
    obtain ⟨first, others, same, chain⟩ := chained
    obtain ⟨rfl, rfl⟩ := List.cons.inj same
    have onceRotated : (src :: rest).Nodup := perm.nodup_iff.mpr once
    -- Where the new way is taken, the old one can be taken instead.
    have rerouted {front back} (split : rest ++ [src] = front ++ dst :: back)
        (inside : ∀ a ∈ front, inner a) :
        ∃ front others, (front ++ others).Perm loop ∧ (∀ a ∈ front, inner a) ∧
          (∀ a ∈ others, ¬ inner a) ∧
          (front = [] ∧ IsLoop r others ∨ ∃ rest, others = src :: rest ∧
            IsLoop r (src :: way ++ rest)) := by
      obtain ⟨outer, parts, outside, isLoop⟩ := detour.reroute onceRotated chain split
      refine ⟨front, src :: outer, ?_, inside, ?_, .inr ⟨outer, rfl, isLoop⟩⟩
      · exact perm_middle.trans (parts ▸ perm)
      · simpa using ⟨detour.source_outer, outside⟩
    cases closing : rest ++ [src] with
    | nil => simp at closing
    | cons head tail =>
      have steps : s src head ∧ (head :: tail).IsChain s := by grind
      rcases detour.step steps.1 with ⟨-, outside, kept⟩ | ⟨-, inside | rfl⟩ | ⟨inside, -⟩
      · have avoids : src ∉ (head :: tail).dropLast := by
          rw [← closing, dropLast_concat]
          exact (nodup_cons.mp onceRotated).1
        obtain ⟨onwards, outer⟩ := detour.outer steps.2 outside avoids
        refine ⟨[], src :: rest, perm, by simp, ?_, .inl ⟨rfl, src, rest, rfl, ?_⟩⟩
        · refine forall_mem_cons.mpr ⟨detour.source_outer, fun a mem => outer a ?_⟩
          rw [← closing]
          exact mem_append_left _ mem
        · rw [cons_append, closing]
          exact isChain_cons_cons.mpr ⟨kept, onwards⟩
      · cases rest with
        | nil =>
          obtain ⟨rfl, -⟩ := List.cons.inj closing
          exact absurd inside detour.source_outer
        | cons head rest =>
          obtain ⟨rfl, -⟩ := List.cons.inj closing
          have behind : (head :: rest ++ [src]).IsChain s := closing ▸ steps.2
          obtain ⟨front, back, split, insideAll⟩ := detour.leaves behind inside detour.source_outer
          exact rerouted split insideAll
      · exact rerouted (show rest ++ [src] = [] ++ head :: tail from closing) (by simp)
      · exact absurd inside detour.source_outer
  · obtain ⟨start, mem, starts⟩ := outside
    obtain ⟨rest, perm, chained⟩ := isLoop.rotate mem
    obtain ⟨first, others, same, chain⟩ := chained
    obtain ⟨rfl, rfl⟩ := List.cons.inj same
    have avoids : src ∉ (start :: (rest ++ [start])).dropLast := by grind
    obtain ⟨kept, outer⟩ := detour.outer chain starts avoids
    refine ⟨[], start :: rest, perm, by simp,
      fun a mem => outer a ?_, .inl ⟨rfl, start, rest, rfl, kept⟩⟩
    exact mem_append_left [start] mem

theorem exists_countP_eq (wayOnce : way.Nodup) (wayFresh : ∀ a ∈ way, a ∈ loop → inner a)
    {p q : α → Bool} (same : ∀ a ∈ loop, ¬ inner a → p a = q a)
    (innerFree : ∀ a ∈ loop, inner a → q a = false) (wayFree : ∀ a ∈ way, p a = false) :
    ∃ old, IsLoop r old ∧ old.Nodup ∧ old.countP p = loop.countP q := by
  obtain ⟨front, others, perm, inside, outer, kept⟩ := detour.exists_isLoop isLoop once outside
  have counted : loop.countP q = others.countP p := by
    -- Only the nodes outside are counted, and these are the same.
    have none : front.countP q = 0 := countP_eq_zero.mpr fun a mem => by
      simp [innerFree a (perm.subset (mem_append_left _ mem)) (inside a mem)]
    have agree : others.countP q = others.countP p := countP_congr fun a mem => by
      rw [same a (perm.subset (mem_append_right _ mem)) (outer a mem)]
    rw [← perm.countP_eq, countP_append, none, agree, Nat.zero_add]
  have othersOnce : others.Nodup := (nodup_append.mp (perm.nodup_iff.mpr once)).2.1
  rcases kept with ⟨-, isLoop⟩ | ⟨rest, rfl, isLoop⟩
  · exact ⟨others, isLoop, othersOnce, counted.symm⟩
  · refine ⟨src :: way ++ rest, isLoop, ?_, ?_⟩
    · have parts : (src :: way ++ rest).Perm (way ++ src :: rest) := perm_middle.symm
      refine parts.nodup_iff.mpr
        (nodup_append.mpr ⟨wayOnce, othersOnce, fun a mem b memOther equal => ?_⟩)
      have isOther : a ∈ src :: rest := equal ▸ memOther
      exact outer a isOther (wayFresh a mem (perm.subset (mem_append_right _ isOther)))
    · have none : way.countP p = 0 := countP_eq_zero.mpr fun a mem => by simp [wayFree a mem]
      have parts : (src :: way ++ rest).Perm (way ++ src :: rest) := perm_middle.symm
      rw [parts.countP_eq, countP_append, none, Nat.zero_add, counted]

end

end Detour

end Dataflow.Graph
