import Mathlib.Data.List.Forall2
import Mathlib.Data.List.Nodup

/-! Lists that are related entry by entry. -/

open List

namespace Dataflow

universe u

variable {α β γ : Type} {relation : α → β → Prop} {left : List α} {right : List β}

theorem exists_getElem?_of_forall₂ {idx : Nat} {entry : β} (rel : Forall₂ relation left right)
    (has : right[idx]? = some entry) : ∃ other, left[idx]? = some other ∧ relation other entry := by
  obtain ⟨bound, rfl⟩ := List.getElem?_eq_some_iff.mp has
  have same := rel.length_eq
  exact ⟨left[idx], getElem?_eq_getElem _, rel.get (by omega) bound⟩

theorem exists_mem_zip {entry : α} (rel : Forall₂ relation left right) (mem : entry ∈ left) :
    ∃ other, (entry, other) ∈ left.zip right ∧ relation entry other := by
  induction rel with
  | nil => cases mem
  | cons head _ ih => grind

theorem exists_of_forall₂ {entry : β} (rel : Forall₂ relation left right) (mem : entry ∈ right) :
    ∃ other ∈ left, relation other entry := by
  obtain ⟨other, paired, holds⟩ := exists_mem_zip rel.flip mem
  exact ⟨other, (of_mem_zip paired).2, holds⟩

theorem exists_forall₂ (each : ∀ entry ∈ left, ∃ other, relation entry other) :
    ∃ others, Forall₂ relation left others := by
  induction left with
  | nil => exact ⟨[], .nil⟩
  | cons entry entries ih =>
    obtain ⟨other, holds⟩ := each entry mem_cons_self
    obtain ⟨others, holdsRest⟩ := ih fun rest mem => each rest (mem_cons_of_mem _ mem)
    exact ⟨other :: others, .cons holds holdsRest⟩

theorem forall₂_mem (rel : Forall₂ relation left right) :
    Forall₂ (fun a b => a ∈ left ∧ b ∈ right ∧ relation a b) left right := by
  obtain ⟨lengths, pairs⟩ := forall₂_iff_zip.mp rel
  refine forall₂_iff_zip.mpr ⟨lengths, fun paired => ?_⟩
  obtain ⟨mem, memRight⟩ := of_mem_zip paired
  exact ⟨mem, memRight, pairs paired⟩

theorem forall₂_trans {second : β → γ → Prop} {both : α → γ → Prop}
    (compose : ∀ {x y z}, relation x y → second y z → both x z) {others : List γ}
    (rel : Forall₂ relation left right) (relToo : Forall₂ second right others) :
    Forall₂ both left others := by
  induction rel generalizing others with
  | nil =>
    cases relToo
    exact .nil
  | cons head _ ih =>
    cases relToo with
    | cons headToo tail => exact .cons (compose head headToo) (ih tail)

theorem pairwise_of_forall₂ {apart : β → β → Prop} (rel : Forall₂ relation left right)
    (once : left.Nodup)
    (differ : ∀ a ∈ left, ∀ b ∈ left, ∀ c d, relation a c → relation b d → a ≠ b → apart c d) :
    right.Pairwise apart := by
  have lengths := rel.length_eq
  refine pairwise_iff_getElem.mpr fun i j first second pre => ?_
  refine differ left[i] (getElem_mem _) left[j] (getElem_mem _) _ _ (rel.get (by omega) first)
    (rel.get (by omega) second) ?_
  exact fun same => Nat.ne_of_lt pre (once.getElem_inj_iff.mp same)

theorem nodup_of_forall₂ (rel : Forall₂ relation left right) (once : left.Nodup)
    (unique : ∀ {a b c}, relation a c → relation b c → a = b) : right.Nodup :=
  pairwise_of_forall₂ rel once fun _ _ _ _ _ _ first second apart same =>
    apart (unique first (same ▸ second))

theorem idxOf_eq_of_mem_zip [BEq α] [LawfulBEq α] [BEq β] [LawfulBEq β] {first : α} {second : β}
    (once : left.Nodup) (onceRight : right.Nodup) (paired : (first, second) ∈ left.zip right) :
    left.idxOf first = right.idxOf second := by
  obtain ⟨idx, bound, same⟩ := mem_iff_getElem.mp paired
  rw [getElem_zip, Prod.mk.injEq] at same
  obtain ⟨rfl, rfl⟩ := same
  rw [once.idxOf_getElem, onceRight.idxOf_getElem]

theorem map_getD_idxOf {β : Type u} [BEq α] [LawfulBEq α] {values : List β} (once : left.Nodup)
    (lengths : left.length = values.length) (fallback : β) :
    left.map (fun entry => values.getD (left.idxOf entry) fallback) = values := by
  refine ext_getElem (by simp [lengths]) fun idx bound boundValues => ?_
  rw [getElem_map, once.idxOf_getElem idx (by simpa using bound)]
  simp [List.getD, getElem?_eq_getElem boundValues]

end Dataflow
