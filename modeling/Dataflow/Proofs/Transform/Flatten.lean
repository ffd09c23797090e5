import Dataflow.Proofs.Edit.Destroy
import Dataflow.Proofs.Transform.Inline
import Dataflow.Proofs.Transform.Innermost

/-! Flattening: composites are inlined, innermost first, until there is none. -/

open List

namespace Dataflow

namespace Network

variable {net mid next : Network} {id : ProcessId} {proc : Process} {inside : Composite}
  {lost : List ProcessId}

/-- The composite that is inlined first: no other is deeper, and of those as deep it has the first
name. -/
structure First (net : Network) (id : ProcessId) (process : Process) (inside : Composite) :
    Prop where
  stored : net.process? id = some process
  kind : process.kind = .composite inside
  before : ∀ other found, net.process? other = some found → found.kind.isLeaf = false →
    other = id ∨ found.hierarchy.depth < process.hierarchy.depth ∨
    found.hierarchy.depth = process.hierarchy.depth ∧ id < other

/-- All composites are inlined in turn. -/
inductive Flattens : Network → Network → Prop where
  | done {net : Network} (flat : net.Flat) : Flattens net net
  | step {net middle next : Network} {id : ProcessId} {process : Process} {inside : Composite}
    (first : net.First id process inside) (inlined : net.Inlined id process inside middle)
    (rest : Flattens middle next) : Flattens net next

/-- Some composite cannot be inlined when its turn comes. -/
inductive Unflattenable : Network → Prop where
  | here {net : Network} {id : ProcessId} {process : Process} {inside : Composite}
    (first : net.First id process inside) (fails : net.Uninlinable process inside) :
    Unflattenable net
  | behind {net middle : Network} {id : ProcessId} {process : Process} {inside : Composite}
    (first : net.First id process inside) (inlined : net.Inlined id process inside middle)
    (fails : Unflattenable middle) : Unflattenable net

theorem First.innermost (first : net.First id proc inside) : net.Innermost proc := by
  intro other has got comp
  rcases first.before other has got comp with rfl | deeper | ⟨same, -⟩
  · rw [Option.mem_unique got first.stored]
  · exact Nat.le_of_lt deeper
  · exact Nat.le_of_eq same

theorem first_of_innermostComposite? (has : net.innermostComposite? = some id) :
    ∃ proc inside, net.First id proc inside := by
  obtain ⟨proc, got, comp, pre⟩ := innermostComposite?_eq_some has
  obtain ⟨inside, kind⟩ : ∃ inside, proc.kind = .composite inside := by
    cases kind : proc.kind <;> simp_all [Kind.isLeaf, Kind.inside?]
  exact ⟨proc, inside, got, kind, pre⟩

theorem size_lt
    (old : ∀ {other new}, next.process? other = some new → ∃ proc, net.process? other = some proc)
    (got : net.process? id = some proc) (absent : next.process? id = none) :
    next.size < net.size := by
  have subset : id :: next.ids ⊆ net.ids := by
    intro other mem
    rcases mem_cons.mp mem with rfl | left
    · exact mem_ids.mpr ⟨proc, got⟩
    · obtain ⟨new, gotNew⟩ := mem_ids.mp left
      exact mem_ids.mpr (old gotNew)
  have notMem : id ∉ next.ids := fun left => by
    obtain ⟨new, gotNew⟩ := mem_ids.mp left
    simp [absent] at gotNew
  have shorter := (List.Nodup.subperm (nodup_cons.mpr ⟨notMem, next.nodup_ids⟩) subset).length_le
  rwa [length_cons, length_ids, length_ids] at shorter

theorem Dissolved.size_lt (dissolved : net.Dissolved lost next) (got : net.process? id = some proc)
    (isLost : id ∈ lost) : next.size < net.size := by
  refine Network.size_lt (fun gotNew => ?_) got (dissolved.process?_eq_none isLost)
  obtain ⟨-, old, gotOld, -⟩ := dissolved.exists_former gotNew
  exact ⟨old, gotOld⟩

theorem flat_of_size_eq_zero (empty : net.size = 0) : net.Flat := by
  intro id proc got
  have mem := mem_ids.mpr ⟨proc, got⟩
  rw [eq_nil_of_length_eq_zero (net.length_ids.trans empty)] at mem
  cases mem

theorem ends_inlineAll (inv : net.Consistent) (placed : net.Placed) {fuel : Nat}
    (room : net.size ≤ fuel) (report : Report) :
    (Edit.inlineAll fuel report).Ends net (fun _ next => net.Flattens next) fun next =>
      net.Unflattenable ∧ ((∃ lost, net.Dissolved lost next) ∨ next.Jammed) := by
  induction fuel generalizing net report with
  | zero => exact .done (flat_of_size_eq_zero (Nat.le_zero.mp room))
  | succ fuel ih =>
    rw [Edit.inlineAll, Edit.ends_bind, Edit.ends_get]
    split
    · rename_i none
      exact .done fun got => innermostComposite?_eq_none_iff.mp none _ _ got
    · rename_i id has
      obtain ⟨proc, inside, first⟩ := first_of_innermostComposite? has
      refine Edit.ends_bind.mpr <|
        (ends_inlineComposite inv placed first.stored first.kind first.innermost).mono
        (fun notes mid inlined => ?_) fun _ failed => ⟨.here first failed.1, failed.2⟩
      have dissolved := inlined.dissolved inv placed
      have smaller := dissolved.size_lt first.stored (mem_append_right _ (mem_singleton_self id))
      exact (ih dissolved.evolves.inv dissolved.placed
        (Nat.le_of_lt_succ (Nat.lt_of_lt_of_le smaller room)) _).mono
        (fun _ _ rest => .step first inlined rest) fun _ failed =>
          ⟨.behind first inlined failed.1, failed.2.imp_left fun left => left.elim fun _ more =>
            ⟨_, dissolved.trans more⟩⟩

theorem ends_flatten (inv : net.Consistent) (placed : net.Placed) :
    Edit.flatten.Ends net (fun _ next => net.Flattens next)
      fun next => net.Unflattenable ∧ ((∃ lost, net.Dissolved lost next) ∨ next.Jammed) := by
  exact ends_inlineAll inv placed (Nat.le_refl _) {}

/-- Composites and their helpers do not stay in a flat network. -/
def Passing (net : Network) (id : ProcessId) : Prop :=
  (∃ process, net.process? id = some process ∧ process.kind.isLeaf = false) ∨
    ∃ composite direction index, net.helperAt? composite direction index = some id

theorem Flat.helperAt?_ne (flat : net.Flat) {helper : ProcessId} {dir : Direction} {idx : Nat} :
    net.helperAt? id dir idx ≠ some helper := fun mem => by
  obtain ⟨proc, inside, got, kind, -⟩ := helperAt?_eq_some.mp mem
  have leaf := flat got
  rw [kind] at leaf
  cases leaf

theorem Flat.not_passing (flat : net.Flat) : ¬ net.Passing id := by
  rintro (⟨proc, got, comp⟩ | ⟨comp, dir, idx, mem⟩)
  · rw [flat got] at comp
    cases comp
  · exact flat.helperAt?_ne mem

theorem Flat.fitted (flat : net.Flat) : net.Fitted where
  counts got kind := by
    have leaf := flat got
    rw [kind] at leaf
    cases leaf
  helpers mem := absurd mem flat.helperAt?_ne
  once mem := absurd mem flat.helperAt?_ne

theorem Inlined.passing_iff (inlined : net.Inlined id proc inside mid) (inv : net.Consistent)
    (placed : net.Placed) (first : net.First id proc inside) {other : ProcessId} :
    net.Passing other ↔ other ∈ inside.inputs ++ inside.outputs ++ [id] ∨ mid.Passing other := by
  have dissolved := inlined.dissolved inv placed
  constructor
  · rintro (⟨has, got, comp⟩ | ⟨comp, dir, idx, mem⟩)
    · by_cases here : other = id
      · grind
      · obtain ⟨left, gotLeft, core, -⟩ :=
          dissolved.exists_later got (inlined.not_mem inv placed got comp here)
        exact .inr (.inl ⟨left, gotLeft, by rw [Process.isLeaf_eq core, comp]⟩)
    · by_cases here : comp = id
      · -- The helper is one of this composite.
        rw [here, helperAt?_of_composite first.stored first.kind] at mem
        exact .inl (mem_append_left _ (Helpers.mem_iff.mpr ⟨_, mem_of_getElem? mem⟩))
      · exact .inr (.inr ⟨comp, dir, idx, (inlined.helperAt?_eq inv placed).mpr ⟨here, mem⟩⟩)
  · rintro (isLost | ⟨left, got, comp⟩ | ⟨comp, dir, idx, mem⟩)
    · rcases mem_append.mp isLost with isHelper | isId
      · obtain ⟨dir, mem⟩ := Helpers.mem_iff.mp isHelper
        obtain ⟨idx, isMem⟩ := mem_iff_getElem?.mp mem
        exact .inr ⟨id, dir, idx, (helperAt?_of_composite first.stored first.kind).trans isMem⟩
      · rw [mem_singleton.mp isId]
        exact .inl ⟨proc, first.stored, by rw [first.kind]; rfl⟩
    · obtain ⟨-, old, gotOld, core, -⟩ := dissolved.exists_former got
      exact .inl ⟨old, gotOld, by rw [Process.isLeaf_eq core, comp]⟩
    · exact .inr ⟨comp, dir, idx, ((inlined.helperAt?_eq inv placed).mp mem).2⟩

namespace Flattens

theorem flat (flattens : net.Flattens next) : next.Flat := by
  induction flattens with
  | done flat => exact flat
  | step _ _ _ ih => exact ih

theorem fitted (flattens : net.Flattens next) (inv : net.Consistent) (placed : net.Placed) :
    net.Fitted := by
  induction flattens with
  | done flat => exact flat.fitted
  | step first inlined _ ih =>
    have dissolved := inlined.dissolved inv placed
    exact inlined.fitted_of inv placed first.stored first.kind
      (ih dissolved.evolves.inv dissolved.placed)

theorem exists_lost (flattens : net.Flattens next) (inv : net.Consistent) (placed : net.Placed) :
    ∃ lost, net.Dissolved lost next ∧
      (∀ id, id ∈ lost ↔ net.Passing id) ∧
      (net.Fitted → net.SinglePortHelpers → net.Sided → net.Rerouted lost next) := by
  induction flattens with
  | done flat =>
    exact ⟨[], .refl inv placed, fun id => by simpa using flat.not_passing, fun _ _ _ => .refl⟩
  | @step net mid next id proc inside first inlined _ ih =>
    have dissolved := inlined.dissolved inv placed
    obtain ⟨lost, dissolvedToo, isLost, rerouted⟩ :=
      ih dissolved.evolves.inv dissolved.placed
    refine ⟨_, dissolved.trans dissolvedToo, fun other => ?_, fun fitted singlePort sided => ?_⟩
    · rw [mem_append, isLost, ← inlined.passing_iff inv placed first]
    · obtain ⟨reroutedFirst, sidedToo⟩ :=
        inlined.rerouted inv placed first.stored first.kind fitted singlePort sided
      have fittedToo := inlined.fitted inv placed first.stored first.kind fitted
      exact reroutedFirst.trans
        (rerouted fittedToo (inlined.singlePort inv placed singlePort) sidedToo) dissolvedToo

end Flattens

end Network

end Dataflow
