import Dataflow.Proofs.Network.Reachable
import Dataflow.Proofs.Schedule.Plan

/-! The schedule that is found holds exactly what leads to an output, and passes its check unless a
loop has no delay. -/

open List

namespace Dataflow

variable {net : Network} {queue : List ProcessId}

namespace Schedule

variable {order : List ProcessId} {id src : ProcessId}

theorem before_iff_sublist (once : order.Nodup) {idx : Nat} (here : order[idx]? = some id) :
    src ∈ order.take idx ∧ src ∉ order.drop idx ↔ [src, id].Sublist order := by
  have parts := take_append_drop idx order
  have apart := (nodup_append.mp (parts ▸ once)).2.2
  have mem : id ∈ order.drop idx := by
    obtain ⟨within, rfl⟩ := List.getElem?_eq_some_iff.mp here
    exact mem_drop_iff_getElem.mpr ⟨0, by omega, by simp⟩
  constructor
  · rintro ⟨pre, -⟩
    rw [← parts]
    exact (singleton_sublist.mpr pre).append (singleton_sublist.mpr mem)
  · intro sublist
    obtain ⟨front, back, split, inFront, inBack⟩ := cons_sublist_iff.mp sublist
    have early : front.length ≤ idx := by
      by_contra late
      have inside : front[idx]? = some id := by grind
      have apartSplit := (nodup_append.mp (split ▸ once)).2.2
      exact apartSplit id (mem_of_getElem? inside) id (singleton_sublist.mp inBack) rfl
    have pre : src ∈ order.take idx := by
      rw [split, take_append, take_of_length_le early]
      exact mem_append_left _ inFront
    exact ⟨pre, fun behind => apart src pre src behind rfl⟩

theorem idxOf_lt_of_sublist (once : order.Nodup) (sublist : [src, id].Sublist order) :
    order.idxOf src < order.idxOf id := by
  obtain ⟨front, back, rfl, inFront, inBack⟩ := cons_sublist_iff.mp sublist
  have notInFront : id ∉ front := fun inside =>
    (nodup_append.mp once).2.2 id inside id (singleton_sublist.mp inBack) rfl
  rw [idxOf_append_of_mem inFront, idxOf_append_of_notMem notInFront]
  have within := idxOf_lt_length_of_mem inFront
  omega

theorem dependenciesOrdered_iff (consistent : net.Consistent) (once : order.Nodup)
    (exist : ∀ id ∈ order, net.contains id) :
    (Schedule.verify ⟨order⟩ net).dependenciesOrdered ↔
      ∀ id ∈ order, ¬ net.isDelay id → ∀ src, net.Feeds src id → [src, id].Sublist order := by
  have checked {id idx} (here : order[idx]? = some id) :
      Schedule.isOrderedAt ⟨order⟩ net id idx ↔
        (¬ net.isDelay id → ∀ src, net.Feeds src id → [src, id].Sublist order) := by
    have known := exist id (mem_of_getElem? here)
    rw [Network.contains_eq] at known
    obtain ⟨proc, got⟩ := Option.isSome_iff_exists.mp known
    have delays : net.isDelay id = proc.kind.isDelay := by simp [Network.isDelay, got]
    simp only [isOrderedAt, got, Network.predecessors, consistent.neighbours_eq got,
      Bool.or_eq_true, all_eq_true, Bool.and_eq_true, decide_eq_true_eq, delays,
      consistent.mem_across_input, before_iff_sublist once here]
    tauto
  simp only [verify, all_eq_true, Prod.forall, mem_zipIdx_iff_getElem?]
  constructor
  · intro all id mem
    obtain ⟨idx, here⟩ := getElem?_of_mem mem
    exact (checked here).mp (all id idx here)
  · intro all id idx here
    exact (checked here).mpr (all id (mem_of_getElem? here))

theorem not_ordered_of_isLoop (once : order.Nodup) {loop : List ProcessId}
    (isLoop : net.IsLoop loop) (inside : ∀ id ∈ loop, ¬ net.isDelay id ∧ id ∈ order) :
    ¬ ∀ id ∈ order, ¬ net.isDelay id → ∀ src, net.Feeds src id → [src, id].Sublist order := by
  intro ordered
  obtain ⟨first, rest, rfl, chain⟩ := isLoop
  have increasing : (first :: rest ++ [first]).IsChain fun src id =>
      order.idxOf src < order.idxOf id := by
    refine chain.imp_of_mem_imp fun src id _ mem feeds => idxOf_lt_of_sublist once ?_
    have onLoop : id ∈ first :: rest := by grind
    exact ordered id (inside id onLoop).2 (inside id onLoop).1 src feeds
  rw [← isChain_map (R := (· < ·)) order.idxOf, isChain_iff_pairwise, map_append, pairwise_append]
    at increasing
  exact Nat.lt_irrefl _ (increasing.2.2 (order.idxOf first) (by simp) (order.idxOf first) (by simp))

end Schedule

namespace Plan.Sound

variable {plan : Plan}

theorem mem_of_feeds (sound : plan.Sound net []) {src id : ProcessId} (mem : id ∈ plan.order)
    (feeds : net.Feeds src id) : src ∈ plan.order := by
  by_cases delays : net.isDelay id
  · exact (sound.delayed id mem delays src feeds).resolve_right not_mem_nil
  · rcases sound.covered id mem delays src feeds with sublist | ⟨-, known⟩
    · exact sublist.subset mem_cons_self
    · exact known

theorem mem_order_iff (sound : plan.Sound net []) (id : ProcessId) :
    id ∈ plan.order ↔ net.ReachesOutput id := by
  refine ⟨fun mem => sound.leads id (.inl mem), ?_⟩
  rintro ⟨dst, emits, leads⟩
  induction leads using Relation.ReflTransGen.head_induction_on with
  | refl => exact (sound.starts dst emits).resolve_right not_mem_nil
  | head feeds _ ih => exact sound.mem_of_feeds ih feeds

section

variable (sound : plan.Sound net queue) (consistent : net.Consistent)

include sound consistent

theorem exist (id : ProcessId) (mem : id ∈ plan.order) : net.contains id :=
  consistent.contains_of_reachesOutput (sound.leads id (.inl mem))

theorem ordered_iff :
    (Schedule.verify ⟨plan.order⟩ net).dependenciesOrdered ↔ plan.findings = [] := by
  rw [Schedule.dependenciesOrdered_iff consistent sound.once (sound.exist consistent)]
  constructor
  · intro ordered
    refine sound.loops.resolve_right fun ⟨loop, isLoop, inside⟩ => ?_
    exact Schedule.not_ordered_of_isLoop sound.once isLoop inside ordered
  · intro clean id mem instant src feeds
    exact (sound.covered id mem instant src feeds).resolve_right fun has => has.1 clean

theorem findings_ne_nil_iff :
    plan.findings ≠ [] ↔
      ∃ loop, net.IsLoop loop ∧ ∀ id ∈ loop, ¬ net.isDelay id ∧ id ∈ plan.order := by
  refine ⟨sound.loops.resolve_left, fun ⟨loop, isLoop, inside⟩ clean => ?_⟩
  have ordered := (sound.ordered_iff consistent).mpr clean
  rw [Schedule.dependenciesOrdered_iff consistent sound.once (sound.exist consistent)] at ordered
  exact Schedule.not_ordered_of_isLoop sound.once isLoop inside ordered

end

end Plan.Sound

namespace Network

theorem countP_unscheduled (net : Network) (order : List ProcessId) (id : ProcessId) :
    ((net.ids.filter (· ∉ order)).map unscheduled).countP
        (fun finding => finding.code = some .unscheduled ∧ finding.subject = some id) =
      if net.contains id ∧ id ∉ order then 1 else 0 := by
  have about : (fun other => decide ((unscheduled other).code = some .unscheduled ∧
      (unscheduled other).subject = some id)) = (fun other => other == id) := by
    simp [unscheduled, BEq.beq]
  have known : id ∈ net.ids ↔ net.contains id := by
    rw [mem_ids, contains_eq, Option.isSome_iff_exists]
  rw [countP_map, Function.comp_def, about, ← List.count, List.Nodup.count (net.nodup_ids.filter _)]
  simp [known]

theorem exists_plan (consistent : net.Consistent) :
    ∃ plan : Plan, plan.Sound net [] ∧ net.schedule =
      .ok (⟨plan.order⟩, plan.findings ++ (net.ids.filter (· ∉ plan.order)).map unscheduled) := by
  obtain ⟨ids, asked, counted, emitting⟩ := consistent.outputProcesses_eq
  have start : Plan.Sound net {} ids := {
    once := nodup_nil
    same := fun _ => Iff.rfl
    leads := fun id mem => ⟨id, (emitting id).mp (mem.resolve_left not_mem_nil), .refl⟩
    starts := fun id emits => .inr ((emitting id).mpr emits)
    delayed := by simp
    covered := by simp
    reports := fun _ => rfl
    codes := by simp
    loops := .inl rfl }
  have enough : ids.length + (net.pending []).length ≤ net.startBound :=
    counted ▸ net.length_pending_le_startBound
  obtain ⟨plan, expanded, sound⟩ := run_expandAll consistent net.startBound enough start
  refine ⟨plan, sound, ?_⟩
  have visited : net.ids.filter (· ∉ plan.visited) = net.ids.filter (· ∉ plan.order) :=
    filter_congr fun id _ => by simp [sound.same]
  rw [← visited]
  simp only [schedule, asked, bind, Except.bind, expanded]
  rfl

/--
Every network has a schedule.

It holds the processes that lead to an output, once each, and every other one gets a warning.
A loop without delays among them is reported, and its presence is what the check of the schedule
fails at.
-/
theorem exists_schedule (consistent : net.Consistent) :
    ∃ schedule findings, net.schedule = .ok (schedule, findings) ∧ schedule.order.Nodup ∧
      (∀ id, id ∈ schedule.order ↔ net.ReachesOutput id) ∧
      (∀ id, findings.countP
        (fun finding => finding.code = some .unscheduled ∧ finding.subject = some id) =
        if net.contains id ∧ id ∉ schedule.order then 1 else 0) ∧
      ((∃ finding ∈ findings, finding.code = some .undelayedLoop) ↔
        ∃ loop, net.IsLoop loop ∧ ∀ id ∈ loop, ¬ net.isDelay id ∧ id ∈ schedule.order) ∧
      (schedule.verify net).uniqueExisting ∧
      ((schedule.verify net).dependenciesOrdered ↔
        ¬ ∃ finding ∈ findings, finding.code = some .undelayedLoop) := by
  obtain ⟨plan, sound, found⟩ := exists_plan consistent
  -- The warnings are about something else, so a loop is reported exactly if the plan has findings.
  have reported : (∃ finding ∈ plan.findings ++ (net.ids.filter (· ∉ plan.order)).map unscheduled,
      finding.code = some .undelayedLoop) ↔ plan.findings ≠ [] := by
    constructor
    · rintro ⟨finding, listed, code⟩ clean
      rw [clean, nil_append, mem_map] at listed
      obtain ⟨id, -, rfl⟩ := listed
      simp [unscheduled] at code
    · intro unclean
      obtain ⟨finding, listed⟩ := exists_mem_of_ne_nil _ unclean
      exact ⟨finding, mem_append_left _ listed, sound.codes finding listed⟩
  refine ⟨⟨plan.order⟩, _, found, sound.once, sound.mem_order_iff, fun id => ?_, ?_, ?_, ?_⟩
  · rw [countP_append, countP_unscheduled, countP_eq_zero.mpr, Nat.zero_add]
    intro finding listed
    simp [sound.codes finding listed]
  · rw [reported, sound.findings_ne_nil_iff consistent]
  · simpa [Schedule.verify, sound.once] using sound.exist consistent
  · rw [reported, not_not, sound.ordered_iff consistent]

/-- Two copiers that feed each other, one of which feeds an output through a delay, and a third one
apart. -/
def delayFreeLoop : Network :=
  Operation.build
    (Operation.addAll none [("a", .fanout, ["in"], ["out", "exit"]),
        ("b", .fanout, ["in"], ["out"]), ("d", .delay "0", ["in"], ["out"]),
        ("c", .fanout, [], [])] ++
      [.connect 1 3, .connect 4 0, .connect 2 5, .addOutput 6])

/-- The loop is scheduled and reported, and the copier apart gets a warning. -/
theorem exists_schedule_delayFreeLoop :
    delayFreeLoop.Consistent ∧
    delayFreeLoop.schedule.toOption.map (fun found => (found.1.order, found.2.map (·.subject))) =
      some (["b", "a", "d"], [some "a", some "c"]) ∧
    ∃ schedule findings, delayFreeLoop.schedule = .ok (schedule, findings) ∧
      (∀ id, id ∈ schedule.order ↔ delayFreeLoop.ReachesOutput id) := by
  have consistent : delayFreeLoop.Consistent :=
    (Reachable.empty.foldl (by simp [Operation.Allowed])).inv
  obtain ⟨schedule, findings, found, -, ordered, -⟩ := exists_schedule consistent
  exact ⟨consistent, by decide +kernel, schedule, findings, found, ordered⟩

end Network

end Dataflow
