import Mathlib.Data.List.Flatten
import Dataflow.Proofs.Schedule.Expand

/-! Plans: what holds of the order between two starts, and why there are enough starts. -/

open List

namespace Dataflow

open Relation

namespace Network

variable {net : Network} {id src : ProcessId}

/-- Some chain of connections leads from the process to an output of the graph, through delays or
not. -/
def ReachesOutput (net : Network) (id : ProcessId) : Prop :=
  ∃ target, net.Emits target ∧ ReflTransGen net.Feeds id target

namespace Consistent

theorem exists_of_reachesOutput (inv : net.Consistent) (reaches : net.ReachesOutput id) :
    ∃ proc, net.process? id = some proc := by
  obtain ⟨dst, ⟨key, -, port, has, owned⟩, leads⟩ := reaches
  rcases leads.cases_head with rfl | ⟨next, feeds, -⟩
  · obtain ⟨proc, got, -⟩ := inv.owned has
    exact ⟨proc, owned ▸ got⟩
  · exact inv.exists_source feeds

theorem contains_of_reachesOutput (inv : net.Consistent) (reaches : net.ReachesOutput id) :
    net.contains id := by
  rw [contains_eq, Option.isSome_iff_exists]
  exact inv.exists_of_reachesOutput reaches

end Consistent

theorem ReachesOutput.head (reaches : net.ReachesOutput id) (feeds : net.Feeds src id) :
    net.ReachesOutput src := by
  obtain ⟨dst, emits, leads⟩ := reaches
  exact ⟨dst, emits, leads.head feeds⟩

theorem ReachesOutput.trans (reaches : net.ReachesOutput id)
    (leads : ReflTransGen net.Feeds src id) : net.ReachesOutput src := by
  obtain ⟨dst, emits, onwards⟩ := reaches
  exact ⟨dst, emits, leads.trans onwards⟩

/-- What would become a start if all processes that are not visited were delays. -/
def pending (net : Network) (visited : List ProcessId) : List ProcessId :=
  (net.ids.filter (· ∉ visited)).flatMap (net.across · .input)

theorem length_pending_append {visited order : List ProcessId} (once : order.Nodup)
    (fresh : ∀ id ∈ order, id ∉ visited) (exist : ∀ id ∈ order, net.contains id) :
    (net.pending visited).length = (order.flatMap (net.across · .input)).length +
      (net.pending (visited ++ order)).length := by
  have parts : (net.ids.filter (· ∉ visited)).Perm
      (order ++ net.ids.filter (· ∉ visited ++ order)) := by
    refine (perm_ext_iff_of_nodup (net.nodup_ids.filter _) ?_).mpr fun id => ?_
    · refine nodup_append.mpr ⟨once, net.nodup_ids.filter _, fun id mem other left same => ?_⟩
      simp [← same, mem] at left
    · have known : id ∈ order → id ∈ net.ids := fun mem => by
        have contained := exist id mem
        rw [contains_eq] at contained
        exact mem_ids.mpr (Option.isSome_iff_exists.mp contained)
      simp only [mem_filter, mem_append, decide_eq_true_eq]
      tauto
  unfold pending
  rw [(parts.flatMap_right _).length_eq, flatMap_append, length_append]

theorem length_pending_le_startBound (net : Network) :
    net.outputs.length + (net.pending []).length ≤ net.startBound := by
  have step (entries : List (ProcessId × Process)) (bound : Nat)
      (got : ∀ entry ∈ entries, net.process? entry.1 = some entry.2) :
      bound + ((entries.map (·.1)).flatMap (net.across · .input)).length ≤
        entries.foldl (fun bound entry => bound + entry.2.inPorts.length) bound := by
    induction entries generalizing bound with
    | nil => simp
    | cons entry entries ih =>
      obtain ⟨id, proc⟩ := entry
      have rest :=
        ih (bound + proc.inPorts.length) fun other mem => got other (mem_cons_of_mem _ mem)
      have here : (net.across id .input).length ≤ proc.inPorts.length := by
        rw [across, got (id, proc) mem_cons_self]
        exact length_filterMap_le _ _
      simp only [foldl_cons, map_cons, flatMap_cons, length_append] at rest ⊢
      omega
  have all := step net.processes.toList net.outputs.length fun entry mem => mem_toList.mp mem
  simpa [pending, startBound, ids] using all

end Network

namespace Plan

variable {net : Network} {plan : Plan} {frag : Fragment} {after : Expansion}
  {queue : List ProcessId}
  {start id : ProcessId}

/-- What holds of a plan while the processes of `queue` are still to be expanded. -/
structure Sound (net : Network) (plan : Plan) (queue : List ProcessId) : Prop where
  once : plan.order.Nodup
  same : ∀ id, id ∈ plan.visited ↔ id ∈ plan.order
  leads : ∀ id, id ∈ plan.order ∨ id ∈ queue → net.ReachesOutput id
  starts : ∀ id, net.Emits id → id ∈ plan.order ∨ id ∈ queue
  delayed : ∀ id ∈ plan.order, net.isDelay id →
    ∀ source, net.Feeds source id → source ∈ plan.order ∨ source ∈ queue
  covered : ∀ id ∈ plan.order, ¬ net.isDelay id →
    ∀ source, net.Feeds source id →
      [source, id].Sublist plan.order ∨ plan.findings ≠ [] ∧ source ∈ plan.order
  reports : plan.findings = [] → plan.reported = []
  codes : ∀ finding ∈ plan.findings, finding.code = some .undelayedLoop
  loops : plan.findings = [] ∨
    ∃ loop, net.IsLoop loop ∧ ∀ id ∈ loop, ¬ net.isDelay id ∧ id ∈ plan.order

/-- The plan behind the expansion of one start. -/
def advance (plan : Plan) (fragment : Fragment) (after : Expansion) : Plan :=
  { plan with
    visited := plan.visited ++ after.placed
    reported := after.reported
    findings := after.findings }.insert fragment

theorem order_advance_perm (plan : Plan) (frag : Fragment) (after : Expansion) :
    (plan.advance frag after).order.Perm (frag.order ++ plan.order) := by
  have parts := take_append_drop (plan.cut frag.anchor) plan.order
  calc (plan.advance frag after).order
      _ = plan.order.take (plan.cut frag.anchor) ++ frag.order ++
          plan.order.drop (plan.cut frag.anchor) := rfl
      _ |>.Perm (frag.order ++ plan.order.take (plan.cut frag.anchor) ++
          plan.order.drop (plan.cut frag.anchor)) := perm_append_comm.append_right _
      _ |>.Perm (frag.order ++ plan.order) := by rw [append_assoc, parts]

theorem mem_order_advance :
    id ∈ (plan.advance frag after).order ↔ id ∈ frag.order ∨ id ∈ plan.order := by
  rw [(order_advance_perm plan frag after).mem_iff, mem_append]

theorem order_sublist_advance (plan : Plan) (frag : Fragment) (after : Expansion) :
    plan.order.Sublist (plan.advance frag after).order := by
  have around :=
    (sublist_append_left (plan.order.take (plan.cut frag.anchor)) frag.order).append_right
      (plan.order.drop (plan.cut frag.anchor))
  rwa [take_append_drop] at around

theorem take_append_sublist_advance (plan : Plan) (frag : Fragment) (after : Expansion) :
    (plan.order.take (plan.cut frag.anchor) ++ frag.order).Sublist
      (plan.advance frag after).order :=
  sublist_append_left _ _

theorem Sound.advance (consistent : net.Consistent) (inv : Sound net plan (start :: queue))
    (grown : Expand.Grown net plan [] start { reported := plan.reported, findings := plan.findings }
      frag after) (settled : Expand.Settled plan [] frag after start) :
    Sound net (plan.advance frag after) (queue ++ after.feeders) := by
  have placed : after.placed = frag.order := grown.placed
  have feeders : after.feeders = (frag.order.filter net.isDelay).flatMap (net.across · .input) :=
    grown.feeders
  have unordered (id : ProcessId) (mem : id ∈ frag.order) : id ∉ plan.order := fun known =>
    (grown.fresh id mem).2.2 ((inv.same id).mpr known)
  -- The start itself is ordered now, so dropping it from the queue loses nothing.
  have started : start ∈ (plan.advance frag after).order := by
    rcases settled with behind | isPlaced | ⟨-, impossible⟩
    · exact mem_order_advance.mpr (.inr (mem_of_mem_take behind))
    · exact mem_order_advance.mpr (.inl (placed ▸ isPlaced))
    · simp at impossible
  have kept (id : ProcessId) (mem : id ∈ plan.order ∨ id ∈ start :: queue) :
      id ∈ (plan.advance frag after).order ∨ id ∈ queue ++ after.feeders := by
    rcases mem with mem | mem
    · exact .inl (mem_order_advance.mpr (.inr mem))
    · grind
  have reaches (id : ProcessId) (mem : id ∈ (plan.advance frag after).order) :
      net.ReachesOutput id := by
    rcases mem_order_advance.mp mem with mem | mem
    · exact (inv.leads start (.inr mem_cons_self)).trans (grown.leads id mem)
    · exact inv.leads id (.inl mem)
  constructor
  case once =>
    refine (order_advance_perm plan frag after).nodup_iff.mpr
      (nodup_append.mpr ⟨grown.once, inv.once, ?_⟩)
    intro id mem other known same
    exact unordered id mem (same ▸ known)
  case same =>
    intro id
    have visited : (plan.advance frag after).visited = plan.visited ++ frag.order := by
      rw [← placed]
      rfl
    rw [visited, mem_order_advance, mem_append, inv.same, or_comm]
  case leads =>
    rintro id (mem | mem)
    · exact reaches id mem
    rcases mem_append.mp mem with mem | mem
    · exact inv.leads id (.inr (mem_cons_of_mem _ mem))
    · rw [feeders, mem_flatMap] at mem
      obtain ⟨delay, isDelay, across⟩ := mem
      have new : delay ∈ (plan.advance frag after).order :=
        mem_order_advance.mpr (.inl (mem_of_mem_filter isDelay))
      exact (reaches delay new).head (consistent.mem_across_input.mp across)
  case starts => exact fun id emits => kept id (inv.starts id emits)
  case delayed =>
    intro id mem isDelay src feeds
    rcases mem_order_advance.mp mem with mem | mem
    · refine .inr (mem_append_right _ ?_)
      rw [feeders, mem_flatMap]
      exact ⟨id, mem_filter.mpr ⟨mem, isDelay⟩, consistent.mem_across_input.mpr feeds⟩
    · exact kept src (inv.delayed id mem isDelay src feeds)
  case covered =>
    intro id mem instant src feeds
    have behind := take_append_sublist_advance plan frag after
    rcases mem_order_advance.mp mem with mem | mem
    · rcases grown.covered id mem instant src feeds with anchored | sublist | ⟨has, somewhere⟩
      · refine .inl (List.Sublist.trans ?_ behind)
        exact (singleton_sublist.mpr anchored).append (singleton_sublist.mpr mem)
      · exact .inl ((placed ▸ sublist).trans ((sublist_append_right _ _).trans behind))
      · refine .inr ⟨has, mem_order_advance.mpr (.inl ?_)⟩
        simpa [placed] using somewhere
    · rcases inv.covered id mem instant src feeds with sublist | ⟨has, known⟩
      · exact .inl (sublist.trans (order_sublist_advance plan frag after))
      · exact .inr ⟨grown.findings_ne_nil has, mem_order_advance.mpr (.inr known)⟩
  case reports => exact grown.reports inv.reports
  case codes =>
    obtain ⟨more, added, loops⟩ := grown.findings
    intro finding mem
    have split : finding ∈ plan.findings ++ more := added ▸ mem
    exact (mem_append.mp split).elim (inv.codes finding) (loops finding)
  case loops =>
    rcases grown.loops with same | ⟨loop, isLoop, somewhere⟩
    · rcases inv.loops with none | ⟨loop, isLoop, known⟩
      · exact .inl (same.trans none)
      · exact .inr ⟨loop, isLoop, fun id mem =>
          ⟨(known id mem).1, mem_order_advance.mpr (.inr (known id mem).2)⟩⟩
    · refine .inr
        ⟨loop, isLoop, fun id mem => ⟨(somewhere id mem).1, mem_order_advance.mpr (.inl ?_)⟩⟩
      simpa [placed] using (somewhere id mem).2

end Plan

namespace Network

variable {net : Network} {plan : Plan} {queue : List ProcessId}

theorem run_expandAll (consistent : net.Consistent) (fuel : Nat)
    (enough : queue.length + (net.pending plan.visited).length ≤ fuel)
    (inv : plan.Sound net queue) :
    ∃ last, net.expandAll fuel plan queue = .ok last ∧ last.Sound net [] := by
  induction fuel generalizing plan queue with
  | zero =>
    have none : queue = [] := length_eq_zero_iff.mp (by omega)
    subst none
    exact ⟨plan, rfl, inv⟩
  | succ fuel ih =>
    cases queue with
    | nil => exact ⟨plan, rfl, inv⟩
    | cons start queue =>
      let initial : Expansion := { reported := plan.reported, findings := plan.findings }
      have known := consistent.contains_of_reachesOutput (inv.leads start (.inr mem_cons_self))
      have bottom : Expand.Stacked net [] := ⟨isChain_nil, by simp, by simp, nodup_nil⟩
      have deep : net.size < ([] : List ProcessId).length + net.searchDepth := by simp [searchDepth]
      have unplaced : start ∉ initial.placed := by simp [initial]
      obtain ⟨frag, after, ran, grown, settled⟩ :=
        Expand.run_expand consistent inv.same net.searchDepth
          bottom deep (by simp) known unplaced (inv.reports : Expand.Reports initial)
      -- Every new start comes with a process that is visited now and never again.
      have placed : after.placed = frag.order := grown.placed
      have feeders : after.feeders = (frag.order.filter net.isDelay).flatMap
        (net.across · .input) := grown.feeders
      have fewer : after.feeders.length ≤ (frag.order.flatMap (net.across · .input)).length := by
        rw [feeders]
        exact (filter_sublist.flatMap _).length_le
      have shrinks :=
        length_pending_append grown.once (fun id mem => (grown.fresh id mem).2.2) grown.exist
      have room : (queue ++ after.feeders).length +
          (net.pending (plan.advance frag after).visited).length ≤ fuel := by
        have visited : (plan.advance frag after).visited = plan.visited ++ frag.order := by
          rw [← placed]
          rfl
        rw [visited, length_append]
        rw [length_cons] at enough
        omega
      obtain ⟨last, finished, invLast⟩ := ih room (inv.advance consistent grown settled)
      refine ⟨last, ?_, invLast⟩
      rw [expandAll, ran]
      exact finished

end Network

end Dataflow
