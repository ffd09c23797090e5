import Dataflow.Proofs.Network.Flow
import Dataflow.Schedule.Search

/-! Fragments: what the expansion of one process places, finds and leaves to do. -/

open List Option

namespace Dataflow

open Relation

namespace Plan

variable {plan : Plan} {id : ProcessId} {first second : Option ProcessId}

theorem mem_take_cut (known : id ∈ plan.order) : id ∈ plan.order.take (plan.cut (some id)) := by
  obtain ⟨idx, pos⟩ := isSome_iff_exists.mp (isSome_idxOf?.mpr known)
  obtain ⟨within, here, -⟩ := idxOf?_eq_some_iff.mp pos
  simp only [cut, bind_some, pos]
  exact mem_take_iff_getElem.mpr ⟨idx, by omega, here⟩

theorem cut_laterAnchor (knownFirst : ∀ anchor ∈ first, anchor ∈ plan.order)
    (knownSecond : ∀ anchor ∈ second, anchor ∈ plan.order) :
    plan.cut (plan.laterAnchor first second) = max (plan.cut first) (plan.cut second) := by
  cases first with
  | none => simp [laterAnchor, cut]
  | some first =>
    cases second with
    | none => simp [laterAnchor, cut]
    | some second =>
      obtain ⟨pos, has⟩ := isSome_iff_exists.mp (isSome_idxOf?.mpr (knownFirst first rfl))
      obtain ⟨other, hasOther⟩ := isSome_iff_exists.mp (isSome_idxOf?.mpr (knownSecond second rfl))
      simp only [laterAnchor, has, hasOther]
      split
      · simp only [cut, bind_some, has, hasOther]
        omega
      · simp only [cut, bind_some, has, hasOther]
        omega

theorem laterAnchor_mem (mem : id ∈ plan.laterAnchor first second) : id ∈ first ∨ id ∈ second := by
  cases first with
  | none => exact .inr (by simpa [laterAnchor] using mem)
  | some first =>
    cases second with
    | none => exact .inl (by simpa [laterAnchor] using mem)
    | some second =>
      simp only [laterAnchor] at mem
      split at mem
      · grind
      · exact .inr mem
      · exact .inl mem

end Plan

namespace Expand

variable {net : Network} {plan : Plan} {stack : List ProcessId} {root id src : ProcessId}
  {frag part : Fragment} {pre current after : Expansion}

/-- Findings exist as soon as a loop was reported anywhere. -/
def Reports (expansion : Expansion) : Prop :=
  expansion.findings = [] → expansion.reported = []

/-- A process needs no further expansion: it is behind the anchor, or placed, or being expanded in a
reported loop. -/
def Settled (plan : Plan) (stack : List ProcessId) (fragment : Fragment) (expansion : Expansion)
    (id : ProcessId) : Prop :=
  id ∈ plan.order.take (plan.cut fragment.anchor) ∨ id ∈ expansion.placed ∨
  expansion.findings ≠ [] ∧ id ∈ stack

/-- What the expansion of processes on the way to `root` adds, where `stack` holds the processes
being expanded. -/
structure Grown (net : Network) (plan : Plan) (stack : List ProcessId) (root : ProcessId)
    (before : Expansion) (fragment : Fragment) (after : Expansion) : Prop where
  placed : after.placed = before.placed ++ fragment.order
  feeders : after.feeders =
    before.feeders ++ (fragment.order.filter net.isDelay).flatMap (net.across · .input)
  once : fragment.order.Nodup
  fresh : ∀ id ∈ fragment.order, id ∉ before.placed ∧ id ∉ stack ∧ id ∉ plan.visited
  leads : ∀ id ∈ fragment.order, ReflTransGen net.Feeds id root
  exist : ∀ id ∈ fragment.order, net.contains id
  anchored : ∀ anchor ∈ fragment.anchor, anchor ∈ plan.order
  covered : ∀ id ∈ fragment.order, ¬ net.isDelay id →
    ∀ source, net.Feeds source id →
      source ∈ plan.order.take (plan.cut fragment.anchor) ∨ [source, id].Sublist after.placed ∨
      after.findings ≠ [] ∧ (source ∈ stack ∨ source ∈ after.placed)
  findings : ∃ more, after.findings = before.findings ++ more ∧
    ∀ finding ∈ more, finding.code = some .undelayedLoop
  reports : Reports before → Reports after
  loops : after.findings = before.findings ∨
    ∃ loop, net.IsLoop loop ∧ ∀ id ∈ loop, ¬ net.isDelay id ∧ (id ∈ stack ∨ id ∈ after.placed)

namespace Grown

/-- An empty fragment adds nothing, wherever it is to stand. -/
theorem empty {anchor : Option ProcessId} (known : ∀ id ∈ anchor, id ∈ plan.order) :
    Grown net plan stack root pre { anchor } pre where
  placed := (append_nil _).symm
  feeders := (append_nil _).symm
  once := nodup_nil
  fresh := by simp
  leads := by simp
  exist := by simp
  anchored := known
  covered := by simp
  findings := ⟨[], by simp⟩
  reports held := held
  loops := .inl rfl

theorem onwards (grown : Grown net plan stack src pre frag after) (feeds : net.Feeds src root) :
    Grown net plan stack root pre frag after :=
  { grown with leads := fun id mem => (grown.leads id mem).tail feeds }

theorem findings_ne_nil (grown : Grown net plan stack root pre frag after)
    (has : pre.findings ≠ []) : after.findings ≠ [] := by
  obtain ⟨more, added, -⟩ := grown.findings
  rw [added]
  exact append_ne_nil_of_left_ne_nil has more

theorem mem_placed (grown : Grown net plan stack root pre frag after) (placed : id ∈ pre.placed) :
    id ∈ after.placed := by
  rw [grown.placed]
  exact mem_append_left _ placed

section

variable (first : Grown net plan stack root pre frag current)
  (second : Grown net plan stack root current part after)

include first second

theorem take_join_left (settled : id ∈ plan.order.take (plan.cut frag.anchor)) :
    id ∈ plan.order.take (plan.cut (plan.join frag part).anchor) := by
  have new := Plan.cut_laterAnchor first.anchored second.anchored
  exact take_subset_take_left _ (by simp only [Plan.join]; omega) settled

theorem take_join_right (settled : id ∈ plan.order.take (plan.cut part.anchor)) :
    id ∈ plan.order.take (plan.cut (plan.join frag part).anchor) := by
  have new := Plan.cut_laterAnchor first.anchored second.anchored
  exact take_subset_take_left _ (by simp only [Plan.join]; omega) settled

/-- Two expansions in a row add both of their fragments. -/
theorem join : Grown net plan stack root pre (plan.join frag part) after where
  placed := by rw [second.placed, first.placed, Plan.join, append_assoc]
  feeders := by
    rw [second.feeders, first.feeders, Plan.join, filter_append, flatMap_append, append_assoc]
  once := by
    -- The second fragment avoids everything that was placed before it.
    refine nodup_append.mpr ⟨first.once, second.once, fun id mem other memOther same => ?_⟩
    refine (second.fresh other memOther).1 ?_
    rw [first.placed, ← same]
    exact mem_append_right _ mem
  fresh id mem := by
    rcases mem_append.mp mem with mem | mem
    · exact first.fresh id mem
    · obtain ⟨notPlaced, others⟩ := second.fresh id mem
      exact ⟨fun placed => notPlaced (first.mem_placed placed), others⟩
  leads id mem := (mem_append.mp mem).elim (first.leads id) (second.leads id)
  exist id mem := (mem_append.mp mem).elim (first.exist id) (second.exist id)
  anchored anchor mem :=
    (Plan.laterAnchor_mem mem).elim (first.anchored anchor) (second.anchored anchor)
  covered id mem instant src feeds := by
    rcases mem_append.mp mem with mem | mem
    · rcases first.covered id mem instant src feeds with behind | sublist | ⟨has, settled⟩
      · exact .inl (first.take_join_left second behind)
      · exact .inr (.inl (second.placed ▸ sublist_append_of_sublist_left sublist))
      · exact .inr (.inr ⟨second.findings_ne_nil has, settled.imp_right second.mem_placed⟩)
    · exact (second.covered id mem instant src feeds).imp_left (first.take_join_right second)
  findings := by
    obtain ⟨more, added, loops⟩ := first.findings
    obtain ⟨others, addedOthers, loopsOthers⟩ := second.findings
    refine ⟨more ++ others, by rw [addedOthers, added, append_assoc], fun finding mem => ?_⟩
    exact (mem_append.mp mem).elim (loops finding) (loopsOthers finding)
  reports held := second.reports (first.reports held)
  loops := by
    rcases second.loops with same | has
    · rcases first.loops with samePre | ⟨loop, isLoop, settled⟩
      · exact .inl (same.trans samePre)
      · refine .inr ⟨loop, isLoop, fun id mem => ?_⟩
        exact ⟨(settled id mem).1, (settled id mem).2.imp_right second.mem_placed⟩
    · exact .inr has

end

/-- A process that is no delay ends the fragment of all that feeds it. -/
theorem place (grown : Grown net plan (stack ++ [id]) id pre frag after)
    (unplaced : id ∉ pre.placed) (unstacked : id ∉ stack) (unvisited : id ∉ plan.visited)
    (exist : net.contains id) (instant : ¬ net.isDelay id)
    (settled : ∀ src, net.Feeds src id → Settled plan (stack ++ [id]) frag after src) :
    Grown net plan stack id pre { frag with order := frag.order ++ [id] }
      { after with placed := after.placed ++ [id] } where
  placed := by rw [grown.placed, append_assoc]
  feeders := by
    rw [grown.feeders]
    simp [instant]
  once := by
    -- The process is on the stack while its fragment grows, so it is not in it yet.
    exact Graph.nodup_concat.mpr ⟨grown.once, fun mem => (grown.fresh id mem).2.1 (by simp)⟩
  fresh other mem := by
    rcases mem_append.mp mem with mem | mem
    · obtain ⟨notPlaced, notStacked, notVisited⟩ := grown.fresh other mem
      exact ⟨notPlaced, fun stacked => notStacked (mem_append_left _ stacked), notVisited⟩
    · grind
  leads other mem := by
    rcases mem_append.mp mem with mem | mem
    · exact grown.leads other mem
    · grind
  exist other mem := by
    rcases mem_append.mp mem with mem | mem
    · exact grown.exist other mem
    · grind
  anchored := grown.anchored
  covered other mem otherInstant src feeds := by
    rcases mem_append.mp mem with mem | mem
    · rcases grown.covered other mem otherInstant src feeds with behind | sublist | ⟨has, somewhere⟩
      · exact .inl behind
      · grind
      · grind
    · rw [mem_singleton] at mem
      subst mem
      rcases settled src feeds with behind | placed | ⟨has, stacked⟩
      · exact .inl behind
      · grind
      · grind
  findings := grown.findings
  reports := grown.reports
  loops := by
    refine grown.loops.imp_right fun ⟨loop, isLoop, somewhere⟩ =>
      ⟨loop, isLoop, fun other mem => ?_⟩
    refine ⟨(somewhere other mem).1, ?_⟩
    have settled := (somewhere other mem).2
    simp only [mem_append] at settled ⊢
    tauto

/-- A delay is a fragment of its own, whatever feeds it. -/
theorem delay (unplaced : id ∉ pre.placed) (unstacked : id ∉ stack) (unvisited : id ∉ plan.visited)
    (exist : net.contains id) (delays : net.isDelay id) :
    Grown net plan stack id pre { order := [id] }
      { pre with placed := pre.placed ++ [id], feeders := pre.feeders ++ net.across id .input }
        where
  placed := rfl
  feeders := by simp [delays]
  once := pairwise_singleton _ id
  fresh other mem := by grind
  leads other mem := by
    rw [mem_singleton] at mem
    exact mem ▸ .refl
  exist other mem := by
    rw [mem_singleton] at mem
    exact mem ▸ exist
  anchored := by simp
  covered other mem instant := by grind
  findings := ⟨[], by simp⟩
  reports held := held
  loops := .inl rfl

/-- A loop of processes that are being expanded adds a finding and places nothing. -/
theorem report {loop : List ProcessId} {finding : Diagnostic} (isLoop : net.IsLoop loop)
    (expanding : ∀ other ∈ loop, ¬ net.isDelay other ∧ other ∈ stack)
    (code : finding.code = some .undelayedLoop) :
    Grown net plan stack root pre {}
      { pre with reported := pre.reported ++ [id], findings := pre.findings ++ [finding] } where
  placed := (append_nil _).symm
  feeders := (append_nil _).symm
  once := nodup_nil
  fresh := by simp
  leads := by simp
  exist := by simp
  anchored := by simp
  covered := by simp
  findings := ⟨[finding], rfl, by simp [code]⟩
  reports _ none := by simp at none
  loops :=
    .inr ⟨loop, isLoop, fun other mem => ⟨(expanding other mem).1, .inl (expanding other mem).2⟩⟩

end Grown

/-- What was settled before an expansion is settled behind it. -/
theorem Settled.join (settled : Settled plan stack frag current id)
    (first : Grown net plan stack root pre frag current)
    (second : Grown net plan stack root current part after) :
    Settled plan stack (plan.join frag part) after id := by
  rcases settled with behind | placed | ⟨has, expanding⟩
  · exact .inl (first.take_join_left second behind)
  · exact .inr (.inl (second.mem_placed placed))
  · exact .inr (.inr ⟨second.findings_ne_nil has, expanding⟩)

/-- The processes being expanded, each of which feeds the one before it, and none of which is a
delay. -/
structure Stacked (net : Network) (stack : List ProcessId) : Prop where
  chain : stack.IsChain fun target source => net.Feeds source target
  instant : ∀ id ∈ stack, ¬ net.isDelay id
  exist : ∀ id ∈ stack, net.contains id
  once : stack.Nodup

section

variable (stacked : Stacked net stack) (expanding : id ∈ stack)
  (feeds : ∀ last ∈ stack.getLast?, net.Feeds id last)

include stacked expanding feeds

theorem Stacked.isLoop : ∃ loop, net.IsLoop loop ∧ loop ⊆ stack := by
  obtain ⟨earlier, new, rfl⟩ := append_of_mem expanding
  have closed : (id :: new ++ [id]).IsChain fun dst src => net.Feeds src dst := by
    refine Graph.isChain_concat.mpr
      ⟨stacked.chain.suffix (suffix_append _ _), fun last isLast => feeds last ?_⟩
    rwa [getLast?_append_of_ne_nil _ (cons_ne_nil _ _)]
  refine ⟨id :: new.reverse, ⟨id, new.reverse, rfl, ?_⟩, fun other mem => ?_⟩
  · rw [← isChain_reverse] at closed
    simpa using closed
  · grind

theorem run_reportLoop (reports : Reports pre) :
    ∃ after, (reportLoop stack id).run pre = .ok ((), after) ∧
      Grown net plan stack root pre {} after ∧ Settled plan stack {} after id := by
  by_cases known : id ∈ pre.reported
  · have has : pre.findings ≠ [] := fun none => by simp [reports none] at known
    refine ⟨pre, ?_, .empty (by simp), .inr (.inr ⟨has, expanding⟩)⟩
    simp only [reportLoop, StateT.run_bind, StateT.run_get, pure_bind, if_pos known]
    rfl
  · obtain ⟨loop, isLoop, inside⟩ := stacked.isLoop expanding feeds
    have expandingAll : ∀ other ∈ loop, ¬ net.isDelay other ∧ other ∈ stack :=
      fun other mem => ⟨stacked.instant other (inside mem), inside mem⟩
    have grown : Grown net plan stack root pre {} { pre with
        reported := pre.reported ++ [id], findings := pre.findings ++ [loopFinding stack id] } :=
      .report isLoop expandingAll rfl
    refine ⟨_, ?_, grown, .inr (.inr ⟨by simp, expanding⟩)⟩
    simp only [reportLoop, StateT.run_bind, StateT.run_get, pure_bind, if_neg known]
    rfl

end

end Expand

end Dataflow
