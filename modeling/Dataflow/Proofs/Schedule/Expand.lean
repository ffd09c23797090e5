import Mathlib.Data.List.Perm.Subperm
import Dataflow.Proofs.Schedule.Fragment

/-! The expansion of a process always ends with a fragment, however the connections run. -/

open List

namespace Dataflow

namespace Network

theorem length_le_size {net : Network} {ids : List ProcessId} (once : ids.Nodup)
    (exist : ∀ id ∈ ids, net.contains id) : ids.length ≤ net.size := by
  have inside : ids ⊆ net.ids := fun id mem => by
    have known := exist id mem
    rw [contains_eq] at known
    exact mem_ids.mpr (Option.isSome_iff_exists.mp known)
  rw [← length_ids]
  exact (subperm_of_subset once inside).length_le

end Network

namespace Expand

variable {net : Network} {plan : Plan} {stack : List ProcessId} {root id : ProcessId}
  {visit : ProcessId → Expand Fragment} {frag : Fragment} {pre current : Expansion}

theorem Stacked.push (stacked : Stacked net stack)
    (feeds : ∀ last ∈ stack.getLast?, net.Feeds id last) (exist : net.contains id)
    (instant : ¬ net.isDelay id) (unstacked : id ∉ stack) : Stacked net (stack ++ [id]) where
  chain := Graph.isChain_concat.mpr ⟨stacked.chain, feeds⟩
  instant other mem := by
    rcases mem_append.mp mem with mem | mem
    · exact stacked.instant other mem
    · rwa [mem_singleton.mp mem]
  exist other mem := by
    rcases mem_append.mp mem with mem | mem
    · exact stacked.exist other mem
    · rwa [mem_singleton.mp mem]
  once := Graph.nodup_concat.mpr ⟨stacked.once, unstacked⟩

/-- Visiting anything that feeds `root` and is not placed yet gives a fragment that settles it. -/
def Visits (net : Network) (plan : Plan) (stack : List ProcessId) (root : ProcessId)
    (visit : ProcessId → Expand Fragment) : Prop :=
  ∀ ⦃source : ProcessId⦄ ⦃before : Expansion⦄, net.Feeds source root → source ∉ before.placed →
    Reports before →
    ∃ part after, (visit source).run before = .ok (part, after) ∧
      Grown net plan stack root before part after ∧ Settled plan stack part after source

theorem run_follow (visits : Visits net plan stack root visit) {key : PortKey}
    (ans : net.peerOwner key = .ok (net.remote key))
    (feeds : ∀ src, net.remote key = some src → net.Feeds src root)
    (grown : Grown net plan stack root pre frag current) (reports : Reports pre) :
    ∃ next after, (follow net plan visit frag key).run current = .ok (next, after) ∧
      Grown net plan stack root pre next after ∧
      (∀ src, net.remote key = some src → Settled plan stack next after src) ∧
      ∀ other, Settled plan stack frag current other → Settled plan stack next after other := by
  cases remote : net.remote key with
  | none =>
    refine ⟨frag, current, ?_, grown, by simp, fun _ settled => settled⟩
    rw [follow, ans, remote]
    rfl
  | some src =>
    have asked : (follow net plan visit frag key).run current =
        (if src ∈ current.placed then (pure frag : Expand Fragment)
          else visit src >>= fun part => pure (plan.join frag part)).run current := by
      rw [follow, ans, remote]
      rfl
    by_cases placed : src ∈ current.placed
    · -- What is placed already needs no second visit.
      rw [if_pos placed] at asked
      refine ⟨frag, current, asked, grown, fun other same => ?_, fun _ settled => settled⟩
      cases same
      exact .inr (.inl placed)
    · obtain ⟨part, after, ran, added, settled⟩ :=
        visits (feeds src remote) placed (grown.reports reports)
      rw [if_neg placed, StateT.run_bind, ran] at asked
      refine ⟨plan.join frag part, after, asked, grown.join added, fun other same => ?_,
        fun other settled => ?_⟩
      · cases same
        exact settled.imp_left (grown.take_join_right added)
      · exact settled.join grown added

theorem run_followAll (visits : Visits net plan stack root visit) (reports : Reports pre)
    {keys : List PortKey} (answers : ∀ key ∈ keys, net.peerOwner key = .ok (net.remote key))
    (feeds : ∀ key ∈ keys, ∀ src, net.remote key = some src → net.Feeds src root)
    (grown : Grown net plan stack root pre frag current) :
    ∃ next after, (keys.foldlM (follow net plan visit) frag).run current = .ok (next, after) ∧
      Grown net plan stack root pre next after ∧
      (∀ key ∈ keys, ∀ src, net.remote key = some src → Settled plan stack next after src) ∧
      ∀ other, Settled plan stack frag current other → Settled plan stack next after other := by
  induction keys generalizing frag current with
  | nil => exact ⟨frag, current, rfl, grown, by simp, fun _ settled => settled⟩
  | cons key keys ih =>
    obtain ⟨next, between, ran, grownNext, settlesKey, keeps⟩ := run_follow visits
      (answers key mem_cons_self) (feeds key mem_cons_self) grown reports
    obtain ⟨last, after, ranOn, grownLast, settlesKeys, keepsOn⟩ := ih
      (fun other mem => answers other (mem_cons_of_mem _ mem))
      (fun other mem => feeds other (mem_cons_of_mem _ mem)) grownNext
    refine ⟨last, after, ?_, grownLast, fun other mem src remote => ?_, fun other settled => ?_⟩
    · rw [foldlM_cons, StateT.run_bind, ran]
      exact ranOn
    · grind
    · exact keepsOn other (keeps other settled)

theorem run_expand (inv : net.Consistent) (same : ∀ id, id ∈ plan.visited ↔ id ∈ plan.order)
    (depth : Nat) (stacked : Stacked net stack) (deep : net.size < stack.length + depth)
    (feeds : ∀ last ∈ stack.getLast?, net.Feeds id last) (known : net.contains id)
    (unplaced : id ∉ pre.placed) (reports : Reports pre) :
    ∃ frag after, (expand net plan depth stack id).run pre = .ok (frag, after) ∧
      Grown net plan stack id pre frag after ∧ Settled plan stack frag after id := by
  induction depth generalizing stack id pre with
  | zero =>
    -- The stack has no room for as many processes as a search without depth would need.
    have short := Network.length_le_size stacked.once stacked.exist
    omega
  | succ depth ih =>
    obtain ⟨proc, got⟩ : ∃ proc, net.process? id = some proc := by
      rw [Network.contains_eq] at known
      exact Option.isSome_iff_exists.mp known
    by_cases visited : id ∈ plan.visited
    · refine ⟨{ anchor := some id }, pre, ?_, .empty ?_,
        .inl (Plan.mem_take_cut ((same id).mp visited))⟩
      · simp only [expand, if_pos visited]
        rfl
      · simpa using (same id).mp visited
    by_cases expanding : id ∈ stack
    · obtain ⟨after, ran, grown, settled⟩ := run_reportLoop stacked expanding feeds reports
      refine ⟨{}, after, ?_, grown, settled⟩
      simp only [expand, if_neg visited, if_pos expanding, StateT.run_bind, ran]
      rfl
    by_cases delays : net.isDelay id
    · have kind : proc.kind.isDelay = true := by simpa [Network.isDelay, got] using delays
      refine ⟨{ order := [id] }, _, ?_, .delay unplaced expanding visited known delays,
        .inr (.inl (by simp))⟩
      rw [expand, if_neg visited, if_neg expanding, Network.process_eq_ok.mpr got]
      change (if proc.kind.isDelay = true then _ else _ : Expand Fragment).run pre = _
      rw [if_pos kind, Network.predecessors, inv.neighbours_eq got]
      rfl
    · have kind : ¬ proc.kind.isDelay = true := by simpa [Network.isDelay, got] using delays
      have deeper : Stacked net (stack ++ [id]) := stacked.push feeds known delays expanding
      have visits : Visits net plan (stack ++ [id]) id (expand net plan depth (stack ++ [id])) := by
        intro src pre feedsId unplaced reports
        have feedsLast : ∀ last ∈ (stack ++ [id]).getLast?,
          net.Feeds src last := by simpa using feedsId
        have knownSrc : net.contains src := by
          rw [Network.contains_eq]
          exact Option.isSome_iff_exists.mpr (inv.exists_source feedsId)
        have room : net.size < (stack ++ [id]).length + depth := by
          rw [length_append, length_singleton]
          omega
        obtain ⟨part, after, ran, grown, settled⟩ :=
          ih deeper room feedsLast knownSrc unplaced reports
        exact ⟨part, after, ran, grown.onwards feedsId, settled⟩
      have live : ∀ key ∈ proc.inPorts, (net.port? key).isSome := fun key mem => by
        obtain ⟨port, has, -⟩ := @Network.Consistent.listed net inv id proc .input key got mem
        rw [has, Option.isSome_some]

      have nothing : Grown net plan (stack ++ [id]) id pre {} pre := .empty (by simp)
      obtain ⟨frag, after, ran, grown, settles, -⟩ := run_followAll visits reports
        (fun key mem => inv.peerOwner_eq (live key mem))
        (fun key mem src remote => (inv.feeds_iff_in got).mpr ⟨key, mem, remote⟩) nothing
      have settled : ∀ src, net.Feeds src id → Settled plan (stack ++ [id]) frag after src := by
        intro src feedsId
        obtain ⟨key, mem, remote⟩ := (inv.feeds_iff_in got).mp feedsId
        exact settles key mem src remote
      refine ⟨_, _, ?_, grown.place unplaced expanding visited known delays settled,
        .inr (.inl (by simp))⟩
      rw [expand, if_neg visited, if_neg expanding, Network.process_eq_ok.mpr got]
      change (if proc.kind.isDelay = true then _ else _ : Expand Fragment).run pre = _
      rw [if_neg kind, StateT.run_bind, ran]
      rfl

end Expand

end Dataflow
