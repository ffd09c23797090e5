import Dataflow.Proofs.Network.Flow
import Dataflow.Region.Section
import Mathlib.Data.List.Perm.Subperm

/-! Regions that nothing leaves before a target, and the search that decides whether a process lies
in one. -/

open List

namespace Dataflow.Network

variable {net : Network} {id dst : ProcessId} {dir : Direction} {visited result : List ProcessId}

/-- How many processes have not been visited. -/
def unvisited (net : Network) (visited : List ProcessId) : Nat :=
  net.ids.countP (· ∉ visited)

theorem unvisited_nil (net : Network) : net.unvisited [] = net.size := by
  simp [unvisited, length_ids]

theorem unvisited_le (grows : visited ⊆ result) : net.unvisited result ≤ net.unvisited visited := by
  refine countP_mono_left fun id _ unvisited => ?_
  simp only [decide_eq_true_eq] at unvisited ⊢
  exact fun known => unvisited (grows known)

theorem unvisited_cons_lt (mem : id ∈ net.ids) (fresh : id ∉ visited) :
    net.unvisited (id :: visited) < net.unvisited visited := by
  obtain ⟨front, back, split⟩ := append_of_mem mem
  have smaller (part : List ProcessId) : part.countP (· ∉ id :: visited) ≤ part.countP
      (· ∉ visited) :=
    countP_mono_left fun other _ unvisited => by simp_all
  have left := smaller front
  have right := smaller back
  simp only [unvisited, split, countP_append, countP_cons]
  simp only [mem_cons, true_or, not_true_eq_false, decide_false, fresh, not_false_eq_true,
    decide_true]
  simp only [mem_cons] at left right
  simp only [Bool.false_eq_true, if_false, if_true]
  omega

/-- From a process all ports in one direction lead on to processes of a set. -/
def LeadsInto (net : Network) (direction : Direction) (region : ProcessId → Prop) (id : ProcessId) :
    Prop :=
  ∃ process, net.process? id = some process ∧ process.ports direction ≠ [] ∧
    ∀ key ∈ process.ports direction, ∃ next, net.remote key = some next ∧ region next

/-- A set of processes that cannot be left in one direction before the target is met. -/
def Closed (net : Network) (direction : Direction) (target : ProcessId)
    (region : ProcessId → Prop) : Prop :=
  ∀ id, region id → id ≠ target → net.LeadsInto direction region id

/-- Every path from a process in one direction leads to the target, or stays in a loop. -/
def Confined (net : Network) (id target : ProcessId) (direction : Direction) : Prop :=
  ∃ region, net.Closed direction target region ∧ region id

theorem LeadsInto.mono {reg larger : ProcessId → Prop} (leads : net.LeadsInto dir reg id)
    (included : ∀ id, reg id → larger id) : net.LeadsInto dir larger id := by
  obtain ⟨proc, got, ports, onwards⟩ := leads
  refine ⟨proc, got, ports, fun key mem => ?_⟩
  obtain ⟨next, leads, inside⟩ := onwards key mem
  exact ⟨next, leads, included next inside⟩

/-- What a search for a way out has achieved: what it visited newly leads to the target or to
visited processes. -/
structure Fenced (net : Network) (target : ProcessId) (direction : Direction)
    (visited result : List ProcessId) : Prop where
  grows : visited ⊆ result
  inside : ∀ id ∈ result, id ∉ visited →
    net.LeadsInto direction (fun next => next = target ∨ next ∈ result) id

theorem Fenced.refl : net.Fenced dst dir visited visited :=
  ⟨List.Subset.refl _, fun _ mem fresh => absurd mem fresh⟩

theorem Fenced.trans {mid : List ProcessId} (first : net.Fenced dst dir visited mid)
    (second : net.Fenced dst dir mid result) : net.Fenced dst dir visited result := by
  refine ⟨List.Subset.trans first.grows second.grows, fun id mem fresh => ?_⟩
  by_cases between : id ∈ mid
  · exact (first.inside id between fresh).mono fun next => Or.imp_right fun known =>
      second.grows known
  · exact second.inside id mem between

/-- The step of the search at one port. -/
def escapeStep (net : Network) (target : ProcessId) (direction : Direction) (depth : Nat) :
    Bool × List ProcessId → PortKey → Except Fault (Bool × List ProcessId) :=
  fun (confined, visited) key =>
    if confined then do
      match ← net.peerOwner key with
      | some next => net.searchEscape target direction depth next visited
      | none => return (false, visited)
    else .ok (false, visited)

theorem searchEscape_succ (depth : Nat) {proc : Process} (got : net.process? id = some proc)
    (fresh : ¬ (id = dst ∨ id ∈ visited)) :
    net.searchEscape dst dir (depth + 1) id visited =
      (proc.ports dir).foldlM (net.escapeStep dst dir depth)
        (!(proc.ports dir).isEmpty, id :: visited) := by
  rw [searchEscape, if_neg fresh, process_eq_ok.mpr got]
  rfl

theorem foldlM_escapeStep_false (depth : Nat) (keys : List PortKey) :
    keys.foldlM (net.escapeStep dst dir depth) (false, visited) = .ok (false, visited) := by
  induction keys with
  | nil => rfl
  | cons key keys ih =>
    exact ih

theorem Consistent.mem_ids_of_remote (inv : net.Consistent) {key : PortKey}
    (leads : net.remote key = some id) : id ∈ net.ids := by
  obtain ⟨port, other, peer, -, -, has, rfl⟩ := remote_eq_some.mp leads
  obtain ⟨proc, got, -⟩ := inv.owned has
  exact mem_ids.mpr ⟨proc, got⟩

theorem Consistent.searchEscape_eq (inv : net.Consistent) (dst : ProcessId) (dir : Direction)
    (depth : Nat) (mem : id ∈ net.ids) (room : net.unvisited visited ≤ depth) :
    ∃ confined result, net.searchEscape dst dir depth id visited = .ok (confined, result) ∧
      (confined = true → net.Fenced dst dir visited result ∧ (id = dst ∨ id ∈ result)) ∧
      (confined = false → ∀ reg, net.Closed dir dst reg → ¬ reg id) := by
  induction depth generalizing id visited with
  | zero =>
    -- Without depth everything has been visited before.
    have all := countP_eq_zero.mp (Nat.le_zero.mp room) id mem
    exact ⟨true, visited, rfl, fun _ => ⟨.refl, .inr (by simpa using all)⟩, by simp⟩
  | succ depth ih =>
    by_cases known : id = dst ∨ id ∈ visited
    · refine ⟨true, visited, ?_, fun _ => ⟨.refl, known⟩, by simp⟩
      rw [searchEscape, if_pos known]
      rfl
    have fold (keys : List PortKey) (live : ∀ key ∈ keys, (net.port? key).isSome)
        (visited : List ProcessId)
        (room : net.unvisited visited ≤ depth) :
        ∃ confined result, keys.foldlM (net.escapeStep dst dir depth) (true, visited) =
          .ok (confined, result) ∧ (confined = true → net.Fenced dst dir visited result ∧
            ∀ key ∈ keys, ∃ next, net.remote key = some next ∧ (next = dst ∨ next ∈ result)) ∧
          (confined = false → ∀ reg, net.Closed dir dst reg →
            ¬ ∀ key ∈ keys, ∃ next, net.remote key = some next ∧ reg next) := by
      induction keys generalizing visited with
      | nil => exact ⟨true, visited, rfl, fun _ => ⟨.refl, by simp⟩, by simp⟩
      | cons key keys ihKeys =>
        rw [foldlM_cons]
        have asked := inv.peerOwner_eq (live key mem_cons_self)
        cases leads : net.remote key with
        | none =>
          have stops : net.escapeStep dst dir depth (true, visited) key = .ok (false, visited) := by
            simp only [escapeStep, if_true, asked, leads]
            rfl
          rw [stops]
          refine ⟨false, visited, foldlM_escapeStep_false depth keys,
            by simp, fun _ reg _ inside => ?_⟩
          obtain ⟨next, leadsNext, -⟩ := inside key mem_cons_self
          simp [leads] at leadsNext
        | some next =>
          obtain ⟨confined, mid, searched, fenced, escaped⟩ := ih (inv.mem_ids_of_remote leads) room
          have steps : net.escapeStep dst dir depth (true, visited) key = .ok (confined, mid) := by
            simp only [escapeStep, if_true, asked, leads]
            exact searched
          rw [steps]
          cases confined with
          | false =>
            refine ⟨false, mid, foldlM_escapeStep_false depth keys,
              by simp, fun _ reg closed inside => ?_⟩
            have insideOther := of_found leads (inside key mem_cons_self)
            exact escaped rfl reg closed insideOther
          | true =>
            obtain ⟨first, reached⟩ := fenced rfl
            obtain ⟨confined, result, run, onwards, escapes⟩ :=
              ihKeys (fun key mem => live key (mem_cons_of_mem _ mem)) mid
                (Nat.le_trans (unvisited_le first.grows) room)
            refine ⟨confined, result, run, fun success => ?_, fun failure reg closed inside => ?_⟩
            · obtain ⟨second, others⟩ := onwards success
              refine ⟨first.trans second, forall_mem_cons.mpr ⟨⟨next, leads, ?_⟩, others⟩⟩
              exact reached.imp_right fun visited => second.grows visited
            · grind
    obtain ⟨proc, got⟩ := mem_ids.mp mem
    have live : ∀ key ∈ proc.ports dir, (net.port? key).isSome := fun key memKey => by
      obtain ⟨port, has, -⟩ := inv.listed got memKey
      simp [has]
    have fresh : id ∉ visited := fun pre => known (.inr pre)
    have fewer := unvisited_cons_lt mem fresh
    rw [searchEscape_succ depth got known]
    by_cases empty : proc.ports dir = []
    · refine ⟨false, id :: visited, by rw [empty]; rfl, by simp, fun _ reg closed inside => ?_⟩
      obtain ⟨ports, -⟩ := of_found got (closed id inside fun same => known (.inl same))
      exact ports empty
    · obtain ⟨confined, result, run, fenced, escaped⟩ :=
        fold (proc.ports dir) live (id :: visited) (by omega)
      have starts : (!(proc.ports dir).isEmpty) = true := by simpa using empty
      rw [starts]
      refine ⟨confined, result, run, fun success => ?_, fun failure reg closed inside => ?_⟩
      · obtain ⟨behind, onwards⟩ := fenced success
        refine ⟨⟨(cons_subset.mp behind.grows).2, fun other memOther freshOther => ?_⟩, ?_⟩
        · by_cases here : other = id
          · subst here
            exact ⟨proc, got, empty, onwards⟩
          · exact behind.inside other memOther (by simp [here, freshOther])
        · exact .inr (behind.grows mem_cons_self)
      · obtain ⟨-, onwards⟩ := of_found got (closed id inside fun same => known (.inl same))
        exact escaped failure reg closed onwards

theorem Consistent.isConfined_eq (inv : net.Consistent) (dst : ProcessId) (dir : Direction)
    (mem : id ∈ net.ids) :
    ∃ confined, net.isConfined id dst dir = .ok confined ∧
      (confined = true ↔ net.Confined id dst dir) := by
  have room : net.unvisited [] ≤ net.searchDepth := by
    rw [unvisited_nil, searchDepth]
    omega
  obtain ⟨confined, result, run, fenced, escaped⟩ :=
    inv.searchEscape_eq dst dir net.searchDepth mem room
  refine ⟨confined, by rw [isConfined, run]; rfl,
    fun success => ?_, fun ⟨reg, closed, inside⟩ => ?_⟩
  · obtain ⟨around, reached⟩ := fenced success
    refine ⟨fun other => other = dst ∨ other ∈ result, fun other inside elsewhere => ?_, reached⟩
    exact around.inside other (inside.resolve_left elsewhere) not_mem_nil
  · grind

/-- A region is contained if all that leaves its start arrives at its stop, and the other way
round. -/
def Contained (net : Network) (region : Section) : Prop :=
  net.Confined region.start region.stop .output ∧ net.Confined region.stop region.start .input

theorem Consistent.isContained_eq (inv : net.Consistent) (reg : Section)
    (start : reg.start ∈ net.ids) (stop : reg.stop ∈ net.ids) :
    ∃ contained, net.isContained reg = .ok contained ∧ (contained = true ↔ net.Contained reg) := by
  obtain ⟨onwards, runOnwards, saysOnwards⟩ := inv.isConfined_eq reg.stop .output start
  obtain ⟨backwards, runBackwards, saysBackwards⟩ := inv.isConfined_eq reg.start .input stop
  rw [Contained, ← saysOnwards, ← saysBackwards, isContained, runOnwards]
  cases onwards with
  | true => exact ⟨backwards, runBackwards, by simp⟩
  | false => exact ⟨false, rfl, by simp⟩

end Dataflow.Network
