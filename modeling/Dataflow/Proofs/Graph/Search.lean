import Mathlib.Data.List.Perm.Subperm
import Dataflow.Graph.Search
import Dataflow.Proofs.Graph.Loop

/-! What the searches in a graph find, and what it means that they find nothing. -/

open List

namespace Dataflow.Graph

open Relation

variable {α : Type} {next : α → List α} {nodes path : List α} {node : α} {search : LoopSearch α}
  {depth : Nat}

/-- One node leads to another in one step. -/
def Leads (next : α → List α) (source target : α) : Prop :=
  target ∈ next source

/-- A loop leads from one node straight back to the other, at which it was entered. -/
def Closes (loop : List α) (last first : α) : Prop :=
  loop.head? = some first ∧ loop.getLast? = some last

/-- What a finished node leads to was finished before it, or closes a loop that was found. -/
def LoopSearch.Ordered (next : α → List α) (search : LoopSearch α) : Prop :=
  ∀ later node earlier, search.finished = later ++ node :: earlier → ∀ target ∈ next node,
    target ∈ earlier ∨ ∃ loop ∈ search.loops, Closes loop node target

/-- The search went on from `search` to `result` and settled everything it was to follow from the
end of a path. -/
structure Followed (next : α → List α) (path targets : List α) (search result : LoopSearch α) :
    Prop where
  ordered : search.Ordered next → result.Ordered next
  keeps : search.finished ⊆ result.finished
  found : search.loops ⊆ result.loops
  settles : ∀ target ∈ targets, target ∈ result.finished ∨
    ∃ last ∈ path.getLast?, ∃ loop ∈ result.loops, Closes loop last target

namespace Followed

variable {targets : List α} {dst : α} {mid result : LoopSearch α}

theorem finished (known : dst ∈ search.finished) : Followed next path [dst] search search :=
  ⟨fun ordered => ordered, List.Subset.refl _, List.Subset.refl _, by simp [known]⟩

/-- A loop is closed at a node that is on the way. -/
theorem closed {loop : List α} (closes : Closes loop node dst) :
    Followed next (path ++ [node]) [dst] search
      { search with loops := search.loops ++ [loop] } where
  ordered ordered new node earlier split dst leads :=
    (ordered new node earlier split dst leads).imp_right
    fun ⟨other, isHas, closes⟩ => ⟨other, mem_append_left _ isHas, closes⟩
  keeps := List.Subset.refl _
  found := subset_append_left ..
  settles := by simpa using .inr (.inr closes)

theorem cons (first : Followed next path [dst] search mid)
    (rest : Followed next path targets mid result) :
    Followed next path (dst :: targets) search result where
  ordered ordered := rest.ordered (first.ordered ordered)
  keeps := List.Subset.trans first.keeps rest.keeps
  found := List.Subset.trans first.found rest.found
  settles := by
    refine forall_mem_cons.mpr ⟨?_, rest.settles⟩
    rcases first.settles dst (mem_singleton_self dst)
      with finished | ⟨last, isLast, loop, isHas, closes⟩
    · exact .inl (rest.keeps finished)
    · exact .inr ⟨last, isLast, loop, rest.found isHas, closes⟩

/-- Steps that each settle one node settle all of them. -/
theorem foldl {step : LoopSearch α → α → LoopSearch α}
    (each : ∀ dst ∈ targets, ∀ search, Followed next path [dst] search (step search dst)) :
    Followed next path targets search (targets.foldl step search) := by
  induction targets generalizing search with
  | nil => exact ⟨fun ordered => ordered, List.Subset.refl _, List.Subset.refl _, by simp⟩
  | cons dst targets ih =>
    exact (each dst mem_cons_self search).cons
      (ih fun other mem => each other (mem_cons_of_mem _ mem))

/-- A node is finished behind everything that it leads to. -/
theorem finish (followed : Followed next (path ++ [node]) (next node) search result) :
    Followed next path [node] search { result with finished := node :: result.finished } where
  ordered ordered new other earlier split dst leads := by
    rcases cons_eq_append_iff.mp split with ⟨rfl, here⟩ | ⟨rest, rfl, pre⟩
    · obtain ⟨rfl, rfl⟩ := List.cons.inj here
      simpa using followed.settles dst leads
    · exact followed.ordered ordered rest other earlier pre dst leads
  keeps := fun _ mem => mem_cons_of_mem _ (followed.keeps mem)
  found := followed.found
  settles := by simp

end Followed

theorem LoopSearch.Ordered.exists_closes {r : α → α → Prop} (ordered : search.Ordered next)
    {loop : List α} (isLoop : IsLoop r loop) (leads : ∀ {src dst}, r src dst → Leads next src dst)
    (finished : loop ⊆ search.finished) :
    ∃ src dst, r src dst ∧ ∃ has ∈ search.loops, Closes has src dst := by
  have descend (size : Nat) : ∀ new node earlier, search.finished = new ++ node :: earlier →
      node ∈ loop → earlier.length = size → ∃ src dst, r src dst ∧ ∃ has ∈ search.loops,
      Closes has src dst := by
    induction size using Nat.strong_induction_on with
    | _ size ih =>
      rintro new node earlier split onLoop rfl
      obtain ⟨dst, onLoopToo, rel⟩ := isLoop.exists_next onLoop
      rcases ordered new node earlier split dst (leads rel) with pre | closes
      · obtain ⟨mid, rest, rfl⟩ := append_of_mem pre
        exact ih rest.length (by simp; omega) (new ++ node :: mid) dst rest
          (by simp [split]) onLoopToo rfl
      · exact ⟨node, dst, rel, closes⟩
  obtain ⟨node, onLoop⟩ := exists_mem_of_ne_nil loop isLoop.ne_nil
  obtain ⟨new, earlier, split⟩ := append_of_mem (finished onLoop)
  exact descend _ new node earlier split onLoop rfl

/-- What a search from `reached` to `result` has reached is closed, apart from what was reached
before. -/
structure Reached (next : α → List α) (nodes reached result : List α) : Prop where
  once : result.Nodup
  inside : result ⊆ nodes
  keeps : reached ⊆ result
  closed : ∀ node ∈ result, node ∈ reached ∨ next node ⊆ result

theorem Reached.trans {reached mid result : List α} (first : Reached next nodes reached mid)
    (second : Reached next nodes mid result) : Reached next nodes reached result where
  once := second.once
  inside := second.inside
  keeps := List.Subset.trans first.keeps second.keeps
  closed node mem := by
    rcases second.closed node mem with pre | behind
    · exact (first.closed node pre).imp_right fun behind => List.Subset.trans behind second.keeps
    · exact .inr behind

variable [DecidableEq α]

theorem dropWhile_ne_of_mem {list : List α} (mem : node ∈ list) :
    ∃ front back, list = front ++ node :: back ∧ list.dropWhile (· ≠ node) = node :: back := by
  induction list with
  | nil => simp at mem
  | cons first rest ih =>
    by_cases here : first = node
    · exact ⟨[], rest, by simp [here], by simp [here]⟩
    · obtain ⟨front, back, split, dropped⟩ := ih ((mem_cons.mp mem).resolve_left (Ne.symm here))
      exact ⟨first :: front, back, by simp [split], by simpa [here] using dropped⟩

theorem isLoop_dropWhile {dst : α} (chain : (path ++ [node]).IsChain (Leads next))
    (leads : Leads next node dst) (onPath : dst ∈ path ++ [node]) :
    IsLoop (Leads next) ((path ++ [node]).dropWhile (· ≠ dst)) ∧
    Closes ((path ++ [node]).dropWhile (· ≠ dst)) node dst := by
  obtain ⟨front, back, split, dropped⟩ := dropWhile_ne_of_mem onPath
  rw [dropped]
  have same := congrArg List.getLast? split
  rw [getLast?_concat, getLast?_append_of_ne_nil _ (cons_ne_nil _ _)] at same
  refine ⟨⟨dst, back, rfl,
    isChain_concat.mpr ⟨chain.suffix (split ▸ suffix_append front _), fun last isLast => ?_⟩⟩,
    rfl, same.symm⟩
  rw [← same] at isLast
  cases isLast
  exact leads

/-- What the search does with one successor of the last node of a path. -/
def followStep (next : α → List α) (depth : Nat) (path : List α) (search : LoopSearch α)
    (successor : α) : LoopSearch α :=
  if successor ∈ path then { search with loops := search.loops ++ [path.dropWhile (· ≠ successor)] }
  else if successor ∈ search.finished then search
  else followLoops next depth path successor search

theorem followLoops_succ (depth : Nat) :
    followLoops next (depth + 1) path node search =
      { (next node).foldl (followStep next depth (path ++ [node])) search with
        finished :=
          node :: ((next node).foldl (followStep next depth (path ++ [node])) search).finished } :=
          rfl

theorem mem_followLoops (depth : Nat) (chain : (path ++ [node]).IsChain (Leads next))
    (once : (path ++ [node]).Nodup) {loop : List α}
    (has : loop ∈ (followLoops next depth path node search).loops) :
    loop ∈ search.loops ∨ IsLoop (Leads next) loop ∧ loop.Nodup := by
  induction depth generalizing path node search with
  | zero => exact .inl has
  | succ depth ih =>
    have fold (targets : List α) (inside : ∀ dst ∈ targets, Leads next node dst)
        (search : LoopSearch α)
        (has : loop ∈ (targets.foldl (followStep next depth (path ++ [node])) search).loops) :
        loop ∈ search.loops ∨ IsLoop (Leads next) loop ∧ loop.Nodup := by
      induction targets generalizing search with
      | nil => exact .inl has
      | cons dst targets ihTargets =>
        have leads := inside dst mem_cons_self
        refine (ihTargets (fun other mem => inside other (mem_cons_of_mem _ mem)) _ has).elim ?_
          .inr
        intro has
        unfold followStep at has
        split at has
        · rename_i onPath
          rcases mem_append.mp has with has | has
          · exact .inl has
          · rw [mem_singleton.mp has]
            exact .inr ⟨(isLoop_dropWhile chain leads onPath).1, once.sublist (dropWhile_sublist _)⟩
        · split at has
          · exact .inl has
          · rename_i offPath _
            exact ih (isChain_concat.mpr ⟨chain, by simpa using leads⟩)
              (nodup_concat.mpr ⟨once, offPath⟩) has
    exact fold (next node) (fun _ mem => mem) search has

theorem followed_followLoops (closed : ∀ node ∈ nodes, next node ⊆ nodes) (depth : Nat)
    (chain : (path ++ [node]).IsChain (Leads next)) (once : (path ++ [node]).Nodup)
    (inside : path ++ [node] ⊆ nodes) (deep : nodes.length < path.length + 1 + depth) :
    Followed next path [node] search (followLoops next depth path node search) := by
  induction depth generalizing path node search with
  | zero =>
    have short := (subperm_of_subset once inside).length_le
    rw [length_append, length_singleton] at short
    omega
  | succ depth ih =>
    rw [followLoops_succ]
    refine (Followed.foldl fun dst (leads : Leads next node dst) search => ?_).finish
    unfold followStep
    split
    · rename_i onPath
      exact .closed (isLoop_dropWhile chain leads onPath).2
    · rename_i offPath
      split
      · exact .finished ‹_›
      · refine ih (isChain_concat.mpr ⟨chain, by simpa using leads⟩)
          (nodup_concat.mpr ⟨once, offPath⟩) ?_ ?_
        · exact append_subset.mpr ⟨inside, by simpa using closed node (inside (by simp)) leads⟩
        · rw [length_append, length_singleton]
          omega

/-- What the search does with each node that it may start at. -/
def startStep (next : α → List α) (depth : Nat) (search : LoopSearch α) (node : α) : LoopSearch α :=
  if node ∈ search.finished then search else followLoops next depth [] node search

theorem isLoop_of_mem_loops {loop : List α} (has : loop ∈ loops next depth nodes) :
    IsLoop (Leads next) loop ∧ loop.Nodup := by
  have fold (starts : List α) (search : LoopSearch α)
      (inv : ∀ loop ∈ search.loops, IsLoop (Leads next) loop ∧ loop.Nodup) :
      ∀ loop ∈ (starts.foldl (startStep next depth) search).loops, IsLoop (Leads next) loop ∧
      loop.Nodup := by
    induction starts generalizing search with
    | nil => exact inv
    | cons start starts ih =>
      refine ih _ fun loop has => ?_
      unfold startStep at has
      split at has
      · exact inv loop has
      · exact (mem_followLoops depth (by simp) (by simp) has).elim (inv loop) fun isLoop => isLoop
  exact fold nodes {} (by simp) loop has

theorem exists_closes_loops {r : α → α → Prop} {loop : List α}
    (known : ∀ src dst, Leads next src dst → src ∈ nodes ∧ dst ∈ nodes)
    (deep : nodes.length ≤ depth) (isLoop : IsLoop r loop)
    (leads : ∀ {src dst}, r src dst → Leads next src dst) :
    ∃ src dst, r src dst ∧ ∃ has ∈ loops next depth nodes, Closes has src dst := by
  have followed : Followed next [] nodes {} (nodes.foldl (startStep next depth) {}) :=
      .foldl fun start mem search => by
    unfold startStep
    split
    · exact .finished ‹_›
    · exact followed_followLoops (fun node _ dst leads => (known node dst leads).2) depth
        (by simp) (by simp)
        (by simpa using mem) (by omega)
  refine (followed.ordered (by simp [LoopSearch.Ordered])).exists_closes isLoop leads
    fun node onLoop => ?_
  obtain ⟨dst, -, rel⟩ := isLoop.exists_next onLoop
  exact (followed.settles node (known node dst (leads rel)).1).resolve_right (by simp)

theorem reached_reach (closed : ∀ node ∈ nodes, next node ⊆ nodes) (depth : Nat) {reached : List α}
    (once : reached.Nodup) (inside : reached ⊆ nodes) (mem : node ∈ nodes)
    (deep : nodes.length ≤ reached.length + depth) :
    Reached next nodes reached (reach next depth node reached) ∧
    next node ⊆ reach next depth node reached := by
  induction depth generalizing node reached with
  | zero =>
    -- Without depth, everything was reached before.
    have all : nodes ⊆ reached :=
      ((subperm_of_subset once inside).perm_of_length_le (by omega)).symm.subset
    exact ⟨⟨once, inside, List.Subset.refl _, fun _ known => .inl known⟩,
      List.Subset.trans (closed node mem) all⟩
  | succ depth ih =>
    have fold (targets : List α) (known : targets ⊆ nodes) (reached : List α) (once : reached.Nodup)
        (inside : reached ⊆ nodes) (deep : nodes.length ≤ reached.length + (depth + 1)) :
        Reached next nodes reached (targets.foldl (fun reached successor =>
            if successor ∈ reached then reached else reach next depth successor
            (successor :: reached)) reached) ∧ targets ⊆ targets.foldl (fun reached successor =>
            if successor ∈ reached then reached else reach next depth successor
            (successor :: reached)) reached := by
      induction targets generalizing reached with
      | nil => exact ⟨⟨once, inside, List.Subset.refl _, fun _ known => .inl known⟩, nil_subset _⟩
      | cons dst targets ihTargets =>
        rw [foldl_cons]
        have inNodes : dst ∈ nodes := known mem_cons_self
        have others : targets ⊆ nodes := fun other mem => known (mem_cons_of_mem _ mem)
        by_cases pre : dst ∈ reached
        · rw [if_pos pre]
          obtain ⟨rest, contained⟩ := ihTargets others reached once inside deep
          exact ⟨rest, cons_subset.mpr ⟨rest.keeps pre, contained⟩⟩
        · rw [if_neg pre]
          obtain ⟨step, behind⟩ := ih (nodup_cons.mpr ⟨pre, once⟩)
            (cons_subset.mpr ⟨inNodes, inside⟩) inNodes (by rw [length_cons]; omega)
          have longer := (subperm_of_subset (nodup_cons.mpr ⟨pre, once⟩) step.keeps).length_le
          rw [length_cons] at longer
          have steps : Reached next nodes reached (reach next depth dst (dst :: reached)) := by
            refine ⟨step.once, step.inside, (cons_subset.mp step.keeps).2, fun other mem => ?_⟩
            rcases step.closed other mem with known | behindOther
            · rcases mem_cons.mp known with rfl | known
              · exact .inr behind
              · exact .inl known
            · exact .inr behindOther
          obtain ⟨rest, contained⟩ := ihTargets others _ step.once step.inside (by omega)
          refine ⟨steps.trans rest,
            cons_subset.mpr ⟨rest.keeps (step.keeps mem_cons_self), contained⟩⟩
    exact fold (next node) (closed node mem) reached once inside deep

theorem mem_reach (closed : ∀ node ∈ nodes, next node ⊆ nodes) (mem : node ∈ nodes)
    (deep : nodes.length ≤ depth) {dst : α} (leads : TransGen (Leads next) node dst) :
    dst ∈ reach next depth node [] := by
  obtain ⟨reached, behind⟩ :=
    reached_reach closed depth nodup_nil (nil_subset nodes) mem (by simpa using deep)
  induction leads with
  | single leads => exact behind leads
  | tail _ leads ih => exact (reached.closed _ ih).resolve_left not_mem_nil leads

variable {usable : List α} {accept : List α → Bool} {dst : α}

theorem closedPath?_sound (depth : Nat) (chain : (path ++ [node]).IsChain (Leads next))
    (once : (path ++ [node]).Nodup) {has : List α}
    (finds : closedPath? next usable accept dst depth (path ++ [node]) node = some has) :
    ∃ rest, has = path ++ node :: rest ∧ (has ++ [dst]).IsChain (Leads next) ∧ has.Nodup ∧
      accept has := by
  induction depth generalizing path node with
  | zero => simp [closedPath?] at finds
  | succ depth ih =>
    obtain ⟨successor, leads, finds⟩ := exists_of_findSome?_eq_some finds
    split at finds
    · rename_i closes
      split at finds
      · rename_i accepted
        cases finds
        refine ⟨[], rfl, isChain_concat.mpr ⟨chain, ?_⟩, once, accepted⟩
        have leadsDst : Leads next node dst := closes ▸ leads
        simpa using leadsDst
      · simp at finds
    · split at finds
      · rename_i fresh
        have leadsOn : Leads next node successor := leads
        have step :=
          ih (isChain_concat.mpr ⟨chain, by simpa using leadsOn⟩)
            (nodup_concat.mpr ⟨once, fresh.2⟩) finds
        obtain ⟨rest, split, closed, onceHas, accepted⟩ := step
        exact ⟨successor :: rest, by simpa using split, closed, onceHas, accepted⟩
      · simp at finds

theorem isSome_closedPath? (depth : Nat) {rest : List α}
    (chain : (node :: rest ++ [dst]).IsChain (Leads next)) (once : (path ++ rest).Nodup)
    (inside : rest ⊆ usable) (avoids : dst ∉ rest) (accepted : accept (path ++ rest))
    (deep : rest.length < depth) : (closedPath? next usable accept dst depth path node).isSome := by
  induction rest generalizing path node depth with
  | nil =>
    cases depth with
    | zero => simp at deep
    | succ depth =>
      -- The target itself comes next.
      have leads : Leads next node dst := by simpa using chain
      rw [closedPath?, findSome?_isSome_iff]
      exact ⟨dst, leads, by simpa using accepted⟩
  | cons next' rest ih =>
    cases depth with
    | zero => simp at deep
    | succ depth =>
      obtain ⟨leads, onwards⟩ := isChain_cons_cons.mp chain
      simp only [mem_cons, not_or] at avoids
      have fresh : next' ∉ path := fun mem => by
        have apart := (nodup_append.mp once).2.2
        exact apart next' mem next' mem_cons_self rfl
      have usableNext : next' ∈ usable ∧ rest ⊆ usable := cons_subset.mp inside
      rw [closedPath?, findSome?_isSome_iff]
      refine ⟨next', leads, ?_⟩
      rw [if_neg (Ne.symm avoids.1), if_pos ⟨usableNext.1, fresh⟩]
      refine ih depth onwards (by simpa using once) usableNext.2 avoids.2
        (by simpa using accepted) ?_
      rw [length_cons] at deep
      omega

end Dataflow.Graph
