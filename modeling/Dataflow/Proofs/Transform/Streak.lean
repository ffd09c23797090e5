import Dataflow.Proofs.Transform.Ready

/-! Streaks of parallel maps: as many as possible that follow each other directly. -/

open List Option

namespace Dataflow.Network

variable {net next : Network} {id first last src dst : ProcessId}
  {chain other front back : List ProcessId}

theorem isMapShaped_of_isParallelMap (par : net.isParallelMap id) : net.isMapShaped id := by
  obtain ⟨proc, got, kind⟩ := (any_eq_true _ _).mp par
  refine (any_eq_true _ _).mpr ⟨proc, got, ?_⟩
  cases isKind : proc.kind <;> simp_all [Kind.isParallelMap, Kind.isMapShaped]

theorem Simple.exists_neighbour (simple : net.Simple id) (inv : net.Consistent) (dir : Direction) :
    ∃ ans, net.neighbour id dir 0 = .ok ans ∧ ∀ dst, ans = some dst ↔ dst ∈ net.across id dir := by
  obtain ⟨proc, key, got, only⟩ := simple.exists_port dir
  obtain ⟨port, has, -⟩ := inv.listed got (only ▸ mem_singleton_self key)
  refine ⟨net.remote key, ?_, fun dst => ?_⟩
  · rw [neighbour, portAt_eq got (show (proc.ports dir)[0]? = some key by simp [only])]
    exact inv.peerOwner_eq (by simp [has])
  · simp [mem_across_of_stored got, only]

/-- Different parallel maps that follow each other. -/
structure Stretch (net : Network) (chain : List ProcessId) : Prop extends net.Line chain where
  parallel : ∀ id ∈ chain, net.isParallelMap id

/-- A stretch that no parallel map feeds and that feeds none. -/
structure Streak (net : Network) (chain : List ProcessId) : Prop extends net.Stretch chain where
  filled : chain ≠ []
  before : ∀ first ∈ chain.head?, ∀ source, net.Feeds source first → ¬ net.isParallelMap source
  behind : ∀ last ∈ chain.getLast?, ∀ target, net.Feeds last target → ¬ net.isParallelMap target

theorem Legal.stretch (legal : net.Legal) (par : ∀ id ∈ chain, net.isParallelMap id)
    (chained : chain.IsChain net.Feeds) (once : chain.Nodup) : net.Stretch chain :=
  ⟨⟨fun id mem => legal.simple (isMapShaped_of_isParallelMap (par id mem)), chained, once⟩, par⟩

namespace Stretch

variable (stretch : net.Stretch chain)

include stretch

/-- A stretch does not lead back to itself, since there is no delay on the way. -/
theorem opens (legal : net.Legal) (starts : chain.head? = some first)
    (stops : chain.getLast? = some last) : ¬ net.Feeds last first := by
  intro feeds
  have isLoop : net.IsLoop chain := by
    obtain ⟨rest, rfl⟩ := head?_eq_some_iff.mp starts
    refine ⟨first, rest, rfl, Graph.isChain_concat.mpr ⟨stretch.chained, fun final isFinal => ?_⟩⟩
    obtain rfl := mem_unique stops isFinal
    exact feeds
  obtain ⟨id, mem, delays⟩ := legal.delayed isLoop
  exact not_isDelay_of_isMapShaped (isMapShaped_of_isParallelMap (stretch.parallel id mem)) delays

theorem exist : chain ⊆ net.ids := fun id mem => by
  obtain ⟨proc, -, -, got, -⟩ := stretch.simple id mem
  exact mem_ids.mpr ⟨proc, got⟩

theorem streak_or_longer (ready : net.Ready) (some : chain ≠ []) :
    net.Streak chain ∨
    ∃ longer, net.Stretch longer ∧ chain ⊆ longer ∧ longer.length = chain.length + 1 := by
  obtain ⟨first, starts⟩ : ∃ first, chain.head? = Option.some first := ⟨_, head?_eq_some_head some⟩
  have stops := getLast?_eq_some_getLast some
  have opens := stretch.opens ready.legal starts stops
  by_cases pre : ∀ src, net.Feeds src first → ¬ net.isParallelMap src
  · by_cases behind : ∀ dst, net.Feeds (chain.getLast some) dst → ¬ net.isParallelMap dst
    · refine .inl ⟨stretch, some, fun head isHead => ?_, fun final isFinal => ?_⟩
      · exact mem_unique starts isHead ▸ pre
      · exact mem_unique stops isFinal ▸ behind
    · -- The parallel map behind it is new, and can be appended.
      push Not at behind
      obtain ⟨dst, feeds, par⟩ := behind
      have new := stretch.target_outside ready.inv starts stops opens feeds
      refine .inr ⟨chain ++ [dst], ready.legal.stretch ?_ ?_ ?_, subset_append_left _ _, by simp⟩
      · simpa [or_imp, forall_and] using ⟨stretch.parallel, par⟩
      · exact Graph.isChain_concat.mpr
          ⟨stretch.chained, fun final isFinal => mem_unique stops isFinal ▸ feeds⟩
      · exact nodup_append_comm.mp (nodup_cons.mpr ⟨new, stretch.once⟩)
  · push Not at pre
    obtain ⟨src, feeds, par⟩ := pre
    have new := stretch.source_outside ready.inv starts stops opens feeds
    refine .inr
      ⟨src :: chain, ready.legal.stretch ?_ ?_ (nodup_cons.mpr ⟨new, stretch.once⟩),
        subset_cons_self _ _, rfl⟩
    · exact forall_mem_cons.mpr ⟨par, stretch.parallel⟩
    · exact isChain_cons.mpr ⟨fun head isHead => mem_unique starts isHead ▸ feeds, stretch.chained⟩

theorem exists_streak (ready : net.Ready) (some : chain ≠ []) :
    ∃ streak, net.Streak streak ∧ chain ⊆ streak := by
  induction missing : net.ids.length - chain.length generalizing chain with
  | zero =>
    rcases stretch.streak_or_longer ready some with streak | ⟨longer, isStretch, -, len⟩
    · exact ⟨chain, streak, List.Subset.refl _⟩
    · have bound := (subperm_of_subset isStretch.once isStretch.exist).length_le
      omega
  | succ missing ih =>
    rcases stretch.streak_or_longer ready some with streak | ⟨longer, isStretch, inside, len⟩
    · exact ⟨chain, streak, List.Subset.refl _⟩
    · obtain ⟨streak, isStreak, within⟩ := ih isStretch (ne_nil_of_length_eq_add_one len) (by omega)
      exact ⟨streak, isStreak, List.Subset.trans inside within⟩

end Stretch

theorem Stretch.extendChain_eq {front back : List ProcessId} (stretch : net.Stretch (front ++ back))
    (inv : net.Consistent) (stops : front.getLast? = some last)
    (ends : ∀ last ∈ (front ++ back).getLast?, ∀ dst, net.Feeds last dst → ¬ net.isParallelMap dst)
    {fuel : Nat} (enough : back.length < fuel) :
    net.extendChain fuel front last = .ok (front ++ back) := by
  -- Induction on what is still to be found.
  induction back generalizing front last fuel with
  | nil =>
    obtain ⟨fuel, rfl⟩ :=
      Nat.exists_eq_add_one_of_ne_zero (Nat.ne_of_gt (Nat.lt_of_le_of_lt (Nat.zero_le _) enough))
    rw [append_nil] at stretch ends ⊢
    obtain ⟨ans, asked, leads⟩ :=
      (stretch.simple last (mem_of_getLast? stops)).exists_neighbour inv .output
    cases ans with
    | none => simp [extendChain, asked, bind, Except.bind, pure, Except.pure]
    | some dst =>
      have feeds := inv.mem_across_output.mp ((leads dst).mp rfl)
      have other := ends last stops dst feeds
      obtain ⟨proc, got⟩ := inv.exists_target feeds
      have new : dst ∉ front := fun mem => other (stretch.parallel dst mem)
      have notPar : proc.kind.isParallelMap = false := by simpa [isParallelMap, got] using other
      simp [extendChain, asked, new, process_eq_ok.mpr got, notPar, bind, Except.bind, pure,
        Except.pure]
  | cons dst rest ih =>
    obtain ⟨fuel, rfl⟩ :=
      Nat.exists_eq_add_one_of_ne_zero (Nat.ne_of_gt (Nat.lt_of_le_of_lt (Nat.zero_le _) enough))
    obtain ⟨ans, asked, leads⟩ :=
      (stretch.simple last (by simp [mem_of_getLast? stops])).exists_neighbour inv .output
    have feeds : net.Feeds last dst := (isChain_append.mp stretch.chained).2.2 last stops dst rfl
    have new : dst ∉ front :=
      fun mem => (nodup_append.mp stretch.once).2.2 dst mem dst mem_cons_self rfl
    obtain ⟨proc, got, par⟩ := (any_eq_true _ _).mp (stretch.parallel dst (by simp))
    have step :=
      ih (show net.Stretch ((front ++ [dst]) ++ rest) by simpa using stretch) (getLast?_concat ..)
        (by simpa using ends) (Nat.lt_of_succ_lt_succ enough)
    simpa [extendChain, asked, (leads dst).mpr (inv.mem_across_output.mpr feeds), new,
      process_eq_ok.mpr got, par, bind, Except.bind] using step

theorem Ready.exists_streak (ready : net.Ready) (par : net.isParallelMap id) :
    ∃ chain, net.Streak chain ∧ id ∈ chain := by
  have stretch : net.Stretch [id] :=
    ready.legal.stretch (by simpa using par) (isChain_singleton _) (nodup_singleton _)
  obtain ⟨chain, streak, inside⟩ := stretch.exists_streak ready (by simp)
  exact ⟨chain, streak, inside mem_cons_self⟩

namespace Streak

variable (streak : net.Streak chain)

include streak

theorem extendChain_eq (inv : net.Consistent) (starts : chain.head? = some first) :
    net.extendChain net.searchDepth [first] first = .ok chain := by
  have bound := (subperm_of_subset streak.once streak.exist).length_le
  obtain ⟨rest, rfl⟩ := head?_eq_some_iff.mp starts
  rw [length_ids] at bound
  exact @Stretch.extendChain_eq net first [first] rest streak.toStretch inv rfl streak.behind _
    (Nat.lt_succ_of_le (Nat.le_of_lt bound))

theorem exists_first : ∃ first, chain.head? = some first :=
  ⟨_, head?_eq_some_head streak.filled⟩

theorem exists_last : ∃ last, chain.getLast? = some last :=
  ⟨_, getLast?_eq_some_getLast streak.filled⟩

theorem mem_of_feeds (inv : net.Consistent) (par : net.isParallelMap src)
    (feeds : net.Feeds src dst) (inside : dst ∈ chain) : src ∈ chain := by
  by_cases here : chain.head? = some dst
  · exact absurd par (streak.before dst here src feeds)
  · obtain ⟨front, pre, back, split, -⟩ := exists_previous_of_isChain streak.chained inside here
    obtain rfl := streak.eq_previous inv split feeds
    simp [split]

/-- Streaks that share a process are the same. -/
theorem unique (too : net.Streak other) (inv : net.Consistent) (shared : id ∈ chain)
    (sharedToo : id ∈ other) : chain = other := by
  obtain ⟨first, starts⟩ := streak.exists_first
  have leadsBack : ∀ member ∈ chain, member ∈ other → first ∈ other :=
    Line.induction_on streak.chained (List.Subset.refl _)
      (fun head isHead inside => mem_unique starts isHead ▸ inside)
      fun a mem b _ pre feeds inside =>
        pre (too.mem_of_feeds inv (streak.parallel a mem) feeds inside)
  have inside := leadsBack id shared sharedToo
  have startsToo : other.head? = some first := by
    by_contra elsewhere
    obtain ⟨front, pre, back, split, feeds⟩ :=
      exists_previous_of_isChain too.chained inside elsewhere
    exact streak.before first starts pre feeds (too.parallel pre (by simp [split]))
  exact Except.ok.inj
    ((streak.extendChain_eq inv starts).symm.trans (too.extendChain_eq inv startsToo))

section

variable {fresh : ProcessId} {entry exit : PortKey} {branches : UInt64} {fns : List Func}
  {hier : Hierarchy}

variable (ready : net.Ready) (readyNext : next.Ready)
  (exc : net.Excisable first last chain entry exit)
  (repl : net.Replaced chain entry exit fresh (.parallelMap branches fns) hier next)

include ready readyNext exc repl

omit streak ready readyNext exc in
theorem isParallelMap_iff :
    next.isParallelMap id ↔ id = fresh ∨ id ∉ chain ∧ net.isParallelMap id := by
  rw [isParallelMap, repl.processes]
  split_ifs <;> simp_all [isParallelMap, Kind.isParallelMap]

omit streak ready readyNext exc in
theorem isParallelMap_former (other : id ≠ fresh) (par : next.isParallelMap id) :
    net.isParallelMap id :=
  (((isParallelMap_iff repl).mp par).resolve_left other).2

theorem replaced_other (too : net.Streak other) (apart : other ≠ chain) : next.Streak other := by
  have outside {id} (mem : id ∈ other) : id ∉ chain := fun onChain =>
    apart (too.unique streak ready.inv mem onChain)
  have known {id} (mem : id ∈ other) : id ≠ fresh := by
    obtain ⟨proc, got⟩ := mem_ids.mp (too.exist mem)
    exact repl.ne_fresh got
  refine ⟨readyNext.legal.stretch (fun id mem => ?_) ?_ too.once, too.filled,
    fun head isHead src fed par => ?_, fun final isFinal dst fed par => ?_⟩
  · exact (isParallelMap_iff repl).mpr (.inr ⟨outside mem, too.parallel id mem⟩)
  · exact List.IsChain.imp_of_mem_imp (fun a b memA memB feeds =>
      (repl.feeds ready.inv exc).mpr (.inl ⟨outside memA, outside memB, feeds⟩)) too.chained
  · rcases (repl.feeds ready.inv exc).mp fed with ⟨-, -, pre⟩ | ⟨isFresh, -⟩ | ⟨-, pre⟩
    · exact too.before head isHead src pre
        (isParallelMap_former repl (repl.ne_fresh_of_feeds ready.inv pre).1 par)
    · exact known (mem_of_head? isHead) isFresh
    · exact too.before head isHead last pre (streak.parallel last exc.stop_mem)
  · rcases (repl.feeds ready.inv exc).mp fed with ⟨-, -, pre⟩ | ⟨-, pre⟩ | ⟨isFresh, -⟩
    · exact too.behind final isFinal dst pre
        (isParallelMap_former repl (repl.ne_fresh_of_feeds ready.inv pre).2 par)
    · exact too.behind final isFinal first pre (streak.parallel first exc.start_mem)
    · exact known (mem_of_getLast? isFinal) isFresh

theorem replaced_iff (starts : chain.head? = some first) (stops : chain.getLast? = some last) :
    next.Streak other ↔ net.Streak other ∧ other ≠ chain ∨ other = [fresh] := by
  have self : next.Streak [fresh] := by
    have par := (isParallelMap_iff repl).mpr (.inl (rfl : fresh = fresh))
    refine ⟨readyNext.legal.stretch (by simpa using par) (isChain_singleton _)
      (nodup_singleton _), by simp, ?_, ?_⟩
    · rintro _ ⟨⟩ src fed par
      rcases (repl.feeds ready.inv exc).mp fed with ⟨-, -, pre⟩ | ⟨-, pre⟩ | ⟨-, pre⟩
      · exact (repl.ne_fresh_of_feeds ready.inv pre).2 rfl
      · exact streak.before first starts src pre
          (isParallelMap_former repl (repl.ne_fresh_of_feeds ready.inv pre).1 par)
      · exact (repl.ne_fresh_of_feeds ready.inv pre).2 rfl
    · rintro _ ⟨⟩ dst fed par
      rcases (repl.feeds ready.inv exc).mp fed with ⟨-, -, pre⟩ | ⟨-, pre⟩ | ⟨-, pre⟩
      · exact (repl.ne_fresh_of_feeds ready.inv pre).1 rfl
      · exact (repl.ne_fresh_of_feeds ready.inv pre).1 rfl
      · exact streak.behind last stops dst pre
          (isParallelMap_former repl (repl.ne_fresh_of_feeds ready.inv pre).2 par)
  constructor
  · intro new
    obtain ⟨id, mem⟩ := exists_mem_of_ne_nil _ new.filled
    by_cases isFresh : id = fresh
    · exact .inr (new.unique self readyNext.inv mem (by simp [isFresh]))
    · -- The process was on a streak before, which is still one.
      obtain ⟨outside, par⟩ :=
        ((isParallelMap_iff repl).mp (new.parallel id mem)).resolve_left isFresh
      obtain ⟨old, isStreak, isMem⟩ := ready.exists_streak par
      have apart : old ≠ chain := fun same => outside (same ▸ isMem)
      have still := streak.replaced_other ready readyNext exc repl isStreak apart
      obtain rfl := new.unique still readyNext.inv mem isMem
      exact .inl ⟨isStreak, apart⟩
  · rintro (⟨pre, apart⟩ | rfl)
    · exact streak.replaced_other ready readyNext exc repl pre apart
    · exact self

end

end Streak

/-- Parallel maps that can be merged: neighbours work on as many elements, and their types match. -/
def Fits (net : Network) (chain : List ProcessId) : Prop :=
  chain.IsChain fun id next => mismatch? id next (net.kindOf id) (net.kindOf next) = none

/-- A streak of several parallel maps that can be merged. -/
structure Merges (net : Network) (chain : List ProcessId) : Prop extends net.Streak chain where
  several : 1 < chain.length
  fits : net.Fits chain

theorem fits_congr (same : ∀ id ∈ chain, next.kindOf id = net.kindOf id) :
    next.Fits chain ↔ net.Fits chain :=
  List.IsChain.iff_of_mem_imp fun a b mem memToo => by rw [same a mem, same b memToo]

theorem Fits.branches_eq {branches : UInt64} {fns : List Func} (fits : net.Fits chain)
    (starts : chain.head? = some first) (isMap : net.kindOf first = .parallelMap branches fns) :
    ∀ id ∈ chain, ∃ fns, net.kindOf id = .parallelMap branches fns := by
  refine Line.induction_on fits (List.Subset.refl _) (fun head isHead => ?_)
    fun src _ dst _ pre fits => ?_
  · grind
  · obtain ⟨fns, isMap⟩ := pre
    cases kind : net.kindOf dst with
    | parallelMap count others =>
      rw [isMap, kind, mismatch?] at fits
      split_ifs at fits with differs
      exact ⟨others, by rw [not_not.mp differs]⟩
    | _ => simp [isMap, kind, mismatch?] at fits

theorem chainMismatch?_eq (exist : chain ⊆ net.ids) :
    ∃ ans, net.chainMismatch? chain = .ok ans ∧ (ans = none ↔ net.Fits chain) := by
  induction chain with
  | nil => exact ⟨none, rfl, by simp [Fits]⟩
  | cons first rest ih =>
    cases rest with
    | nil => exact ⟨none, rfl, by simp [Fits]⟩
    | cons second rest =>
      obtain ⟨front, gotFront⟩ := mem_ids.mp (exist mem_cons_self)
      obtain ⟨back, gotBack⟩ := mem_ids.mp (exist (mem_cons_of_mem _ mem_cons_self))
      obtain ⟨ans, asked, fits⟩ := ih fun id mem => exist (mem_cons_of_mem _ mem)
      simp only [chainMismatch?, process_eq_ok.mpr gotFront, process_eq_ok.mpr gotBack, bind,
        Except.bind, Fits, isChain_cons_cons, kindOf, gotFront, gotBack, elim_some]
      cases mismatch : mismatch? first second front.kind back.kind with
      | none => exact ⟨ans, asked, by simpa [Fits, kindOf] using fits⟩
      | some reason => exact ⟨some reason, rfl, by simp⟩

theorem chainMismatch?_congr (same : ∀ id ∈ chain, next.process? id = net.process? id) :
    next.chainMismatch? chain = net.chainMismatch? chain := by
  induction chain with
  | nil => rfl
  | cons first rest ih =>
    cases rest with
    | nil => rfl
    | cons second rest =>
      rw [chainMismatch?, chainMismatch?, ih fun id mem => same id (mem_cons_of_mem _ mem), process,
        process, same first mem_cons_self, process, process,
        same second (mem_cons_of_mem _ mem_cons_self)]

theorem Simple.continuesChain_eq (simple : net.Simple id) (inv : net.Consistent) :
    ∃ ans, net.continuesChain id = .ok ans ∧
      (ans ↔ ∃ src, net.Feeds src id ∧ net.isParallelMap src) := by
  obtain ⟨ans, asked, leads⟩ := simple.exists_neighbour inv .input
  simp only [inv.mem_across_input] at leads
  cases ans with
  | none =>
    exact ⟨false, by simp [continuesChain, asked, bind, Except.bind, pure, Except.pure],
      by simp [← leads]⟩
  | some src =>
    obtain ⟨proc, got⟩ := inv.exists_source ((leads src).mp rfl)
    exact ⟨proc.kind.isParallelMap, by
      simp [continuesChain, asked, process_eq_ok.mpr got, bind, Except.bind, pure, Except.pure],
      by simp [← leads, isParallelMap, got]⟩

end Dataflow.Network
