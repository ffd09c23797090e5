import Dataflow.Proofs.Meaning.Fusion
import Dataflow.Proofs.Meaning.Thread
import Dataflow.Proofs.Transform.Merge

/-! What merging parallel maps leaves behind, and that it keeps the meaning of a network. -/

open List

namespace Dataflow

universe u

variable {Value : Type u}

/-- What arrays are and what functions do with their elements; other processes may do anything. -/
structure ArrayModel (Value : Type u) where
  /-- The array with the given elements. -/
  array : List Value → Value
  array_injective : Function.Injective array
  /-- The result of a function. -/
  apply : Func → Value → Value
  /-- Whether a parallel map for so many elements takes an array of that length. -/
  takes : UInt64 → Nat → Prop
  /-- What processes let through that are no parallel maps. -/
  others : Behaviour Value

namespace ArrayModel

/-- The result of functions that are applied one after the other. -/
def applyAll (model : ArrayModel Value) (functions : List Func) (value : Value) : Value :=
  functions.foldl (fun value function => model.apply function value) value

/-- A parallel map applies its functions in order to each element of an array. -/
def law (model : ArrayModel Value) : Behaviour Value
  | _, ins, outs, .parallelMap branches functions =>
    ∃ elements, model.takes branches elements.length ∧ ins = [model.array elements] ∧
      outs = [model.array (elements.map (model.applyAll functions))]
  | id, ins, outs, kind => model.others id ins outs kind

end ArrayModel

namespace Network

variable {net next : Network} {id source target : ProcessId} {chain rest : List ProcessId}
  {branches : UInt64} {report : Report}
  {model : ArrayModel Value} {parts : List Contraction}

theorem law_merged {fns others : List Func} (input output : Value) (id pre behind : ProcessId) :
    (∃ between, model.law pre [input] [between] (.parallelMap branches fns) ∧
      model.law behind [between] [output] (.parallelMap branches others)) ↔
      model.law id [input] [output] (.parallelMap branches (fns ++ others)) := by
  have twice (elements : List Value) : (elements.map (model.applyAll fns)).map
      (model.applyAll others) = elements.map (model.applyAll (fns ++ others)) := by
    rw [map_map]
    exact map_congr_left fun element _ => foldl_append.symm
  constructor
  · rintro ⟨between, ⟨elements, takes, ins, outs⟩, too, -, same, out⟩
    obtain rfl : between = _ := (List.cons.inj outs).1
    obtain rfl := model.array_injective (List.cons.inj same).1
    exact ⟨elements, takes, ins, by rw [out, twice]⟩
  · rintro ⟨elements, takes, ins, outs⟩
    exact ⟨_, ⟨elements, takes, ins, rfl⟩, elements.map (model.applyAll fns),
      by simpa using takes, rfl, by rw [outs, twice]⟩

theorem threads_iff_law (filled : chain ≠ [])
    (isMap : ∀ id ∈ chain, ∃ fns, net.kindOf id = .parallelMap branches fns) (input out : Value) :
    Threads model.law net chain input out ↔
      model.law id [input] [out] (.parallelMap branches (net.functionsOf chain)) := by
  induction chain generalizing input with
  | nil => exact absurd rfl filled
  | cons first rest ih =>
    obtain ⟨fns, kind⟩ := isMap first mem_cons_self
    have all : net.functionsOf (first :: rest) = fns ++ net.functionsOf rest := by
      simp [functionsOf, kind, Kind.functions]
    rw [Threads, kind, all]
    cases rest with
    | nil =>
      simp only [Threads, exists_eq_right', functionsOf, flatMap_nil, append_nil]
      exact Iff.rfl
    | cons second rest =>
      have behind :=
        fun between => ih (by simp) (fun id mem => isMap id (mem_cons_of_mem _ mem)) between
      simp only [behind]
      exact law_merged ..

theorem MergesTo.preserves {part : Contraction} (merges : net.MergesTo part next)
    (ready : net.Ready) : Preserves model.law net next := by
  obtain ⟨first, last, proc, entry, exit, branches, fns, starts, stops, -, -, isMap, kind, exc,
    repl⟩ := merges.replaced
  obtain ⟨front, gotFirst, ins⟩ := exc.starts
  obtain ⟨back, gotLast, outs⟩ := exc.stops
  refine repl.preserves ready.inv ready.legal exc
    (merges.closes ready.inv starts gotFirst ins)
    fun input out => ?_
  rw [merges.lets_iff ready.inv starts stops (merges.opens ready.legal starts stops) gotFirst
    ins gotLast outs, kind]
  exact threads_iff_law merges.filled (merges.fits.branches_eq starts isMap) input out

/--
Merging parallel maps keeps the meaning of a network.

It succeeds if the streaks that can be merged begin at top level. Then the networks before and after
have the same solutions, whatever the values are and the other processes do. Each of these streaks,
and nothing else, is replaced by a parallel map for as many elements with all its functions in
order.
-/
theorem mergeParallelMaps_meaning (wellFormed : net.WellFormed) (valid : net.validate = []) :
    ((∃ report next, Edit.mergeParallelMaps.run net = .ok report next) ↔
      ∀ chain first process, net.Merges chain → chain.head? = some first →
        net.process? first = some process → process.hierarchy.parent? = none) ∧
    ∀ report next, Edit.mergeParallelMaps.run net = .ok report next →
      (∀ (Value : Type u) (model : ArrayModel Value), Equivalent model.law net next) ∧
      ∃ parts, report.applied = parts.length ∧ net.Contracts parts next ∧
        (parts.map (·.chain)).Nodup ∧
        (∀ chain, net.Merges chain ↔ ∃ part ∈ parts, part.chain = chain) ∧
        ∀ part ∈ parts, ∃ branches,
          (∀ id ∈ part.chain, ∃ functions, net.kindOf id = .parallelMap branches functions) ∧
          part.kind =
            .parallelMap branches (part.chain.flatMap fun id => (net.kindOf id).functions) := by
  -- Each merge preserves the meaning, and merging stops only at a streak that is nested.
  have consistent := wellFormed.toConsistent
  have ready := wellFormed.ready (consistent.validate_eq_nil_iff.mp valid)
  have ends :=
    ready.ends_mergeParallelMaps
      (fun next => ∀ (Value : Type u) (model : ArrayModel Value), Preserves model.law net next)
      (fun _ _ => .refl consistent) fun held readyNow merges Value model =>
        (held Value model).trans (merges.preserves readyNow)
  have complete {parts : List Contraction} {next : Network} (upTo : net.MergedUpTo [] parts [] next)
      {chain : List ProcessId}
      (merges : net.Merges chain) : ∃ part ∈ parts, part.chain = chain := by
    obtain ⟨first, starts⟩ := merges.exists_first
    exact (upTo.complete merges starts).resolve_left not_mem_nil
  rw [Edit.Ends] at ends
  constructor
  · constructor
    · rintro ⟨report, next, runs⟩ chain first process merges starts stored
      rw [runs] at ends
      obtain ⟨-, -, parts, -, upTo⟩ := ends
      obtain ⟨part, listed, rfl⟩ := complete upTo merges
      exact (upTo.merged part listed).top starts stored
    · intro top
      split at ends
      · exact ⟨_, _, ‹_›⟩
      · obtain ⟨chain, first, process, merges, starts, stored, low⟩ := ends
        exact absurd (top chain first process merges starts stored) low
  · intro report next runs
    rw [runs] at ends
    obtain ⟨-, preserves, parts, counted, upTo⟩ := ends
    refine ⟨fun Value model => (preserves Value model).equivalent consistent, parts, counted,
      upTo.contracts, upTo.once, fun chain => ?_, fun part listed => (upTo.merged part listed).kind⟩
    exact ⟨complete upTo, by rintro ⟨part, listed, rfl⟩; exact (upTo.merged part listed).toMerges⟩

/-- Three parallel maps in a row at the given place, of which the last one is for so many
elements. -/
def parallelMaps (place : Hierarchy) (last : UInt64) : List Operation :=
  [.addProcess "p" (.parallelMap 2 [increment]) place, .addPort "p" "in" .input none,
    .addPort "p" "out" .output none] ++
    Operation.addAll none [("q", .parallelMap 2 [increment, increment], ["in"], ["out"]),
      ("r", .parallelMap last [increment], ["in"], ["out"])] ++
    [.connect 1 2, .connect 3 4, .addInput 0, .addOutput 5]

theorem consistent_parallelMaps (place : Hierarchy) (last : UInt64) :
    (Operation.build (parallelMaps place last)).Consistent :=
  (Reachable.empty.foldl (by simp [Operation.Allowed, parallelMaps])).inv

theorem run_parallelMaps :
    (Operation.build (parallelMaps {} 2)).WellFormed ∧
    (Operation.build (parallelMaps {} 2)).validate = [] ∧
    ∃ report next,
      Edit.mergeParallelMaps.run (Operation.build (parallelMaps {} 2)) = .ok report next ∧
      report.applied = 1 := by
  refine ⟨⟨consistent_parallelMaps {} 2, by decide +kernel⟩,
    List.isEmpty_iff.mp (by decide +kernel), ?_⟩
  have applied : Edit.mergeParallelMaps.succeeds (Operation.build (parallelMaps {} 2))
      (fun report _ => report.applied = 1) := by
    decide +kernel
  exact Edit.exists_run_of_succeeds applied

/-- Three parallel maps for as many elements are merged. -/
theorem mergeParallelMaps_meaning_three :
    (Operation.build (parallelMaps {} 2)).WellFormed ∧
    (Operation.build (parallelMaps {} 2)).validate = [] ∧
    ∃ report next,
      Edit.mergeParallelMaps.run (Operation.build (parallelMaps {} 2)) = .ok report next ∧
      (∀ (Value : Type) (model : ArrayModel Value),
        Equivalent model.law (Operation.build (parallelMaps {} 2)) next) ∧
      ∃ parts, 1 = parts.length ∧ (Operation.build (parallelMaps {} 2)).Contracts parts next := by
  obtain ⟨wellFormed, valid, report, next, runs, applied⟩ := run_parallelMaps
  obtain ⟨same, parts, counted, contracts, -⟩ :=
    (mergeParallelMaps_meaning wellFormed valid).2 report next runs
  exact ⟨wellFormed, valid, report, next, runs, same, parts, applied.symm.trans counted, contracts⟩

/-- Parallel maps of which the first one was inside a composite, which has been removed since. -/
def orphanedMaps : Network :=
  Operation.build
    ([.addProcess "outer" (.composite {}) {}] ++ parallelMaps ⟨["outer"]⟩ 2 ++
      [.removeProcess "outer"])

/-- Parallel maps are not merged if the first one has lost the composite around it. -/
theorem mergeParallelMaps_meaning_orphaned :
    orphanedMaps.WellFormed ∧ orphanedMaps.validate = [] ∧
    ∃ fault next, Edit.mergeParallelMaps.run orphanedMaps = .error fault next := by
  have wellFormed : orphanedMaps.WellFormed :=
    ⟨(Reachable.empty.foldl (by simp [Operation.Allowed, parallelMaps])).inv,
      by decide +kernel⟩
  have valid : orphanedMaps.validate = [] := List.isEmpty_iff.mp (by decide +kernel)
  have refuses : (Edit.mergeParallelMaps.refusal? orphanedMaps).isSome := by decide +kernel
  exact ⟨wellFormed, valid, _, Edit.exists_run_of_refusal? (Option.eq_some_of_isSome refuses)⟩

/-- One parallel map feeds another one for as many elements, whose first function consumes what its
last one produces. -/
def Compatible (net : Network) (source target : ProcessId) : Prop :=
  net.Feeds source target ∧
  ∃ branches functions others last first, net.kindOf source = .parallelMap branches functions ∧
    net.kindOf target = .parallelMap branches others ∧ functions.getLast? = some last ∧
    others.head? = some first ∧ last.feeds first

theorem isParallelMap_of_kindOf {fns : List Func}
    (isMap : net.kindOf id = .parallelMap branches fns) : net.isParallelMap id := by
  cases got : net.process? id <;> simp_all [kindOf, isParallelMap, Kind.isParallelMap]

theorem exists_kindOf_of_isParallelMap (par : net.isParallelMap id) :
    ∃ branches fns, net.kindOf id = .parallelMap branches fns := by
  obtain ⟨proc, got, isMap⟩ := (Option.any_eq_true _ _).mp par
  cases kind : proc.kind <;> simp_all [kindOf, Kind.isParallelMap]

theorem Legal.compatible_iff (legal : net.Legal) (par : net.isParallelMap source)
    (parToo : net.isParallelMap target) (feeds : net.Feeds source target) :
    mismatch? source target (net.kindOf source) (net.kindOf target) = none ↔
      net.Compatible source target := by
  obtain ⟨branches, fns, isMap⟩ := exists_kindOf_of_isParallelMap par
  obtain ⟨count, others, isMapToo⟩ := exists_kindOf_of_isParallelMap parToo
  have filled := legal.functions_ne_nil (isMapShaped_of_isParallelMap par)
  have filledToo := legal.functions_ne_nil (isMapShaped_of_isParallelMap parToo)
  rw [isMap] at filled
  rw [isMapToo] at filledToo
  obtain ⟨last, isLast⟩ : ∃ last, fns.getLast? = some last := ⟨_, getLast?_eq_some_getLast filled⟩
  obtain ⟨first, isFirst⟩ : ∃ first, others.head? = some first := ⟨_, head?_eq_some_head filledToo⟩
  have fits : mismatch? source target (net.kindOf source) (net.kindOf target) = none ↔
      branches = count ∧ last.feeds first := by
    simp only [isMap, isMapToo, mismatch?, isLast, isFirst, Option.map_some, Option.bind_some,
      Func.feeds, @eq_comm _ first.inputType?]
    split_ifs <;> simp_all
  rw [fits]
  constructor
  · rintro ⟨rfl, typed⟩
    exact ⟨feeds, branches, fns, others, last, first, isMap, isMapToo, isLast, isFirst, typed⟩
  · rintro ⟨-, shared, _, _, final, head, isMapShared, isMapSharedToo, isFinal, isHead, typed⟩
    rw [isMap] at isMapShared
    rw [isMapToo] at isMapSharedToo
    cases isMapShared
    cases isMapSharedToo
    exact ⟨rfl, Option.mem_unique isLast isFinal ▸ Option.mem_unique isFirst isHead ▸ typed⟩

theorem Stretch.fits_iff (stretch : net.Stretch chain) (legal : net.Legal) :
    net.Fits chain ↔ chain.IsChain net.Compatible := by
  rw [Fits, isChain_iff_getElem, isChain_iff_getElem]
  exact forall₂_congr fun idx bound => legal.compatible_iff (stretch.parallel _ (getElem_mem _))
    (stretch.parallel _ (getElem_mem _)) (isChain_iff_getElem.mp stretch.chained idx bound)

theorem Compatible.parallel (compatible : net.Compatible source target) :
    net.isParallelMap source ∧ net.isParallelMap target := by
  obtain ⟨-, _, _, _, _, _, isMap, isMapToo, -⟩ := compatible
  exact ⟨isParallelMap_of_kindOf isMap, isParallelMap_of_kindOf isMapToo⟩

theorem Streak.of_compatible (streak : net.Streak chain) (ready : net.Ready)
    (compatible : net.Compatible source target) (mem : target ∈ chain) :
    source ∈ chain ∧ 1 < chain.length := by
  have inside := streak.mem_of_feeds ready.inv compatible.parallel.1 compatible.1 mem
  refine ⟨inside, ?_⟩
  by_contra short
  obtain ⟨only, rfl⟩ :=
    length_eq_one_iff.mp (Nat.le_antisymm (Nat.le_of_not_lt short) (length_pos_of_mem inside))
  obtain rfl := mem_singleton.mp mem
  obtain rfl := mem_singleton.mp inside
  exact streak.opens ready.legal rfl rfl compatible.1

theorem Streak.compatible_of (streak : net.Streak chain) (too : next.Streak chain)
    (inv : net.Consistent) (kinds : ∀ id ∈ chain, next.kindOf id = net.kindOf id)
    (compatible : net.Compatible source target) (mem : target ∈ chain) :
    next.Compatible source target := by
  have inside := streak.mem_of_feeds inv compatible.parallel.1 compatible.1 mem
  obtain ⟨feeds, typed⟩ := compatible
  refine ⟨?_, by rwa [kinds source inside, kinds target mem]⟩
  by_cases here : chain.head? = some target
  · exact absurd (streak.parallel source inside) (streak.before target here source feeds)
  · obtain ⟨front, previous, back, split, fed⟩ := exists_previous_of_isChain too.chained mem here
    exact streak.eq_previous inv split feeds ▸ fed

theorem Streak.not_isChain_iff (streak : net.Streak chain) (legal : net.Legal) :
    ¬ chain.IsChain net.Compatible ↔ ∃ reason, net.chainMismatch? chain = .ok (some reason) := by
  obtain ⟨mismatch, compared, fits⟩ := chainMismatch?_eq streak.exist
  rw [← streak.fits_iff legal, ← fits, compared]
  cases mismatch <;> simp

theorem MergedUpTo.compatible_iff (upTo : net.MergedUpTo [] parts seen next)
    (inv : net.Consistent) (legal : net.Legal) (source target : ProcessId) :
    next.Compatible source target ↔
      net.Compatible source target ∧
      ∃ chain, net.Streak chain ∧ target ∈ chain ∧ ¬ chain.IsChain net.Compatible := by
  constructor
  · intro compatible
    obtain ⟨chain, streak, mem⟩ := upTo.ready.exists_streak compatible.parallel.2
    obtain ⟨-, several⟩ := streak.of_compatible upTo.ready compatible mem
    rcases upTo.streaks.mp streak with ⟨old, other⟩ | ⟨part, -, rfl⟩
    · have kinds := upTo.kindOf_eq inv old other
      have pre := streak.compatible_of old upTo.ready.inv (fun id isMem => (kinds id isMem).symm)
        compatible mem
      refine ⟨pre, chain, old, mem, fun throughout => ?_⟩
      obtain ⟨first, starts⟩ := old.exists_first
      have merges : net.Merges chain := ⟨old, several, (old.fits_iff legal).mpr throughout⟩
      obtain ⟨part, isPart, same⟩ := (upTo.complete merges starts).resolve_left not_mem_nil
      exact other part isPart same
    · exact absurd several (by simp)
  · rintro ⟨compatible, chain, streak, mem, mixed⟩
    have other : ∀ part ∈ parts, part.chain ≠ chain := by
      rintro part isPart rfl
      exact mixed ((streak.fits_iff legal).mp (upTo.merged part isPart).fits)
    exact streak.compatible_of (upTo.streaks.mpr (.inl ⟨streak, other⟩)) inv
      (upTo.kindOf_eq inv streak other) compatible mem

/--
Which compatible parallel maps are left next to each other when parallel maps have been merged.

They are those on streaks that are not compatible throughout, which are left as they are. So there
are none left exactly if every streak is compatible throughout or nowhere. The report has a note on
each streak that is not compatible throughout, and no other notes.
-/
theorem mergeParallelMaps_compatible (wellFormed : net.WellFormed) (valid : net.validate = [])
    (runs : Edit.mergeParallelMaps.run net = .ok report next) :
    (∀ source target, next.Compatible source target ↔
      net.Compatible source target ∧
      ∃ chain, net.Streak chain ∧ target ∈ chain ∧ ¬ chain.IsChain net.Compatible) ∧
    ((∀ source target, ¬ next.Compatible source target) ↔
      ∀ chain, net.Streak chain →
        chain.IsChain net.Compatible ∨ ∀ source, ∀ target ∈ chain, ¬ net.Compatible source target) ∧
    (∀ chain, net.Streak chain → ¬ chain.IsChain net.Compatible →
      ∃ note ∈ report.notes, net.NotedAs chain note) ∧
    ∀ note ∈ report.notes, ∃ chain, net.Streak chain ∧ ¬ chain.IsChain net.Compatible ∧
      net.NotedAs chain note := by
  -- Merging has come to the end of the list, so only streaks that do not fit are left.
  have consistent := wellFormed.toConsistent
  have legal := consistent.validate_eq_nil_iff.mp valid
  have ends := (wellFormed.ready legal).ends_mergeParallelMaps (fun _ => True) trivial
    fun _ _ _ => trivial
  rw [Edit.Ends, runs] at ends
  obtain ⟨noted, -, parts, -, upTo⟩ := ends
  have left (source target : ProcessId) := upTo.compatible_iff consistent legal source target
  refine ⟨left, ⟨fun none chain streak => ?_, fun uniform source target compatible => ?_⟩,
    fun chain streak mixed => ?_, fun note listed => ?_⟩
  · rw [or_iff_not_imp_left]
    exact fun mixed source target listed compatible =>
      none source target ((left source target).mpr ⟨compatible, chain, streak, listed, mixed⟩)
  · obtain ⟨before, chain, streak, listed, mixed⟩ := (left source target).mp compatible
    exact (uniform chain streak).resolve_left mixed source target listed before
  · obtain ⟨reason, compared⟩ := (streak.not_isChain_iff legal).mp mixed
    obtain ⟨first, starts⟩ := streak.exists_first
    have isNote : net.NotedAs chain (notMerged first reason) :=
      ⟨first, reason, starts, compared, rfl⟩
    exact ⟨_, (noted _).mpr ⟨chain, streak, fun _ _ => not_mem_nil, isNote⟩, isNote⟩
  · obtain ⟨chain, streak, -, isNote⟩ := (noted note).mp listed
    have unfit := isNote
    obtain ⟨first, reason, -, compared, -⟩ := unfit
    exact ⟨chain, streak, (streak.not_isChain_iff legal).mpr ⟨reason, compared⟩, isNote⟩

/-- When three compatible parallel maps in a row have been merged, none are left exactly if there
was no other streak than such. -/
theorem mergeParallelMaps_compatible_three :
    (Operation.build (parallelMaps {} 2)).WellFormed ∧
    (Operation.build (parallelMaps {} 2)).validate = [] ∧
    ∃ report next,
      Edit.mergeParallelMaps.run (Operation.build (parallelMaps {} 2)) = .ok report next ∧
      report.applied = 1 ∧
      ((∀ source target, ¬ next.Compatible source target) ↔
        ∀ chain, (Operation.build (parallelMaps {} 2)).Streak chain →
          chain.IsChain (Operation.build (parallelMaps {} 2)).Compatible ∨
          ∀ source, ∀ target ∈ chain, ¬ (Operation.build (parallelMaps {} 2)).Compatible source
            target) := by
  obtain ⟨wellFormed, valid, report, next, runs, applied⟩ := run_parallelMaps
  exact ⟨wellFormed, valid, report, next, runs, applied,
    (mergeParallelMaps_compatible wellFormed valid runs).2.1⟩

/-- Two compatible parallel maps in front of one for more elements stay as they are. -/
theorem mergeParallelMaps_compatible_mixed :
    (Operation.build (parallelMaps {} 3)).WellFormed ∧
    (Operation.build (parallelMaps {} 3)).validate = [] ∧
    ∃ report next,
      Edit.mergeParallelMaps.run (Operation.build (parallelMaps {} 3)) = .ok report next ∧
      next.Compatible "p" "q" := by
  have wellFormed : (Operation.build (parallelMaps {} 3)).WellFormed :=
    ⟨consistent_parallelMaps {} 3, by decide +kernel⟩
  have valid : (Operation.build (parallelMaps {} 3)).validate = [] :=
    List.isEmpty_iff.mp (by decide +kernel)
  have stays : Edit.mergeParallelMaps.succeeds (Operation.build (parallelMaps {} 3)) (fun _ next =>
      next.port? 1 = some ⟨"out", "p", .output, none, some 2⟩ ∧
      next.port? 2 = some ⟨"in", "q", .input, none, some 1⟩ ∧
      next.kindOf "p" = .parallelMap 2 [increment] ∧
      next.kindOf "q" = .parallelMap 2 [increment, increment]) := by
    decide +kernel
  obtain ⟨report, next, runs, found, foundPeer, isMap, isMapToo⟩ :=
    Edit.exists_run_of_succeeds stays
  exact ⟨wellFormed, valid, report, next, runs, ⟨1, _, 2, _, found, rfl, rfl, foundPeer, rfl, rfl⟩,
    2, _, _, increment, increment, isMap, isMapToo, rfl, rfl, by decide⟩

end Network

end Dataflow
