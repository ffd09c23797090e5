import Dataflow.Proofs.Transform.Contracted
import Dataflow.Proofs.Transform.Prepared
import Dataflow.Proofs.Transform.Streak

/-! Merging replaces exactly the streaks of parallel maps that fit to each other. -/

open List Option

namespace Dataflow.Network

open Edit

variable {net cur next : Network} {id first : ProcessId} {chain seen rest : List ProcessId}
  {kept : Network → Prop}
  {merging : Edit.Merging} {parts : List Contraction} {part : Contraction}

/-- One parallel map takes the place of a streak at top level, with all functions in order. -/
structure MergesTo (net : Network) (part : Contraction) (next : Network) :
    Prop extends net.Merges part.chain where
  ready : next.Ready
  replaced : ∃ first last process entry exit branches functions, part.chain.head? = some first ∧
    part.chain.getLast? = some last ∧ net.process? first = some process ∧
    process.hierarchy.parent? = none ∧ net.kindOf first = .parallelMap branches functions ∧
    part.kind = .parallelMap branches (net.functionsOf part.chain) ∧
    net.Excisable first last part.chain entry exit ∧
    net.Replaced part.chain entry exit part.fresh part.kind process.hierarchy next

/-- What merging from one process on can come to. -/
inductive MergesFrom (net : Network) (merging : Edit.Merging) (id : ProcessId) :
    Edit.Merging → Network → Prop where
  | passed (nowhere : id ∈ merging.seen ∨ ∀ chain, net.Streak chain → chain.head? ≠ some id) :
    MergesFrom net merging id merging net
  | left {chain : List ProcessId} {mismatch : Option Mismatch} (streak : net.Streak chain)
    (starts : chain.head? = some id) (unfit : ¬ net.Merges chain)
    (compared : net.chainMismatch? chain = .ok mismatch) :
    MergesFrom net merging id
      ⟨merging.seen ++ chain, merging.report.addNotes (mismatch.toList.map (notMerged id))⟩ net
  | merged {part : Contraction} {next : Network} (starts : part.chain.head? = some id)
    (merges : net.MergesTo part next) :
    MergesFrom net merging id ⟨merging.seen ++ part.chain, merging.report.count⟩ next

/-- The first process of a streak that can be merged is not at top level. -/
def HasNestedMerge (net : Network) : Prop :=
  ∃ chain first process, net.Merges chain ∧ chain.head? = some first ∧
    net.process? first = some process ∧ process.hierarchy.parent? ≠ none

theorem Merges.ends_mergeChain (merges : net.Merges chain) (ready : net.Ready) :
    (Edit.mergeChain chain).Ends net
      (fun done next => done = true ∧ ∃ fresh kind, net.MergesTo ⟨chain, fresh, kind⟩ next)
      fun _ => net.HasNestedMerge := by
  obtain ⟨first, starts⟩ := merges.exists_first
  obtain ⟨last, stops⟩ := merges.exists_last
  obtain ⟨entry, exit, exc⟩ :=
    merges.excisable ready.inv starts stops (merges.opens ready.legal starts stops)
  have shaped : ∀ id ∈ chain, net.isMapShaped id :=
    fun id mem => isMapShaped_of_isParallelMap (merges.parallel id mem)
  obtain ⟨proc, got, par⟩ := (any_eq_true _ _).mp (merges.parallel first exc.start_mem)
  obtain ⟨branches, fns, kind⟩ : ∃ branches fns, proc.kind = .parallelMap branches fns := by
    cases isKind : proc.kind <;> simp_all [Kind.isParallelMap]
  have some : branches ≠ 0 := fun zero => by
    have fits := ready.legal.fits got
    simp [Process.defect?, kind, zero, Kind.payloadDefect?] at fits
  have sound :
      (Kind.parallelMap branches (net.functionsOf chain) : Kind Composite).payloadDefect? =
      none := by
    simp [Kind.payloadDefect?, some, ready.legal.functionsOf_ne_nil merges.filled shaped]
  unfold Edit.mergeChain
  simp only [starts, stops, ends_bind, ends_get, process_eq_ok.mpr got, ends_answer, kind,
    chainFunctions_eq merges.exist, ends_pure]
  refine (ready.ends_replaceRegion exc got "_parallel" rfl).mono (fun _ next => ?_) fun _ fault =>
    ⟨chain, first, proc, merges, starts, got, fault.1⟩
  rintro ⟨top, fresh, repl⟩
  have readyNext := merges.ready_replaced ready shaped starts stops exc repl rfl sound
  refine ⟨trivial, fresh, .parallelMap branches (net.functionsOf chain), ⟨merges, readyNext, ?_⟩⟩
  exact ⟨first, last, proc, entry, exit, branches, fns, starts, stops, got,
    top, by simp [kindOf, got, kind], rfl, exc, repl⟩

theorem Ready.ends_mergeFrom (ready : net.Ready) (merging : Edit.Merging) (id : ProcessId) :
    (Edit.mergeFrom merging id).Ends net (net.MergesFrom merging id) fun _ =>
      net.HasNestedMerge := by
  unfold Edit.mergeFrom
  simp only [ends_bind, ends_get]
  split
  · rename_i passed
    refine .passed (passed.imp_right fun other chain streak starts => ?_)
    simp [streak.parallel id (mem_of_head? starts)] at other
  rename_i candidate
  have par : net.isParallelMap id := by
    rw [not_or] at candidate
    simpa using candidate.2
  obtain ⟨chain, streak, isMem⟩ := ready.exists_streak par
  obtain ⟨continues, asked, fed⟩ := (streak.simple id isMem).continuesChain_eq ready.inv
  simp only [ends_bind, ends_get, asked, ends_answer]
  split
  · rename_i isFed
    obtain ⟨src, feeds, isPar⟩ := fed.mp isFed
    exact .passed (.inr fun other too starts => too.before id starts src feeds isPar)
  -- The streak of the process begins there, as no parallel map feeds it.
  rename_i notFed
  have starts : chain.head? = some id := by
    by_contra elsewhere
    obtain ⟨front, previous, back, split, feeds⟩ :=
      exists_previous_of_isChain streak.chained isMem elsewhere
    exact notFed (fed.mpr ⟨previous, feeds, streak.parallel previous (by simp [split])⟩)
  obtain ⟨mismatch, compared, fits⟩ := chainMismatch?_eq streak.exist
  simp only [ends_bind, ends_get, streak.extendChain_eq ready.inv starts, ends_answer]
  split
  · rename_i short
    obtain ⟨only, rfl⟩ :=
      length_eq_one_iff.mp (Nat.le_antisymm (Nat.le_of_lt_succ short) (length_pos_of_mem isMem))
    have outcome : net.MergesFrom merging id _ net :=
      .left streak starts (fun merges => absurd merges.several (by simp)) rfl
    simpa [Report.addNotes] using outcome
  simp only [ends_bind, ends_get, compared, ends_answer]
  cases mismatch with
  | some reason =>
    exact .left streak starts (fun merges => by simpa using fits.mpr merges.fits) compared
  | none =>
    have merges : net.Merges chain := ⟨streak, by omega, fits.mp rfl⟩
    rw [ends_bind]
    refine (merges.ends_mergeChain ready).imp ?_
    rintro _ next ⟨rfl, fresh, kind, done⟩
    exact .merged starts done

/-- A streak that was merged: all of it works on as many elements, and it is at top level. -/
structure MergedAs (net : Network) (part : Contraction) : Prop extends net.Merges part.chain where
  kind : ∃ branches,
    (∀ id ∈ part.chain, ∃ functions, net.kindOf id = .parallelMap branches functions) ∧
    part.kind = .parallelMap branches (net.functionsOf part.chain)
  top : ∀ {first process}, part.chain.head? = some first → net.process? first = some process →
    process.hierarchy.parent? = none

/-- The note on a streak that is left as it is: at its first process, with the first reason why two
neighbours do not fit. -/
def NotedAs (net : Network) (chain : List ProcessId) (note : Diagnostic) : Prop :=
  ∃ first reason, chain.head? = some first ∧ net.chainMismatch? chain = .ok (some reason) ∧
    note = notMerged first reason

/-- The notes when merging has come to the given processes: those on streaks that begin at none of
them and do not fit. -/
def Noted (net : Network) (rest : List ProcessId) (notes : List Diagnostic) : Prop :=
  ∀ note, note ∈ notes ↔
    ∃ chain, net.Streak chain ∧ (∀ first ∈ chain.head?, first ∉ rest) ∧ net.NotedAs chain note

theorem Noted.harmless {report : Report} (noted : net.Noted rest report.notes) :
    report.Harmless := by
  intro note mem
  obtain ⟨_, -, -, _, _, -, -, rfl⟩ := (noted note).mp mem
  rfl

/-- What has become of a network when merging has come to the given processes. -/
structure MergedUpTo (net : Network) (rest : List ProcessId) (parts : List Contraction)
    (seen : List ProcessId) (cur : Network) : Prop where
  ready : cur.Ready
  contracts : net.Contracts parts cur
  streaks : ∀ {chain}, cur.Streak chain ↔
    (net.Streak chain ∧ ∀ part ∈ parts, part.chain ≠ chain) ∨ ∃ part ∈ parts, chain = [part.fresh]
  merged : ∀ part ∈ parts, net.MergedAs part
  once : (parts.map (·.chain)).Nodup
  complete : ∀ {chain first}, net.Merges chain → chain.head? = some first →
    first ∈ rest ∨ ∃ part ∈ parts, part.chain = chain
  unseen : ∀ {chain first}, net.Streak chain → chain.head? = some first → first ∈ rest →
    first ∉ seen

namespace MergedUpTo

section

variable (upTo : net.MergedUpTo rest parts seen cur) (inv : net.Consistent)

include upTo inv

section

variable (streak : net.Streak chain) (other : ∀ part ∈ parts, part.chain ≠ chain)

include streak other

theorem spared (mem : first ∈ chain) :
    Spared parts first := fun part isPart => by
  refine ⟨fun onPart =>
    other part isPart ((upTo.merged part isPart).toStreak.unique streak inv onPart mem),
    fun same => ?_⟩
  obtain ⟨proc, got⟩ := mem_ids.mp (streak.exist mem)
  simp [same, upTo.contracts.absent part isPart] at got

theorem kindOf_eq :
    ∀ first ∈ chain, cur.kindOf first = net.kindOf first := fun first mem => by
  rw [kindOf, upTo.contracts.kept (upTo.spared inv streak other mem), kindOf]

end

omit inv in
theorem streak_former (known : id ∈ net.ids) (streak : cur.Streak chain)
    (starts : chain.head? = some id) : net.Streak chain ∧ ∀ part ∈ parts, part.chain ≠ chain := by
  rcases upTo.streaks.mp streak with old | ⟨part, mem, rfl⟩
  · exact old
  · obtain ⟨proc, got⟩ := mem_ids.mp known
    obtain rfl : part.fresh = id := by simpa using starts
    simp [upTo.contracts.absent part mem] at got

theorem merges_former (streak : net.Streak chain) (other : ∀ part ∈ parts, part.chain ≠ chain) :
    cur.Merges chain ↔ net.Merges chain := by
  have fits := fits_congr (upTo.kindOf_eq inv streak other)
  exact ⟨fun merges => ⟨streak, merges.several, fits.mp merges.fits⟩,
    fun merges => ⟨upTo.streaks.mpr (.inl ⟨streak, other⟩), merges.several, fits.mpr merges.fits⟩⟩

theorem nestedMerge (nestedMerge : cur.HasNestedMerge) : net.HasNestedMerge := by
  obtain ⟨chain, first, proc, merges, starts, got, low⟩ := nestedMerge
  rcases upTo.streaks.mp merges.toStreak with ⟨old, other⟩ | ⟨part, -, rfl⟩
  · have same := upTo.contracts.kept (upTo.spared inv old other (mem_of_head? starts))
    exact ⟨chain, first, proc, (upTo.merges_former inv old other).mp merges, starts,
      same ▸ got, low⟩
  · exact absurd merges.several (by simp)

end

/-- One more process has been looked at. -/
theorem step (upTo : net.MergedUpTo (id :: rest) parts merging.seen cur) (inv : net.Consistent)
    (known : id ∈ net.ids) (new : id ∉ rest) {result : Edit.Merging}
    (outcome : cur.MergesFrom merging id result next) :
    (next = cur ∧ net.MergedUpTo rest parts result.seen next ∧
      result.report.applied = merging.report.applied) ∨
    ∃ part, cur.MergesTo part next ∧ net.MergedUpTo rest (parts ++ [part]) result.seen next ∧
      result.report.applied = merging.report.applied + 1 := by
  have complete
      (settled : ∀ other, net.Merges other → other.head? = some id → ∃ part ∈ parts,
        part.chain = other) {other}
      {first : ProcessId} (merges : net.Merges other) (starts : other.head? = some first) :
      first ∈ rest ∨ ∃ part ∈ parts, part.chain = other := by
    rcases upTo.complete merges starts with mem | isPart
    · grind
    · exact .inr isPart
  have unseen {has other first} (streak : net.Streak has) (starts : has.head? = some id)
      (too : net.Streak other) (startsOther : other.head? = some first) (later : first ∈ rest) :
        first ∉ merging.seen ++ has := by
    rw [mem_append, not_or]
    refine ⟨upTo.unseen too startsOther (mem_cons_of_mem _ later), fun shared => new ?_⟩
    obtain rfl := too.unique streak inv (mem_of_head? startsOther) shared
    exact mem_unique startsOther starts ▸ later
  cases outcome with
  | passed nowhere =>
    refine .inl
      ⟨rfl,
        ⟨upTo.ready, upTo.contracts, upTo.streaks, upTo.merged, upTo.once,
        complete fun other merges starts => ?_,
        fun streak starts mem => upTo.unseen streak starts (mem_cons_of_mem _ mem)⟩, rfl⟩
    by_contra unsettled
    rcases nowhere with isSeen | none
    · exact upTo.unseen merges.toStreak starts mem_cons_self isSeen
    · exact none other
        (upTo.streaks.mpr
          (.inl ⟨merges.toStreak, fun part mem same => unsettled ⟨part, mem, same⟩⟩)) starts
  | @left chain mismatch streak starts unfit =>
    obtain ⟨old, other⟩ := upTo.streak_former known streak starts
    refine .inl
      ⟨rfl,
        ⟨upTo.ready, upTo.contracts, upTo.streaks, upTo.merged, upTo.once,
        complete fun too merges startsToo => ?_, unseen old starts⟩, rfl⟩
    obtain rfl := old.unique merges.toStreak inv (mem_of_head? starts) (mem_of_head? startsToo)
    exact absurd ((upTo.merges_former inv old other).mpr merges) unfit
  | @merged part next starts merges =>
    obtain ⟨old, other⟩ := upTo.streak_former known merges.toStreak starts
    obtain ⟨first, last, proc, entry, exit, branches, fns, isFirst, stops, got, top, isMap, isKind,
        exc, repl⟩ :=
      merges.replaced
    obtain rfl := mem_unique starts isFirst
    have spared (member : ProcessId) (mem : member ∈ part.chain) := upTo.spared inv old other mem
    have kinds := upTo.kindOf_eq inv old other
    have mergesOld := (upTo.merges_former inv old other).mp merges.toMerges
    have gotOld : net.process? id = some proc := upTo.contracts.kept (spared id exc.start_mem) ▸ got
    have sameFns : cur.functionsOf part.chain = net.functionsOf part.chain :=
      flatMap_congr fun member mem => by rw [kinds member mem]
    refine .inr
      ⟨part, merges,
        ⟨merges.ready, ?_, fun {chain} => ?_, ?_, ?_,
        fun {chain first} mergesChain startsChain => ?_, unseen old starts⟩, rfl⟩
    · refine upTo.contracts.snoc inv starts stops gotOld exc repl spared
        (fun earlier mem a onEarlier b onPart => ?_)
        old.once
      have streak := (upTo.merged earlier mem).toStreak
      constructor
      · intro feeds
        have shared := old.mem_of_feeds inv (streak.parallel a onEarlier) feeds onPart
        exact other earlier mem (streak.unique old inv onEarlier shared)
      · intro feeds
        have shared := streak.mem_of_feeds inv (old.parallel b onPart) feeds onEarlier
        exact other earlier mem (streak.unique old inv shared onPart)
    · rw [isKind] at repl
      rw [merges.replaced_iff upTo.ready merges.ready exc repl starts stops, upTo.streaks]
      have apart (earlier : Contraction) (mem : earlier ∈ parts) : [earlier.fresh] ≠ part.chain :=
          fun same => (spared earlier.fresh (same ▸ mem_cons_self) earlier mem).2 rfl
      simp only [mem_append, mem_singleton, or_imp, forall_and, forall_eq, or_and_right, exists_or,
        exists_eq_left]
      constructor
      · rintro ((⟨⟨streak, others⟩, differs⟩ | ⟨isFresh, -⟩) | isFresh)
        · exact .inl ⟨streak, others, Ne.symm differs⟩
        · exact .inr (.inl isFresh)
        · exact .inr (.inr isFresh)
      · rintro (⟨streak, others, differs⟩ | ⟨earlier, mem, rfl⟩ | isFresh)
        · grind
        · grind
        · exact .inr isFresh
    · simp only [mem_append, mem_singleton, or_imp, forall_and, forall_eq]
      rw [kinds id exc.start_mem] at isMap
      refine ⟨upTo.merged, mergesOld,
        ⟨branches, mergesOld.fits.branches_eq starts isMap, by rw [isKind, sameFns]⟩,
        fun {first has} isFirst gotFirst => ?_⟩
      obtain rfl := mem_unique starts isFirst
      exact mem_unique gotOld gotFirst ▸ top
    · rw [map_append, nodup_append]
      refine ⟨upTo.once, nodup_singleton _, fun earlier mem too isLast same => ?_⟩
      obtain ⟨pre, isPart, rfl⟩ := mem_map.mp mem
      exact other pre isPart (same.trans (by simpa using isLast))
    · rcases upTo.complete mergesChain startsChain with mem | ⟨earlier, isPart, same⟩
      · rcases mem_cons.mp mem with rfl | later
        · exact .inr
            ⟨part, by simp, old.unique mergesChain.toStreak inv (mem_of_head? starts)
              (mem_of_head? startsChain)⟩
        · exact .inl later
      · grind

theorem noted (upTo : net.MergedUpTo (id :: rest) parts merging.seen cur) (inv : net.Consistent)
    (known : id ∈ net.ids) (new : id ∉ rest) {result : Edit.Merging}
    (outcome : cur.MergesFrom merging id result next)
    (noted : net.Noted (id :: rest) merging.report.notes) : net.Noted rest result.report.notes := by
  -- What comes in addition are the notes on the streak that begins at this process.
  have step (more : List Diagnostic)
      (here : ∀ note, note ∈ more ↔ ∃ chain, net.Streak chain ∧ chain.head? = some id ∧
        net.NotedAs chain note) : net.Noted rest (merging.report.notes ++ more) := by
    intro note
    rw [mem_append, noted note, here note]
    constructor
    · rintro (⟨chain, streak, outside, isNote⟩ | ⟨chain, streak, starts, isNote⟩)
      · exact ⟨chain, streak, fun first isFirst later =>
          outside first isFirst (mem_cons_of_mem _ later), isNote⟩
      · exact ⟨chain, streak, fun first isFirst => mem_unique starts isFirst ▸ new, isNote⟩
    · rintro ⟨chain, streak, outside, isNote⟩
      obtain ⟨first, starts⟩ := streak.exists_first
      by_cases same : first = id
      · exact .inr ⟨chain, streak, same ▸ starts, isNote⟩
      · refine .inl ⟨chain, streak, fun other isOther => ?_, isNote⟩
        obtain rfl := mem_unique starts isOther
        exact fun mem => (mem_cons.mp mem).elim same (outside first starts)
  have silent (fit : ∀ chain, net.Streak chain → chain.head? = some id → net.Fits chain) :
      net.Noted rest merging.report.notes := by
    have nothing := step [] fun note => ⟨fun mem => absurd mem not_mem_nil, ?_⟩
    · rwa [append_nil] at nothing
    · rintro ⟨chain, streak, starts, _, reason, -, compared, -⟩
      obtain ⟨mismatch, comparedToo, fits⟩ := chainMismatch?_eq streak.exist
      rw [compared] at comparedToo
      cases comparedToo
      cases fits.mpr (fit chain streak starts)
  cases outcome with
  | passed nowhere =>
    refine silent fun chain streak starts => ?_
    by_contra unfit
    rcases nowhere with isSeen | none
    · exact upTo.unseen streak starts mem_cons_self isSeen
    · refine none chain (upTo.streaks.mpr (.inl ⟨streak, fun part mem same => unfit ?_⟩)) starts
      exact same ▸ (upTo.merged part mem).fits
  | @left chain mismatch streak starts unfit compared =>
    obtain ⟨old, other⟩ := upTo.streak_former known streak starts
    rw [chainMismatch?_congr fun first mem => upTo.contracts.kept (upTo.spared inv old other mem)]
      at compared
    refine step _ fun note => ⟨fun mem => ?_, ?_⟩
    · obtain ⟨reason, isReason, rfl⟩ := mem_map.mp mem
      exact ⟨chain, old, starts, id, reason, starts,
        by rw [compared, Option.mem_toList.mp isReason], rfl⟩
    · rintro ⟨too, streakToo, startsToo, first, reason, isFirst, comparedAgain, rfl⟩
      obtain rfl := old.unique streakToo inv (mem_of_head? starts) (mem_of_head? startsToo)
      obtain rfl := mem_unique starts isFirst
      rw [compared] at comparedAgain
      cases comparedAgain
      simp
  | @merged part next starts merges =>
    obtain ⟨old, other⟩ := upTo.streak_former known merges.toStreak starts
    refine silent fun chain streak startsChain => ?_
    obtain rfl := old.unique streak inv (mem_of_head? starts) (mem_of_head? startsChain)
    exact ((upTo.merges_former inv old other).mp merges.toMerges).fits

end MergedUpTo

theorem Ready.ends_mergeParallelMaps (ready : net.Ready) (holds : Network → Prop)
    (start : holds net)
    (keep : ∀ {cur next part}, holds cur → cur.Ready → cur.MergesTo part next → holds next) :
    Edit.mergeParallelMaps.Ends net
      (fun report next => net.Noted [] report.notes ∧ holds next ∧
        ∃ parts, report.applied = parts.length ∧ net.MergedUpTo [] parts [] next)
      fun _ => net.HasNestedMerge := by
  have inv := ready.inv
  unfold Edit.mergeParallelMaps
  simp only [ends_bind, ends_get, ready.legal.ensureFlat_eq, ends_answer, ends_pure]
  refine (ends_foldlM
    (fun rest (merging : Edit.Merging) cur => rest.Nodup ∧ rest ⊆ net.ids ∧
      net.Noted rest merging.report.notes ∧ holds cur ∧
      ∃ parts, merging.report.applied = parts.length ∧ net.MergedUpTo rest parts merging.seen cur)
    ?_ ⟨net.nodup_ids,
      List.Subset.refl _, fun note => ⟨fun mem => absurd mem not_mem_nil, ?_⟩, start, [],
      rfl, ?_⟩).imp ?_
  · rintro id rest merging cur ⟨once, known, noted, held, parts, counted, upTo⟩
    obtain ⟨new, onceRest⟩ := nodup_cons.mp once
    have knownRest : rest ⊆ net.ids := fun other mem => known (mem_cons_of_mem _ mem)
    refine (upTo.ready.ends_mergeFrom merging id).mono (fun result next outcome => ?_)
      fun _ fault => upTo.nestedMerge inv fault
    have notedNext := upTo.noted inv (known mem_cons_self) new outcome noted
    rcases upTo.step inv (known mem_cons_self) new outcome
      with ⟨rfl, upToNext, same⟩ | ⟨part, merges, upToNext, counts⟩
    · exact ⟨onceRest, knownRest, notedNext, held, parts, same.trans counted, upToNext⟩
    · exact ⟨onceRest, knownRest, notedNext, keep held upTo.ready merges,
        parts ++ [part], by simp [counts, counted], upToNext⟩
  · -- All streaks begin at processes that are still to come.
    rintro ⟨chain, streak, outside, -⟩
    obtain ⟨first, starts⟩ := streak.exists_first
    exact absurd (streak.exist (mem_of_head? starts)) (outside first starts)
  · exact ⟨ready, .refl inv, by simp, by simp, by simp,
      fun merges starts => .inl (merges.exist (mem_of_head? starts)), by simp⟩
  · rintro merging next ⟨-, -, noted, held, parts, counted, upTo⟩
    exact ⟨noted, held, parts, counted, upTo.ready, upTo.contracts, upTo.streaks, upTo.merged,
      upTo.once, upTo.complete, by simp⟩

theorem Prepared.ends_mergeParallelMaps (prep : net.Prepared kept) :
    Edit.mergeParallelMaps.Ends net (fun report next => report.Harmless ∧ next.Prepared kept)
      fun _ => False := by
  refine (prep.ready.ends_mergeParallelMaps (Prepared kept) prep fun held _ merges => ?_).mono
    (fun _ _ done => ⟨done.1.harmless, done.2.1⟩) fun _ nestedMerge => ?_
  · obtain ⟨_, _, _, _, _, _, _, -, -, -, top, -, isKind, exc, repl⟩ := merges.replaced
    exact held.replaced merges.ready top exc (by rw [isKind]; rfl) repl
  · obtain ⟨_, _, _, -, -, got, low⟩ := nestedMerge
    exact low (prep.top got)

end Dataflow.Network
