import Dataflow.Proofs.Transform.Condense

/-! Merging leaves one parallel map of a row of them. -/

open List

namespace Dataflow

open Segment

variable {rim : Rim} {count : Nat} {net next : Network} {id first last src dst : ProcessId}
  {chain : List ProcessId}
  {fns : List Func} {kept : Network → Prop} {maps : List (ProcessId × List Func)} {type : DataType}

theorem Segment.entryOf_maps :
    entryOf (maps.map fun map => .single map.1 map.2) = (maps.map Prod.fst).head? := by
  rw [entryOf, head?_map, Option.map_map, head?_map]
  rfl

theorem Segment.exitOf_maps :
    exitOf (maps.map fun map => .single map.1 map.2) = (maps.map Prod.fst).getLast? := by
  rw [exitOf, getLast?_map, Option.map_map, getLast?_map]
  rfl

namespace Row

variable (row : Row rim count (maps.map fun map => .single map.1 map.2) net)

include row

theorem streak (intact : rim.Intact) (ready : net.Ready) : net.Streak (maps.map Prod.fst) := by
  have par : ∀ id ∈ maps.map Prod.fst, net.isParallelMap id := forall_mem_map.mpr fun map mem =>
    (row.stands _ (mem_map_of_mem mem)).isParallelMap
  have stretch : net.Stretch (maps.map Prod.fst) := by
    have linked := (isChain_map _).mp row.linked
    refine ready.legal.stretch par ((isChain_map _).mpr linked) ?_
    refine pairwise_map.mpr ((pairwise_map.mp row.apart).imp fun apart same => ?_)
    exact apart mem_cons_self (same ▸ mem_cons_self)
  obtain ⟨first, last, enter, leave, enters, leaves, around⟩ := row.around
  rw [entryOf_maps] at enters
  rw [exitOf_maps] at leaves
  have outer {id} (isEnd : id ∈ rim.ends) : ¬ net.isParallelMap id := by
    obtain ⟨proc, fn, got, isMap⟩ := around.exists_process intact isEnd
    exact (Network.passes_of_isMap got isMap).2.2
  -- The source is no parallel map, and neither is the sink.
  refine ⟨stretch, ne_nil_of_mem (mem_of_head? enters), fun head isHead src feeds => ?_,
    fun final isFinal dst feeds => ?_⟩
  · obtain rfl := Option.mem_unique enters isHead
    rw [(stretch.simple first (mem_of_head? enters)).source_unique ready.inv feeds
      (around.feeds_first intact)]
    exact outer (by simp [Rim.ends])
  · obtain rfl := Option.mem_unique leaves isFinal
    rw [(stretch.simple last (mem_of_getLast? leaves)).target_unique ready.inv feeds
      (around.feeds_sink intact)]
    exact outer (by simp [Rim.ends])

theorem eq_of_streak (intact : rim.Intact) (ready : net.Ready) (streak : net.Streak chain) :
    chain = maps.map Prod.fst := by
  obtain ⟨id, mem⟩ := exists_mem_of_ne_nil _ streak.filled
  obtain ⟨proc, got, -⟩ := (Option.any_eq_true _ _).mp (streak.parallel id mem)
  rcases row.covers got with isEnd | ⟨seg, isSeg, isMem⟩
  · obtain ⟨first, last, enter, leave, -, -, around⟩ := row.around
    obtain ⟨too, fn, gotToo, isMap⟩ := around.exists_process intact isEnd
    exact absurd (streak.parallel id mem) (Network.passes_of_isMap gotToo isMap).2.2
  · obtain ⟨map, isMap, rfl⟩ := mem_map.mp isSeg
    obtain rfl := mem_singleton.mp isMem
    exact streak.unique (row.streak intact ready) ready.inv mem (mem_map_of_mem isMap)

theorem functionsOf_eq : net.functionsOf (maps.map Prod.fst) = maps.flatMap Prod.snd := by
  rw [Network.functionsOf, flatMap_map]
  refine flatMap_congr fun map mem => ?_
  rw [(row.stands _ (mem_map_of_mem mem)).2]
  rfl

/-- The parallel maps of a row fit to each other, if all functions take and give the same type. -/
theorem fits (intact : rim.Intact) (ready : net.Ready)
    (typed : ∀ fn ∈ maps.flatMap Prod.snd, fn.inputType? = some type ∧ fn.outputType = type) :
    net.Fits (maps.map Prod.fst) := by
  refine (isChain_map _).mpr (List.IsChain.imp_of_mem_imp (fun map other mem memOther _ => ?_)
    ((isChain_map _).mp (row.streak intact ready).chained))
  have kinds {map} (mem : map ∈ maps) : net.kindOf map.1 = .parallelMap (UInt64.ofNat count) map.2 ∧
      map.2 ≠ [] := by
    have stands := row.stands _ (mem_map_of_mem mem)
    have some :=
      ready.legal.functions_ne_nil (Network.isMapShaped_of_isParallelMap stands.isParallelMap)
    rw [stands.2] at some
    exact ⟨stands.2, some⟩
  obtain ⟨isMap, some⟩ := kinds mem
  obtain ⟨isMapOther, someOther⟩ := kinds memOther
  obtain ⟨fn, rest, isHead⟩ := exists_cons_of_ne_nil someOther
  have consumes := (typed fn (mem_flatMap.mpr ⟨other, memOther, by simp [isHead]⟩)).1
  have produces := (typed _ (mem_flatMap.mpr ⟨map, mem, getLast_mem some⟩)).2
  simp [isMap, isMapOther, Network.mismatch?, isHead, consumes,
    getLast?_eq_some_getLast some, produces]

theorem merged (intact : rim.Intact) (ready : net.Ready) {part : Contraction}
    (merges : net.MergesTo part next) :
    ∃ id, Row rim count [.single id (maps.flatMap Prod.snd)] next := by
  obtain ⟨first, last, proc, entry, exit, branches, fns, starts, stops, -, -, isMap, isKind, exc,
    repl⟩ := merges.replaced
  have whole := row.eq_of_streak intact ready merges.toStreak
  rw [whole] at starts stops isKind exc repl
  obtain ⟨map, mem, rfl⟩ := mem_map.mp (mem_of_head? starts)
  obtain ⟨rfl, -⟩ := Kind.parallelMap.inj (isMap.symm.trans (row.stands _ (mem_map_of_mem mem)).2)
  rw [isKind, row.functionsOf_eq] at repl
  refine ⟨part.fresh,
    (repl.exchange_single row.evolves intact exc (fun id => ?_) (entryOf_maps.trans starts)
      (exitOf_maps.trans stops)).whole row intact⟩
  simp [Within, members]

end Row

theorem Fused.ends_mergeParallelMaps (fused : Fused rim count fns net) (intact : rim.Intact)
    (prep : net.Prepared kept)
    (typed : ∀ fn ∈ fns, fn.inputType? = some type ∧ fn.outputType = type) :
    Edit.mergeParallelMaps.Ends net (fun _ next => ∃ id, Row rim count [.single id fns] next)
      fun _ => False := by
  obtain ⟨maps, row, rfl⟩ := fused
  have ready := prep.ready
  have streak := row.streak intact ready
  refine (ready.ends_mergeParallelMaps
    (fun cur => cur = net ∨ ∃ id, Row rim count [.single id (maps.flatMap Prod.snd)] cur)
    (.inl rfl) ?_).mono ?_ ?_
  · rintro cur next part (rfl | ⟨id, single⟩) readyCur merges
    · exact .inr (row.merged intact readyCur merges)
    · -- One parallel map alone is not merged.
      have rowOfOne : Row rim count
        ([(id, maps.flatMap Prod.snd)].map fun map => .single map.1 map.2) cur := single
      have several := merges.several
      rw [rowOfOne.eq_of_streak intact readyCur merges.toStreak] at several
      exact absurd several (by simp)
  · rintro report next ⟨-, rfl | done, parts, -, upTo⟩
    · have short : ¬ 1 < (maps.map Prod.fst).length := fun several => by
        obtain ⟨first, starts⟩ := streak.exists_first
        rcases upTo.complete ⟨streak, several, row.fits intact ready typed⟩ starts
          with mem | ⟨part, mem, same⟩
        · cases mem
        · obtain ⟨proc, got⟩ := Network.mem_ids.mp (streak.exist (mem_of_head? starts))
          simp [upTo.contracts.gone part mem first (same ▸ mem_of_head? starts)] at got
      have some := length_pos_of_ne_nil streak.filled
      rw [length_map] at short some
      obtain ⟨map, rfl⟩ := length_eq_one_iff.mp (show maps.length = 1 by omega)
      exact ⟨map.1, by simpa using row⟩
    · exact done
  · rintro next ⟨_, _, _, -, -, got, low⟩
    exact low (prep.top got)

end Dataflow
