import Dataflow.Drawing.Basic
import Dataflow.Proofs.Network.Feedback

/-!
Which connections a drawing highlights.

They lie on loops without a delay. Every such loop has one of them, and all of its connections are
highlighted if it shares none with another loop.
-/

open List

namespace Dataflow

theorem Graph.isLoop_iff_zip {α : Type} {r : α → α → Prop} {loop : List α} :
    IsLoop r loop ↔
      loop ≠ [] ∧ ∀ src dst, (src, dst) ∈ loop.zip (loop.drop 1 ++ loop.take 1) → r src dst := by
  cases loop with
  | nil => simp [IsLoop]
  | cons first rest =>
    have closes : IsLoop r (first :: rest) ↔ (first :: (rest ++ [first])).IsChain r := by
      simp [IsLoop]
    rw [closes, isChain_cons_iff_forall₂, forall₂_iff_zip]
    simp

namespace Network

variable {net : Network}

/-- A loop without repetitions that passes no delay. -/
def IsUndelayed (net : Network) (loop : List ProcessId) : Prop :=
  net.IsLoop loop ∧ loop.Nodup ∧ ∀ id ∈ loop, ¬ net.isDelay id

theorem IsUndelayed.pairs {loop : List ProcessId} (undelayed : net.IsUndelayed loop) :
    Graph.IsLoop
      (fun src dst => (¬ net.isDelay src ∧ net.Feeds src dst) ∧ (src, dst) ∈ loopPairs loop)
      loop := by
  obtain ⟨isLoop, -, instant⟩ := undelayed
  exact Graph.isLoop_iff_zip.mpr ⟨isLoop.ne_nil, fun src dst isPair =>
    ⟨⟨instant src (of_mem_zip isPair).1, (Graph.isLoop_iff_zip.mp isLoop).2 src dst isPair⟩,
    isPair⟩⟩

/-- The highlighted connections lie on loops without a delay, and every such loop has one of them.

They are all the connections on such loops if loops that share a connection share all of them. -/
theorem WellFormed.loopEdges_cover (wellFormed : net.WellFormed) :
    ∃ edges, net.loopEdges = .ok edges ∧
      (∀ source target, (source, target) ∈ edges →
        net.Feeds source target ∧
        ∃ loop, net.IsUndelayed loop ∧ (source, target) ∈ loopPairs loop) ∧
      (∀ loop, net.IsUndelayed loop → ∃ pair ∈ loopPairs loop, pair ∈ edges) ∧
      ((∀ loop other, net.IsUndelayed loop → net.IsUndelayed other →
        ∀ pair ∈ loopPairs loop, pair ∈ loopPairs other → loopPairs loop ⊆ loopPairs other) →
        ∀ source target, (source, target) ∈ edges ↔
          net.Feeds source target ∧
          ∃ loop, net.IsUndelayed loop ∧ (source, target) ∈ loopPairs loop) := by
  obtain ⟨loops, asked, sound, covers⟩ := wellFormed.undelayedLoops_eq
  have found {loop : List ProcessId} (isFound : loop ∈ loops) : net.IsUndelayed loop := by
    obtain ⟨⟨isLoop, instant⟩, once⟩ := sound loop isFound
    exact ⟨isLoop, once, instant⟩
  have edges : net.loopEdges = .ok (loops.flatMap loopPairs) := by
    rw [loopEdges, asked]
    rfl
  have onLoop (source target : ProcessId) (marked : (source, target) ∈ loops.flatMap loopPairs) :
      net.Feeds source target ∧ ∃ loop, net.IsUndelayed loop ∧
      (source, target) ∈ loopPairs loop := by
    obtain ⟨loop, isFound, isPair⟩ := mem_flatMap.mp marked
    exact ⟨(Graph.isLoop_iff_zip.mp (found isFound).1).2 source target isPair, loop,
      found isFound, isPair⟩
  -- A step of the loop closes one that is found, and is the last pair of that one.
  have meets (loop : List ProcessId) (undelayed : net.IsUndelayed loop) :
      ∃ other ∈ loops, ∃ pair ∈ loopPairs loop, pair ∈ loopPairs other := by
    obtain ⟨source, target, ⟨-, isPair⟩, other, isFound, first, last⟩ :=
      covers undelayed.pairs fun related => related.1
    obtain ⟨head, rest, rfl, chain⟩ := (found isFound).pairs
    cases first
    exact ⟨_, isFound, _, isPair, ((Graph.isChain_concat.mp chain).2 source last).2⟩
  refine ⟨_, edges, onLoop, fun loop undelayed => ?_, fun apart source target =>
    ⟨onLoop source target, ?_⟩⟩
  · obtain ⟨other, isFound, pair, isPair, shared⟩ := meets loop undelayed
    exact ⟨pair, isPair, mem_flatMap.mpr ⟨other, isFound, shared⟩⟩
  · rintro ⟨-, loop, undelayed, isPair⟩
    obtain ⟨other, isFound, pair, onBoth, shared⟩ := meets loop undelayed
    exact mem_flatMap.mpr
      ⟨other, isFound, apart loop other undelayed (found isFound) pair onBoth shared isPair⟩

/-- Two processes that feed each other. -/
def mutualPair : Network :=
  Operation.build
    (Operation.addAll none [("a", .fanout, ["in"], ["out"]), ("b", .fanout, ["in"], ["out"])] ++
      [.connect 1 2, .connect 3 0])

/-- All loops of two processes that feed each other have the same connections, which are
highlighted. -/
theorem loopEdges_cover_mutualPair :
    mutualPair.WellFormed ∧
    ∃ edges, mutualPair.loopEdges = .ok edges ∧
      ∀ source target, (source, target) ∈ edges ↔
        mutualPair.Feeds source target ∧
        ∃ loop, mutualPair.IsUndelayed loop ∧ (source, target) ∈ loopPairs loop := by
  have reachable : mutualPair.Reachable := Reachable.empty.foldl (by simp [Operation.Allowed])
  have wellFormed : mutualPair.WellFormed := ⟨reachable.inv, by decide +kernel⟩
  obtain ⟨edges, asked, -, -, exact⟩ := WellFormed.loopEdges_cover wellFormed
  refine ⟨wellFormed, edges, asked, exact fun loop other undelayed undelayedToo _ _ _ => ?_⟩
  have feeds {source target : ProcessId} (feeds : mutualPair.Feeds source target) :
      (source, target) = ("a", "b") ∨ (source, target) = ("b", "a") := by
    have all : ∀ source ∈ mutualPair.ids, ∀ target ∈ mutualPair.targets source,
        (source, target) = ("a", "b") ∨ (source, target) = ("b", "a") := by decide +kernel
    exact all source (wellFormed.mem_ids_of_feeds feeds).1 target (wellFormed.mem_targets.mpr feeds)
  -- From a process of the other loop two steps lead over both connections.
  obtain ⟨start, isStart⟩ := exists_mem_of_ne_nil other undelayedToo.1.ne_nil
  obtain ⟨second, isSecond, ⟨-, first⟩, isFirst⟩ := undelayedToo.pairs.exists_next isStart
  obtain ⟨third, -, ⟨-, next⟩, isNext⟩ := undelayedToo.pairs.exists_next isSecond
  rintro ⟨source, target⟩ isPair
  have step := feeds ((Graph.isLoop_iff_zip.mp undelayed.1).2 source target isPair)
  grind

/-- A process with a direct way to another one and a way past a third one, and the way back. -/
def detour : Network :=
  Operation.build
    (Operation.addAll none [("a", .fanout, ["in"], ["out0", "out1"]),
        ("b", .zip, ["in0", "in1"], ["out"]), ("c", .fanout, ["in"], ["out"])] ++
      [.connect 1 3, .connect 2 6, .connect 7 4, .connect 5 0])

/-- The loop past the third process is not highlighted beyond what it shares with the other one. -/
theorem loopEdges_cover_detour :
    detour.WellFormed ∧ detour.Feeds "a" "c" ∧ detour.IsUndelayed ["a", "c", "b"] ∧
    ("a", "c") ∈ loopPairs ["a", "c", "b"] ∧
    ∀ edges, detour.loopEdges = .ok edges → ("a", "c") ∉ edges := by
  have reachable : detour.Reachable := Reachable.empty.foldl (by simp [Operation.Allowed])
  have wellFormed : detour.WellFormed := ⟨reachable.inv, by decide +kernel⟩
  have feeds {source target : ProcessId} (listed : target ∈ detour.targets source) :
      detour.Feeds source target :=
    wellFormed.mem_targets.mp listed
  refine ⟨wellFormed, feeds (by decide +kernel), ⟨⟨_, _, rfl, ?_⟩, by decide, by decide +kernel⟩,
    by decide, fun edges asked => ?_⟩
  · simp only [cons_append, nil_append, isChain_cons_cons, isChain_singleton, and_true]
    refine ⟨feeds ?_, feeds ?_, feeds ?_⟩ <;> decide +kernel
  · have listed : detour.loopEdges.toOption = some [("a", "b"), ("b", "a")] := by decide +kernel
    rw [asked] at listed
    cases listed
    decide

end Network

end Dataflow
