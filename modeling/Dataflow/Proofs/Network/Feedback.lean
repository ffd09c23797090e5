import Dataflow.Proofs.Network.Accepted

/-!
What the searches for feedback loops report.

A loop without a delay is reported for every component of the processes that pass values on within
the tick, and a loop with several delays for every delay on one.
-/

open List

namespace Dataflow.Network

open Relation

variable {net : Network} {id other source target : ProcessId}

/-- A connection within the tick: neither the process that feeds nor the one that is fed is a
delay. -/
def Instant (net : Network) (source target : ProcessId) : Prop :=
  net.Feeds source target ∧ ¬ net.isDelay source ∧ ¬ net.isDelay target

/-- Two processes lead to each other within the tick, or are the same: they are strongly
connected. -/
def SameComponent (net : Network) (id other : ProcessId) : Prop :=
  ReflTransGen net.Instant id other ∧ ReflTransGen net.Instant other id

theorem SameComponent.trans {third : ProcessId} (first : net.SameComponent id other)
    (second : net.SameComponent other third) : net.SameComponent id third :=
  ⟨first.1.trans second.1, second.2.trans first.2⟩

namespace Consistent

variable (consistent : net.Consistent)

include consistent

theorem transGen_instant (leads : TransGen (Graph.Leads net.instantTargets) source target)
    (instant : ¬ net.isDelay target) : TransGen net.Instant source target := by
  induction leads with
  | single leads =>
    obtain ⟨free, feeds⟩ := consistent.leads_instantTargets.mp leads
    exact .single ⟨feeds, free, instant⟩
  | tail _ leads ih =>
    obtain ⟨free, feeds⟩ := consistent.leads_instantTargets.mp leads
    exact (ih free).tail ⟨feeds, free, instant⟩

theorem sameComponent (forth : TransGen (Graph.Leads net.instantTargets) id other)
    (back : TransGen (Graph.Leads net.instantTargets) other id) : net.SameComponent id other := by
  have instant {source target} (leads : TransGen (Graph.Leads net.instantTargets) source target) :
      ¬ net.isDelay source := by
    obtain ⟨next, leads, -⟩ := TransGen.head'_iff.mp leads
    exact (consistent.leads_instantTargets.mp leads).1
  exact ⟨(consistent.transGen_instant forth (instant back)).to_reflTransGen,
    (consistent.transGen_instant back (instant forth)).to_reflTransGen⟩

end Consistent

/--
The search for loops without a delay reports only such loops, each without repetitions, and one for
each component with a loop.

A component consists of the processes that lead to each other and back over connections between
processes that are no delays.
-/
theorem WellFormed.undelayedLoops_cover (wellFormed : net.WellFormed) :
    ∃ loops, net.undelayedLoops = .ok loops ∧
      (∀ loop ∈ loops, loop ≠ [] ∧ loop.Nodup ∧ net.IsLoop loop ∧ ∀ id ∈ loop, ¬ net.isDelay id) ∧
      ∀ id,
        (∃ cycle, Graph.IsLoop net.Instant cycle ∧ ∀ other ∈ cycle, net.SameComponent id other) →
        ∃ loop ∈ loops, ∀ other ∈ loop, net.SameComponent id other := by
  -- The search is confined to the steps of a cycle, so what closes there is in its component.
  have consistent := wellFormed.toConsistent
  obtain ⟨loops, asked, sound, covers⟩ := consistent.undelayedLoops_eq
  refine ⟨loops, asked, fun loop found => ?_, ?_⟩
  · obtain ⟨⟨isLoop, instant⟩, once⟩ := sound loop found
    exact ⟨isLoop.ne_nil, once, isLoop, instant⟩
  · rintro id ⟨cycle, isCycle, inside⟩
    have onCycle : Graph.IsLoop
        (fun source target => net.Instant source target ∧ source ∈ cycle) cycle :=
      isCycle.imp_of_mem fun _ listed _ _ instant => ⟨instant, listed⟩
    obtain ⟨source, target, ⟨-, listed⟩, loop, found, closes⟩ :=
      covers onCycle fun related => ⟨related.1.2.1, related.1.1⟩
    have isLoop := consistent.isLoop_instantTargets.mpr (sound loop found).1
    have onLoop := mem_of_getLast? closes.2
    exact ⟨loop, found, fun other isOther =>
      (inside source listed).trans
      (consistent.sameComponent (isLoop.transGen onLoop isOther) (isLoop.transGen isOther onLoop))⟩

/-- Two copiers in a loop with a third one that feeds itself, and a loop of the third one through a
delay. -/
def selfFed : Network :=
  Operation.build
    (Operation.addAll none [("a", .fanout, ["in"], ["out"]), ("b", .fanout, ["in"], ["back", "on"]),
        ("c", .zip, ["in0", "in1", "in2"], ["out0", "out1"]), ("d", .delay "0", ["in"], ["out"])] ++
      [.connect 1 2, .connect 3 0, .connect 4 5, .connect 8 6, .connect 9 10, .connect 11 7])

/-- The loop of two processes and the process that feeds itself are two components, and one loop is
reported for each. -/
theorem undelayedLoops_cover_selfFed :
    selfFed.WellFormed ∧ selfFed.undelayedLoops.toOption = some [["a", "b"], ["c"]] ∧
    ∃ loops, selfFed.undelayedLoops = .ok loops ∧
      ∃ loop ∈ loops, ∀ other ∈ loop, selfFed.SameComponent "c" other := by
  have reachable : selfFed.Reachable := Reachable.empty.foldl (by simp [Operation.Allowed])
  have wellFormed : selfFed.WellFormed := ⟨reachable.inv, by decide +kernel⟩
  obtain ⟨loops, asked, -, covers⟩ := WellFormed.undelayedLoops_cover wellFormed
  have feeds : selfFed.Feeds "c" "c" := wellFormed.mem_targets.mp (by decide +kernel)
  have instant : selfFed.Instant "c" "c" := ⟨feeds, by decide +kernel, by decide +kernel⟩
  refine ⟨wellFormed, by decide +kernel, loops, asked,
    covers "c" ⟨["c"], ⟨"c", [], rfl, by simpa using instant⟩, ?_⟩⟩
  simpa using ⟨.refl, .refl⟩

/-- The search for loops with several delays reports only such loops, each without repetitions and
no two with the same processes, and a delay is on one that is reported exactly if it is on one at
all. -/
theorem WellFormed.multiDelayLoops_cover (wellFormed : net.WellFormed) :
    ∃ loops, net.multiDelayLoops = .ok loops ∧
      (∀ loop ∈ loops, loop.Nodup ∧ net.IsLoop loop ∧ 2 ≤ loop.countP net.isDelay) ∧
      loops.Pairwise (fun loop other => ¬ ∀ id, id ∈ loop ↔ id ∈ other) ∧
      ∀ delay, net.isDelay delay →
        ((∃ cycle, net.IsLoop cycle ∧ cycle.Nodup ∧ 2 ≤ cycle.countP net.isDelay ∧ delay ∈ cycle) ↔
          ∃ loop ∈ loops, delay ∈ loop) := by
  -- The loops are found without repetition, and sets are compared through their permutations.
  obtain ⟨loops, asked, sound, apart, all⟩ := wellFormed.multiDelayLoops_eq
  refine ⟨loops, asked, fun loop found => ?_,
    apart.imp_of_mem fun {loop other} found foundOther differs same => ?_,
    fun delay delays => ⟨?_, ?_⟩⟩
  · obtain ⟨isLoop, once, many⟩ := sound loop found
    exact ⟨once, isLoop, many⟩
  · exact differs
      ((perm_ext_iff_of_nodup (sound loop found).2.1 (sound other foundOther).2.1).mpr same)
  · rintro ⟨cycle, isLoop, once, many, onCycle⟩
    exact all cycle isLoop once many delay onCycle delays
  · rintro ⟨loop, found, onLoop⟩
    obtain ⟨isLoop, once, many⟩ := sound loop found
    exact ⟨loop, isLoop, once, many, onLoop⟩

/-- Two delays that feed each other, directly one way and past a process on the way back. -/
def delayPair : Network :=
  Operation.build
    (Operation.addAll none [("a", .delay "0", ["in"], ["out"]), ("b", .delay "1", ["in"], ["out"]),
        ("c", .fanout, ["in"], ["out"])] ++
      [.connect 1 2, .connect 3 4, .connect 5 0])

/-- The loop of the two delays is found from both of them, and reported once. -/
theorem multiDelayLoops_cover_delayPair :
    delayPair.WellFormed ∧ delayPair.multiDelayLoops.toOption = some [["a", "b", "c"]] ∧
    ∃ cycle, delayPair.IsLoop cycle ∧ cycle.Nodup ∧ 2 ≤ cycle.countP delayPair.isDelay ∧
      "b" ∈ cycle := by
  have reachable : delayPair.Reachable := Reachable.empty.foldl (by simp [Operation.Allowed])
  have wellFormed : delayPair.WellFormed := ⟨reachable.inv, by decide +kernel⟩
  have listed : delayPair.multiDelayLoops.toOption = some [["a", "b", "c"]] := by decide +kernel
  obtain ⟨loops, asked, -, -, all⟩ := WellFormed.multiDelayLoops_cover wellFormed
  rw [asked] at listed
  cases listed
  exact ⟨wellFormed, by
    rw [asked]; rfl, (all "b" (by decide +kernel)).mpr ⟨_, mem_cons_self, by simp⟩⟩

/-- A list of processes that is reported starts at the delay whose search came upon these processes
first.  So it starts at the lowest one of its delays exactly if the search from that one comes upon
the same processes. Where it comes upon others, those are reported too. -/
theorem WellFormed.multiDelayLoops_start (wellFormed : net.WellFormed) :
    ∃ loops, net.multiDelayLoops = .ok loops ∧
      ∀ loop ∈ loops, ∃ start rest, loop = start :: rest ∧ net.isDelay start ∧
        ∀ lowest ∈ loop, net.isDelay lowest → (∀ other ∈ loop, net.isDelay other → lowest ≤ other) →
          ∃ own, net.multiDelayLoop? lowest = some own ∧
            (start = lowest ↔ own.Perm loop) ∧
            ∃ other ∈ loops, other.Perm own := by
  have consistent := wellFormed.toConsistent
  obtain ⟨-, within, all⟩ :=
    Consistent.distinctLoops ((net.ids.filter net.isDelay).filterMap net.multiDelayLoop?) [] .nil
  refine ⟨_, consistent.multiDelayLoops_ok, fun loop kept => ?_⟩
  obtain ⟨front, back, split, first⟩ := (within loop kept).resolve_left not_mem_nil
  obtain ⟨before, _, delays, rfl, found⟩ := filterMap_eq_append_iff.mp split
  obtain ⟨skipped, start, behind, rfl, none, finds, -⟩ := filterMap_eq_cons_iff.mp found
  obtain ⟨head, isLoop, once, many⟩ := consistent.isLoop_of_multiDelayLoop? finds
  obtain ⟨rest, rfl⟩ := head?_eq_some_iff.mp head
  have isStart : start ∈ net.ids.filter net.isDelay := by simp [delays]
  refine ⟨start, rest, rfl, (mem_filter.mp isStart).2, fun lowest onLoop delayed least => ?_⟩
  obtain ⟨own, findsOwn⟩ := consistent.exists_multiDelayLoop? isLoop once many onLoop
  obtain ⟨next, -, feeds⟩ := isLoop.exists_next onLoop
  have listed : lowest ∈ net.ids.filter net.isDelay :=
    mem_filter.mpr ⟨(consistent.mem_ids_of_feeds feeds).1, delayed⟩
  refine ⟨own, findsOwn, ⟨?_, fun same => ?_⟩,
    all own (.inr (mem_filterMap.mpr ⟨lowest, listed, findsOwn⟩))⟩
  · rintro rfl
    rw [Option.mem_unique findsOwn finds]
  · -- A lower delay is searched from before the start, and no one before it came upon these
    -- processes.
    by_contra differ
    have ordered : (net.ids.filter net.isDelay).Pairwise (compare · · = .lt) :=
      Std.TreeMap.ordered_keys.filter _
    rw [delays] at listed ordered
    rcases mem_append.mp listed with earlier | later
    · exact first own (mem_filterMap.mpr ⟨lowest, earlier, findsOwn⟩) same
    rcases mem_append.mp later with isSkipped | later
    · simp [none lowest isSkipped] at findsOwn
    rcases mem_cons.mp later with rfl | later
    · exact differ rfl
    · have higher :=
        rel_of_pairwise_cons (pairwise_append.mp (pairwise_append.mp ordered).2.1).2.1 later
      exact String.not_lt.mpr (least start mem_cons_self (mem_filter.mp isStart).2)
        (compareOfLessAndEq_eq_lt.mp higher)

/-- A delay on two loops, each of which passes one of two other delays. -/
def sharedDelay : Network :=
  Operation.build
    (Operation.addAll none [("a", .delay "0", ["in"], ["out"]), ("b", .delay "1", ["in"], ["out"]),
        ("c", .delay "2", ["in"], ["out"]), ("f", .fanout, ["in"], ["out0", "out1"]),
        ("z", .zip, ["in0", "in1"], ["out"])] ++
      [.connect 1 6, .connect 7 2, .connect 8 4, .connect 3 9, .connect 5 10, .connect 11 0])

theorem wellFormed_sharedDelay : sharedDelay.WellFormed :=
  ⟨(Reachable.empty.foldl (by simp [Operation.Allowed]) : sharedDelay.Reachable).inv,
    by decide +kernel⟩

theorem multiDelayLoops_sharedDelay :
    sharedDelay.multiDelayLoops = .ok [["a", "f", "b", "z"], ["c", "z", "a", "f"]] := by
  have mem : sharedDelay.multiDelayLoops.toOption =
    some [["a", "f", "b", "z"], ["c", "z", "a", "f"]] := by decide +kernel
  cases asked : sharedDelay.multiDelayLoops with
  | error fault => simp [asked, Except.toOption] at mem
  | ok loops =>
    rw [asked] at mem
    cases mem
    rfl

/-- The second loop does not start at the shared delay, as the search from there comes upon the
first loop. -/
theorem multiDelayLoops_start_sharedDelay :
    sharedDelay.WellFormed ∧
    ∃ own, sharedDelay.multiDelayLoop? "a" = some own ∧
      ("c" = "a" ↔ own.Perm ["c", "z", "a", "f"]) := by
  obtain ⟨loops, asked, all⟩ := WellFormed.multiDelayLoops_start wellFormed_sharedDelay
  rw [multiDelayLoops_sharedDelay] at asked
  cases asked
  obtain ⟨start, rest, split, -, lowest⟩ := all ["c", "z", "a", "f"] (by simp)
  cases split
  obtain ⟨own, finds, starts, -⟩ := lowest "a" (by simp) (by decide +kernel) (by decide +kernel)
  exact ⟨wellFormed_sharedDelay, own, finds, starts⟩

/-- Not every loop that is reported starts at its lowest delay. -/
theorem multiDelayLoops_start_higher :
    sharedDelay.WellFormed ∧
    ¬ ∀ loops, sharedDelay.multiDelayLoops = .ok loops →
      ∀ loop ∈ loops, ∀ other ∈ loop, sharedDelay.isDelay other →
        ∃ start ∈ loop.head?, start ≤ other := by
  refine ⟨wellFormed_sharedDelay, fun always => ?_⟩
  have lowest :=
    always _ multiDelayLoops_sharedDelay ["c", "z", "a", "f"] (by simp) "a" (by simp)
      (by decide +kernel)
  exact absurd lowest (by decide)

end Dataflow.Network
