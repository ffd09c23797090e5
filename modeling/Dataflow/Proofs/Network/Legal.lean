import Dataflow.Network.Validation
import Dataflow.Proofs.Graph.Search
import Dataflow.Proofs.Network.Flow

/-! Legal networks: what it means that validation finds nothing. -/

open List

namespace Dataflow

open Relation

theorem forM_eq_ok {α β : Type} {question : α → Except Fault β} {ans : α → β} {entries : List α}
    (answered : ∀ entry ∈ entries, question entry = .ok (ans entry)) :
    entries.forM (fun entry => discard (question entry)) = .ok () := by
  induction entries with
  | nil => rfl
  | cons entry entries ih =>
    have rest := ih fun other mem => answered other (mem_cons_of_mem _ mem)
    change discard (question entry) >>=
      (fun _ => entries.forM fun entry => discard (question entry)) = .ok ()
    rw [answered entry mem_cons_self]
    exact rest

namespace Network

variable {net : Network} {id src dst : ProcessId} {loop : List ProcessId}

/-- A network that can be compiled. -/
structure Legal (net : Network) : Prop where
  leaves : ∀ {id process}, net.process? id = some process → process.kind.isLeaf
  fits : ∀ {id process}, net.process? id = some process → process.defect? = none
  unconnected : ∀ {key port}, net.isBoundary key → net.port? key = some port →
    port.connection = none
  delayed : ∀ {loop}, net.IsLoop loop → ∃ id ∈ loop, net.isDelay id
  single : ∀ {loop}, net.IsLoop loop → loop.Nodup → loop.countP net.isDelay ≤ 1

/-- Delays lie on loops as they should if every loop comes from one that they did. -/
theorem Legal.loops {next : Network} (legal : net.Legal)
    (traced : ∀ loop, next.IsLoop loop → loop.Nodup →
      ∃ old, net.IsLoop old ∧ old.Nodup ∧ old.countP net.isDelay = loop.countP next.isDelay) :
    (∀ loop, next.IsLoop loop → ∃ id ∈ loop, next.isDelay id) ∧
      ∀ loop, next.IsLoop loop → loop.Nodup → loop.countP next.isDelay ≤ 1 := by
  constructor
  · intro loop isLoop
    obtain ⟨short, isShort, once, inside⟩ := isLoop.exists_nodup
    obtain ⟨old, isOld, -, counted⟩ := traced short isShort once
    obtain ⟨delay, onOld, delays⟩ := legal.delayed isOld
    have positive : 0 < short.countP next.isDelay :=
      counted ▸ countP_pos_iff.mpr ⟨delay, onOld, delays⟩
    obtain ⟨id, onShort, isDelay⟩ := countP_pos_iff.mp positive
    exact ⟨id, inside onShort, isDelay⟩
  · intro loop isLoop once
    obtain ⟨old, isOld, onceOld, counted⟩ := traced loop isLoop once
    exact counted ▸ legal.single isOld onceOld

namespace Consistent

section

variable (inv : net.Consistent)

include inv

theorem mem_ids_of_feeds (feeds : net.Feeds src dst) : src ∈ net.ids ∧ dst ∈ net.ids :=
  ⟨mem_ids.mpr (inv.exists_source feeds), mem_ids.mpr (inv.exists_target feeds)⟩

theorem leads_instantTargets :
    Graph.Leads net.instantTargets src dst ↔ ¬ net.isDelay src ∧ net.Feeds src dst := by
  unfold Graph.Leads instantTargets
  by_cases delays : net.isDelay src
  · simp [delays]
  · simp [delays, inv.mem_targets]

theorem isLoop_instantTargets :
    Graph.IsLoop (Graph.Leads net.instantTargets) loop ↔
      net.IsLoop loop ∧ ∀ id ∈ loop, ¬ net.isDelay id := by
  constructor
  · intro isLoop
    refine ⟨isLoop.imp_of_mem fun _ _ _ _ leads => (inv.leads_instantTargets.mp leads).2,
      fun id mem => ?_⟩
    obtain ⟨other, -, leads⟩ := isLoop.exists_next mem
    exact (inv.leads_instantTargets.mp leads).1
  · rintro ⟨isLoop, instant⟩
    exact isLoop.imp_of_mem fun id mem _ _ feeds =>
      inv.leads_instantTargets.mpr ⟨instant id mem, feeds⟩

theorem successors_eq (mem : id ∈ net.ids) : net.successors id = .ok (net.across id .output) := by
  obtain ⟨proc, got⟩ := mem_ids.mp mem
  exact inv.neighbours_eq got .output

theorem undelayedLoops_eq :
    ∃ loops, net.undelayedLoops = .ok loops ∧
      (∀ loop ∈ loops, (net.IsLoop loop ∧ ∀ id ∈ loop, ¬ net.isDelay id) ∧ loop.Nodup) ∧
      ∀ {r cycle}, Graph.IsLoop r cycle →
        (∀ {src dst}, r src dst → ¬ net.isDelay src ∧ net.Feeds src dst) →
        ∃ src dst, r src dst ∧ ∃ loop ∈ loops, Graph.Closes loop src dst := by
  have asked : (net.ids.filter (!net.isDelay ·)).forM (fun id => discard (net.successors id)) =
      .ok () :=
    forM_eq_ok fun id mem => inv.successors_eq (mem_of_mem_filter mem)
  refine ⟨Graph.loops net.instantTargets net.searchDepth net.ids,
    by rw [undelayedLoops, asked]; rfl, fun loop has => ?_,
    fun isLoop leads => Graph.exists_closes_loops (fun src dst leads =>
      inv.mem_ids_of_feeds (inv.leads_instantTargets.mp leads).2) ?_ isLoop
      fun rel => inv.leads_instantTargets.mpr (leads rel)⟩
  · rw [← inv.isLoop_instantTargets]
    exact Graph.isLoop_of_mem_loops has
  · rw [length_ids, searchDepth]
    omega

theorem leads_sources : Graph.Leads net.sources dst src ↔ net.Feeds src dst := by
  simp only [Graph.Leads, sources, mem_filter, decide_eq_true_eq, inv.mem_targets]
  exact ⟨fun both => both.2, fun feeds => ⟨(inv.mem_ids_of_feeds feeds).1, feeds⟩⟩

theorem leads_targets : Graph.Leads net.targets = net.Feeds := by
  funext src dst
  exact propext inv.mem_targets

theorem isLoop_of_multiDelayLoop? (finds : net.multiDelayLoop? id = some loop) :
    loop.head? = some id ∧ net.IsLoop loop ∧ loop.Nodup ∧ 1 < loop.countP net.isDelay := by
  rw [multiDelayLoop?] at finds
  split at finds
  · obtain ⟨rest, rfl, chain, once, accepted⟩ :=
      @Graph.closedPath?_sound _ _ [] _ _ _ _ _ net.searchDepth (by simp) (by simp) _ finds
    rw [inv.leads_targets] at chain
    exact ⟨rfl, ⟨id, rest, rfl, chain⟩, once, by simpa using accepted⟩
  · cases finds

theorem exists_multiDelayLoop? (isLoop : net.IsLoop loop) (once : loop.Nodup)
    (many : 1 < loop.countP net.isDelay) (onLoop : id ∈ loop) :
    ∃ has, net.multiDelayLoop? id = some has := by
  obtain ⟨rest, perm, isLoop⟩ := isLoop.rotate onLoop
  rw [← perm.nodup_iff] at once
  rw [← perm.countP_eq] at many
  have known : id :: rest ⊆ net.ids := fun other onLoop => by
    obtain ⟨next, -, feeds⟩ := isLoop.exists_next onLoop
    exact (inv.mem_ids_of_feeds feeds).1
  -- Every process of the loop leads back to the one it is searched from.
  have back : id :: rest ⊆ Graph.reach net.sources net.searchDepth id [] := fun other onLoop => by
    have closed : ∀ node ∈ net.ids, net.sources node ⊆ net.ids := fun node _ src leads =>
      (inv.mem_ids_of_feeds (inv.leads_sources.mp leads)).1
    refine Graph.mem_reach closed (known mem_cons_self) ?_ ?_
    · rw [length_ids, searchDepth]
      omega
    · have backwards : Graph.Leads net.sources = Function.swap net.Feeds := by
        funext src dst
        exact propext inv.leads_sources
      rw [backwards, transGen_swap]
      exact isLoop.transGen onLoop mem_cons_self
  obtain ⟨first, others, same, chain⟩ := isLoop
  obtain ⟨rfl, rfl⟩ := List.cons.inj same
  have short : rest.length < net.searchDepth := by
    have inside := (subperm_of_subset once known).length_le
    rw [length_cons, length_ids] at inside
    rw [searchDepth]
    omega
  rw [← inv.leads_targets] at chain
  rw [multiDelayLoop?, if_pos (back mem_cons_self)]
  exact Option.isSome_iff_exists.mp <|
    @Graph.isSome_closedPath? _ _ [id] id _ _ (fun path => 1 < path.countP net.isDelay) id
    net.searchDepth rest chain once
    (fun other onLoop => back (mem_cons_of_mem _ onLoop)) (nodup_cons.mp once).1
      (decide_eq_true many) short

end

theorem distinctLoops (has loops : List (List ProcessId)) (apart : loops.Pairwise (¬ ·.Perm ·)) :
    let kept :=
      has.foldl
        (fun loops loop => if loops.any (·.isPerm loop) then loops else loops ++ [loop]) loops
    kept.Pairwise (¬ ·.Perm ·) ∧
      (∀ loop ∈ kept, loop ∈ loops ∨ ∃ front back, has = front ++ loop :: back ∧
      ∀ other ∈ loops ++ front, ¬ other.Perm loop) ∧ ∀ loop, loop ∈ loops ∨ loop ∈ has →
      ∃ other ∈ kept, other.Perm loop := by
  induction has generalizing loops with
  | nil => exact ⟨apart, fun loop => .inl, fun loop mem => ⟨loop, by simpa using mem, .refl _⟩⟩
  | cons loop has ih =>
    rw [foldl_cons]
    split
    · -- A loop is dropped only behind one that was kept before it.
      rename_i same
      obtain ⟨other, kept, isPerm⟩ := any_eq_true.mp same
      rw [isPerm_iff] at isPerm
      obtain ⟨once, within, all⟩ := ih loops apart
      refine ⟨once, fun third mem => (within third mem).imp_right ?_, fun third mem => ?_⟩
      · rintro ⟨front, back, rfl, first⟩
        refine ⟨loop :: front, back, rfl,
          forall_mem_append.mpr
          ⟨(forall_mem_append.mp first).1,
            forall_mem_cons.mpr ⟨fun same => ?_, (forall_mem_append.mp first).2⟩⟩⟩
        exact first other (mem_append_left _ kept) (isPerm.trans same)
      · rcases mem with mem | mem
        · exact all third (.inl mem)
        rcases mem_cons.mp mem with rfl | mem
        · obtain ⟨last, isKept, same⟩ := all other (.inl kept)
          exact ⟨last, isKept, same.trans isPerm⟩
        · exact all third (.inr mem)
    · rename_i fresh
      simp only [any_eq_true, isPerm_iff, not_exists, not_and] at fresh
      obtain ⟨once, within, all⟩ :=
        ih (loops ++ [loop])
          (pairwise_append.mpr ⟨apart, pairwise_singleton _ _, by simpa using fresh⟩)
      refine ⟨once, fun third mem => ?_, fun third mem => all third ?_⟩
      · rcases within third mem with mem | ⟨front, back, rfl, first⟩
        · rcases mem_append.mp mem with pre | here
          · exact .inl pre
          · exact .inr
              ⟨[],
                has,
                by rw [mem_singleton.mp here]; rfl, by simpa [mem_singleton.mp here] using fresh⟩
        · exact .inr ⟨loop :: front, back, rfl, by simpa using first⟩
      · simp only [mem_append, mem_cons, not_mem_nil, or_false] at mem ⊢
        tauto

section

variable (inv : net.Consistent)

include inv

theorem multiDelayLoops_ok : net.multiDelayLoops = .ok
    (((net.ids.filter net.isDelay).filterMap net.multiDelayLoop?).foldl
      (fun loops loop => if loops.any (·.isPerm loop) then loops else loops ++ [loop]) []) := by
  rw [multiDelayLoops, forM_eq_ok fun id mem => inv.successors_eq mem]
  rfl

theorem multiDelayLoops_eq :
    ∃ loops, net.multiDelayLoops = .ok loops ∧
      (∀ loop ∈ loops, net.IsLoop loop ∧ loop.Nodup ∧ 1 < loop.countP net.isDelay) ∧
      loops.Pairwise (¬ ·.Perm ·) ∧
      ∀ loop, net.IsLoop loop → loop.Nodup → 1 < loop.countP net.isDelay →
        ∀ delay ∈ loop, net.isDelay delay → ∃ has ∈ loops, delay ∈ has := by
  obtain ⟨apart, within, all⟩ :=
    distinctLoops ((net.ids.filter net.isDelay).filterMap net.multiDelayLoop?) [] .nil
  refine ⟨_, inv.multiDelayLoops_ok, fun loop kept => ?_, apart,
    fun loop isLoop once many delay onLoop delays => ?_⟩
  · obtain ⟨front, back, split, -⟩ := (within loop kept).resolve_left not_mem_nil
    obtain ⟨id, -, finds⟩ := mem_filterMap.mp (split ▸ mem_append_right front mem_cons_self)
    exact (inv.isLoop_of_multiDelayLoop? finds).2
  · obtain ⟨next, -, feeds⟩ := isLoop.exists_next onLoop
    have mem : delay ∈ net.ids.filter net.isDelay :=
      mem_filter.mpr ⟨(inv.mem_ids_of_feeds feeds).1, delays⟩
    obtain ⟨has, finds⟩ := inv.exists_multiDelayLoop? isLoop once many onLoop
    obtain ⟨other, kept, same⟩ := all has (.inr (mem_filterMap.mpr ⟨delay, mem, finds⟩))
    exact ⟨other, kept, same.mem_iff.mpr (mem_of_head? (inv.isLoop_of_multiDelayLoop? finds).1)⟩

theorem exists_loops : ∃ undelayed multiDelay,
    net.undelayedLoops = .ok undelayed ∧ net.multiDelayLoops = .ok multiDelay ∧
      (undelayed = [] ↔ ∀ loop, net.IsLoop loop → ∃ id ∈ loop, net.isDelay id) ∧
      (multiDelay = [] ↔ ∀ loop, net.IsLoop loop → loop.Nodup → loop.countP net.isDelay ≤ 1) := by
  obtain ⟨undelayed, askedUndelayed, sound, covers⟩ := inv.undelayedLoops_eq
  obtain ⟨multiDelay, askedMultiDelay, invMulti, -, all⟩ := inv.multiDelayLoops_eq
  refine ⟨undelayed, multiDelay, askedUndelayed, askedMultiDelay, ⟨?_, fun delayed => ?_⟩, ?_,
    fun single => ?_⟩
  · rintro rfl loop isLoop
    by_contra instant
    push Not at instant
    obtain ⟨-, -, -, has, isHas, -⟩ :=
      covers (inv.isLoop_instantTargets.mpr ⟨isLoop, instant⟩) inv.leads_instantTargets.mp
    cases isHas
  · refine eq_nil_iff_forall_not_mem.mpr fun loop has => ?_
    obtain ⟨⟨isLoop, instant⟩, -⟩ := sound loop has
    obtain ⟨id, onLoop, delays⟩ := delayed loop isLoop
    exact instant id onLoop delays
  · rintro rfl loop isLoop once
    by_contra many
    obtain ⟨delay, onLoop, delays⟩ := countP_pos_iff.mp (show 0 < loop.countP net.isDelay by omega)
    obtain ⟨has, isHas, -⟩ := all loop isLoop once (by omega) delay onLoop delays
    cases isHas
  · refine eq_nil_iff_forall_not_mem.mpr fun loop has => ?_
    obtain ⟨isLoop, once, many⟩ := invMulti loop has
    exact absurd (single loop isLoop once) (Nat.not_le_of_lt many)

/-- Validation finds nothing exactly if the network is legal. -/
theorem validate_eq_nil_iff : net.validate = [] ↔ net.Legal := by
  obtain ⟨undelayed, multiDelay, askedUndelayed, askedMultiDelay, noUndelayed, noMultiDelay⟩ :=
    inv.exists_loops
  have proc (id : ProcessId) (proc : Process) :
      processFindings id proc = [] ↔ proc.kind.isLeaf ∧ proc.defect? = none := by
    unfold processFindings
    split <;> simp_all
  have bdry (role : String) (key : PortKey) : net.isBoundary key →
      (net.boundaryFindings role key = [] ↔ ∀ port, net.port? key = some port →
      port.connection = none) := by
    intro onBdry
    obtain ⟨port, live⟩ := Option.isSome_iff_exists.mp (inv.boundary onBdry)
    cases conn : port.connection <;> simp [boundaryFindings, live, Port.isConnected, conn]
  have onBdry {key} : net.isBoundary key ↔ key ∈ net.inputs ∨ key ∈ net.outputs := by
    simp [isBoundary]
  simp only [validate, askedUndelayed, askedMultiDelay, loopFindings, append_eq_nil_iff,
    flatMap_eq_nil_iff, map_eq_nil_iff, noUndelayed, noMultiDelay]
  constructor
  · rintro ⟨⟨⟨⟨procs, inputs⟩, outs⟩, delayed⟩, single⟩
    refine ⟨fun got => ?_, fun got => ?_, fun {key port} has live => ?_,
      fun isLoop => delayed _ isLoop, fun isLoop once => single _ isLoop once⟩
    · exact ((proc _ _).mp (procs (_, _) (mem_toList.mpr got))).1
    · exact ((proc _ _).mp (procs (_, _) (mem_toList.mpr got))).2
    · rcases onBdry.mp has with mem | mem
      · exact (bdry _ key has).mp (inputs key mem) port live
      · exact (bdry _ key has).mp (outs key mem) port live
  · intro legal
    refine ⟨⟨⟨⟨fun entry mem => ?_, fun key mem => ?_⟩, fun key mem => ?_⟩, fun _ isLoop =>
      legal.delayed isLoop⟩, fun _ isLoop once => legal.single isLoop once⟩
    · have got := mem_toList.mp mem
      exact (proc _ _).mpr ⟨legal.leaves got, legal.fits got⟩
    · have has := onBdry.mpr (.inl mem)
      exact (bdry _ key has).mpr fun port live => legal.unconnected has live
    · have has := onBdry.mpr (.inr mem)
      exact (bdry _ key has).mpr fun port live => legal.unconnected has live

end

end Consistent

end Network

end Dataflow
