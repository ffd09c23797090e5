import Dataflow.Proofs.Graph.Related
import Dataflow.Proofs.Region.Confined
import Dataflow.Region.Branch

/-! The branches of a section: where they lead, and when they all do the same. -/

open List

namespace Dataflow

theorem exists_mapM_eq_ok {α β : Type} {question : α → Except Fault β} {property : α → β → Prop}
    {entries : List α}
    (answered : ∀ entry ∈ entries, ∃ ans, question entry = .ok ans ∧ property entry ans) :
    ∃ answers, entries.mapM question = .ok answers ∧ List.Forall₂ property entries answers := by
  induction entries with
  | nil => exact ⟨[], rfl, .nil⟩
  | cons entry entries ih =>
    obtain ⟨ans, asked, holds⟩ := answered entry mem_cons_self
    obtain ⟨answers, askedRest, holdsRest⟩ :=
      ih fun other mem => answered other (mem_cons_of_mem _ mem)
    refine ⟨ans :: answers, ?_, .cons holds holdsRest⟩
    rw [mapM_cons, asked, askedRest]
    rfl

namespace Network

/-- The process that the first out-port of a process leads to. -/
def firstTarget (net : Network) (id : ProcessId) : Option ProcessId :=
  ((net.process? id).bind (·.outPorts.head?)).bind net.remote

/-- The processes that are passed when first out-ports are followed, until the stop, an open port or
a repetition. -/
inductive Trail (net : Network) (stop : ProcessId) :
    List ProcessId → Option ProcessId → List ProcessId → Prop
  | leaves {passed} : Trail net stop passed none []
  | ends {passed id} (known : id = stop ∨ id ∈ passed) : Trail net stop passed (some id) []
  | step {passed id rest} (fresh : ¬ (id = stop ∨ id ∈ passed))
      (onwards : Trail net stop (passed ++ [id]) (net.firstTarget id) rest) :
      Trail net stop passed (some id) (id :: rest)

variable {net : Network} {id stop : ProcessId} {passed rest chain : List ProcessId}
  {next : Option ProcessId} {proc : Process}

theorem Trail.unique {other : List ProcessId} (first : net.Trail stop passed next rest)
    (second : net.Trail stop passed next other) : rest = other := by
  induction first generalizing other with
  | leaves => cases second; rfl
  | ends known =>
    cases second with
    | ends => rfl
    | step fresh => exact absurd known fresh
  | step fresh _ ih =>
    cases second with
    | ends known => exact absurd known fresh
    | step _ onwards => rw [ih onwards]

/-- What a trail passes are different processes, each of which leads to the next one. -/
structure Trailed (net : Network) (stop : ProcessId) (passed : List ProcessId)
    (next : Option ProcessId) (rest : List ProcessId) : Prop where
  starts : rest ≠ [] → next = rest.head?
  chained : rest.IsChain fun id next => net.firstTarget id = some next
  once : rest.Nodup
  fresh : ∀ id ∈ rest, id ≠ stop ∧ id ∉ passed
  ends : ∀ last ∈ rest.getLast?, ∀ target, net.firstTarget last = some target →
    target = stop ∨ target ∈ passed ++ rest

theorem Trail.trailed (trail : net.Trail stop passed next rest) :
    net.Trailed stop passed next rest := by
  induction trail with
  | leaves => exact ⟨by simp, .nil, .nil, by simp, by simp⟩
  | ends => exact ⟨by simp, .nil, .nil, by simp, by simp⟩
  | @step passed id rest fresh onwards ih =>
    have unpassed : id ∉ rest := fun mem => (ih.fresh id mem).2 (by simp)
    refine ⟨fun _ => rfl, ?_, nodup_cons.mpr ⟨unpassed, ih.once⟩, ?_, ?_⟩
    · refine isChain_cons.mpr ⟨fun second isSecond => ?_, ih.chained⟩
      rw [ih.starts (ne_nil_of_mem (mem_of_head? isSecond))]
      exact isSecond
    · refine forall_mem_cons.mpr ⟨not_or.mp fresh, fun other mem => ?_⟩
      obtain ⟨notStop, notPassed⟩ := ih.fresh other mem
      exact ⟨notStop, fun known => notPassed (mem_append_left _ known)⟩
    · intro last isLast dst leads
      cases rest with
      | nil =>
        obtain rfl : id = last := by simpa using isLast
        rw [leads] at onwards
        cases onwards with
        | ends known => exact known
      | cons second rest =>
        rcases ih.ends last isLast dst leads with isStop | known
        · exact .inl isStop
        · exact .inr (by simpa using known)

theorem Consistent.firstTarget_eq (inv : net.Consistent) (got : net.process? id = some proc) :
    (if proc.outPorts.isEmpty then pure none else net.neighbour id .output 0) =
      .ok (net.firstTarget id) := by
  cases ports : proc.outPorts with
  | nil => simp [firstTarget, got, ports, pure, Except.pure]
  | cons key keys =>
    obtain ⟨port, has, -⟩ := inv.listed_out got (ports ▸ mem_cons_self)
    have asked : net.portAt id .output 0 = .ok key := by
      simp [portAt, process_eq_ok.mpr got, Process.ports, ports, bind, Except.bind, pure,
        Except.pure]
    have ans : net.peerOwner key = .ok (net.remote key) := inv.peerOwner_eq (by simp [has])
    simp [neighbour, asked, ans, firstTarget, got, ports, bind, Except.bind]

theorem Consistent.followChain_eq (inv : net.Consistent) (stop : ProcessId) (fuel : Nat)
    (exist : ∀ id ∈ next, id ∈ net.ids) (once : passed.Nodup) (inside : passed ⊆ net.ids)
    (enough : net.size < fuel + passed.length) :
    ∃ rest, net.followChain stop fuel passed next = .ok (passed ++ rest) ∧
      net.Trail stop passed next rest := by
  induction fuel generalizing passed next with
  | zero =>
    -- No chain without repetitions is longer than there are processes.
    have short := (subperm_of_subset once inside).length_le
    rw [length_ids] at short
    omega
  | succ fuel ih =>
    cases next with
    | none => exact ⟨[], by simp [followChain], .leaves⟩
    | some id =>
      by_cases known : id = stop ∨ id ∈ passed
      · refine ⟨[], ?_, .ends known⟩
        rw [followChain, if_pos known, append_nil]
        rfl
      obtain ⟨proc, got⟩ := mem_ids.mp (exist id rfl)
      have existNext : ∀ dst ∈ net.firstTarget id, dst ∈ net.ids := fun dst isDst => by
        obtain ⟨key, -, leads⟩ := Option.bind_eq_some_iff.mp isDst
        exact inv.mem_ids_of_remote leads
      have onceNext : (passed ++ [id]).Nodup :=
        Graph.nodup_concat.mpr ⟨once, fun mem => known (.inr mem)⟩
      have insideNext : passed ++ [id] ⊆ net.ids :=
        append_subset.mpr ⟨inside, by simpa using mem_ids.mpr ⟨proc, got⟩⟩
      obtain ⟨rest, run, trail⟩ := ih existNext onceNext insideNext (by simp; omega)
      refine ⟨id :: rest, ?_, .step known trail⟩
      have asked := inv.firstTarget_eq got
      rw [append_assoc] at run
      rw [followChain, if_neg known, process_eq_ok.mpr got]
      by_cases empty : proc.outPorts.isEmpty
      · rw [if_pos empty] at asked
        rw [← Except.ok.inj asked] at run
        simp only [bind, Except.bind, empty, if_true]
        exact run
      · rw [if_neg empty] at asked
        simp only [bind, Except.bind, empty, Bool.false_eq_true, if_false, asked]
        exact run

/-- The process of that name applies functions to one value at a time. -/
def isMapShaped (net : Network) (id : ProcessId) : Bool :=
  (net.process? id).any (·.kind.isMapShaped)

/-- What the process of that name does. -/
def kindOf (net : Network) (id : ProcessId) : Kind Composite :=
  (net.process? id).elim .inport (·.kind)

theorem Trail.exist (trail : net.Trail stop passed next rest) (inv : net.Consistent)
    (exist : ∀ id ∈ next, id ∈ net.ids) : rest ⊆ net.ids := by
  induction trail with
  | leaves => exact nil_subset _
  | ends => exact nil_subset _
  | step _ _ ih =>
    refine cons_subset.mpr ⟨exist _ rfl, ih fun dst isDst => ?_⟩
    obtain ⟨key, -, leads⟩ := Option.bind_eq_some_iff.mp isDst
    exact inv.mem_ids_of_remote leads

/-- The branches of a section that starts at a process are the trails from its out-ports. -/
theorem Consistent.branchChains_eq (inv : net.Consistent) (reg : Section)
    (got : net.process? reg.start = some proc) :
    ∃ chains, net.branchChains reg = .ok chains ∧
      List.Forall₂ (fun key chain => net.Trail reg.stop [] (net.remote key) chain) proc.outPorts
        chains := by
  have follows : ∀ key ∈ proc.outPorts, ∃ chain,
      (do net.followChain reg.stop net.searchDepth [] (← net.peerOwner key)) = .ok chain ∧
        net.Trail reg.stop [] (net.remote key) chain := by
    intro key mem
    obtain ⟨port, has, -⟩ := inv.listed_out got mem
    have asked : net.peerOwner key = .ok (net.remote key) := inv.peerOwner_eq (by simp [has])
    obtain ⟨chain, run, trail⟩ := inv.followChain_eq reg.stop net.searchDepth
      (fun id leads => inv.mem_ids_of_remote leads) nodup_nil (nil_subset _)
      (by simp [searchDepth])
    exact ⟨chain, by rw [asked]; exact run, trail⟩
  obtain ⟨chains, run, trails⟩ := exists_mapM_eq_ok follows
  refine ⟨chains, ?_, trails⟩
  rw [branchChains, process_eq_ok.mpr got]
  exact run

theorem chainKinds_eq (exist : chain ⊆ net.ids) :
    net.chainKinds chain = .ok (chain.map net.kindOf) := by
  refine mapM_eq_ok fun id mem => ?_
  obtain ⟨proc, got⟩ := mem_ids.mp (exist mem)
  rw [process_eq_ok.mpr got, kindOf, got]
  rfl

/-- Branches that are chains of maps of one length and do the same at each position. -/
structure Uniform (net : Network) (chains : List (List ProcessId)) (length : Nat) : Prop where
  some : chains ≠ []
  positive : 0 < length
  lengths : ∀ chain ∈ chains, chain.length = length
  shaped : ∀ chain ∈ chains, ∀ id ∈ chain, net.isMapShaped id
  same : ∀ chain ∈ chains, ∀ other ∈ chains, chain.map net.kindOf = other.map net.kindOf

theorem sameChains_iff {first second : List (Kind Composite)} (leaves : ∀ kind ∈ first, kind.isLeaf)
    (lengths : first.length = second.length) : sameChains first second ↔ first = second := by
  induction first generalizing second with
  | nil => cases second <;> simp_all [sameChains]
  | cons kind first ih =>
    cases second with
    | nil => simp at lengths
    | cons other second =>
      have rest := ih (fun kind mem => leaves kind (mem_cons_of_mem _ mem)) (by simpa using lengths)
      have leaf := leaves kind mem_cons_self
      simp only [sameChains, zip_cons_cons, all_cons, Kind.sameComputation, leaf, Bool.true_and,
        Bool.and_eq_true, decide_eq_true_eq] at rest ⊢
      rw [rest, List.cons.injEq]

theorem isMapShaped_eq (net : Network) (id : ProcessId) :
    net.isMapShaped id = (net.kindOf id).isMapShaped := by
  unfold isMapShaped kindOf
  cases net.process? id <;> rfl

theorem isLeaf_of_isMapShaped {kind : Kind Composite} (shaped : kind.isMapShaped) :
    kind.isLeaf := by
  cases kind <;> simp_all [Kind.isMapShaped, Kind.isLeaf, Kind.inside?]

theorem dataParallelLength?_eq {reg : Section} {chains : List (List ProcessId)}
    (asked : net.branchChains reg = .ok chains) (exist : ∀ chain ∈ chains, chain ⊆ net.ids) :
    ∃ measured, net.dataParallelLength? reg = .ok measured ∧
      ∀ len, measured = some len ↔ net.Uniform chains len := by
  -- The lengths are compared first. If they agree, then the kinds are, and as leaves they are the
  -- same if they look the same.
  rw [dataParallelLength?, asked]
  cases chains with
  | nil => exact ⟨none, rfl, fun len => ⟨by simp, fun unif => absurd rfl unif.some⟩⟩
  | cons first others =>
    have askedFirst := chainKinds_eq (exist first mem_cons_self)
    have askedOthers : others.mapM net.chainKinds = .ok (others.map (·.map net.kindOf)) :=
      mapM_eq_ok fun chain mem => chainKinds_eq (exist chain (mem_cons_of_mem _ mem))
    simp only [bind, Except.bind]
    by_cases uneven : first.length = 0 ∨ others.any (·.length ≠ first.length)
    · rw [if_pos uneven]
      refine ⟨none, rfl, fun len => ⟨by simp, fun unif => ?_⟩⟩
      have here := unif.lengths first mem_cons_self
      rcases uneven with empty | differs
      · exact absurd unif.positive (by omega)
      · obtain ⟨other, mem, apart⟩ := any_eq_true.mp differs
        have there := unif.lengths other (mem_cons_of_mem _ mem)
        simp [here, there] at apart
    · rw [if_neg uneven, askedFirst]
      simp only [askedOthers]
      obtain ⟨positive, lengths⟩ := not_or.mp uneven
      have even : ∀ other ∈ others, other.length = first.length := by simpa using lengths
      have shapes :
          ((first.map net.kindOf :: others.map (·.map net.kindOf)).all (·.all (·.isMapShaped))) =
          true ↔ ∀ chain ∈ first :: others, ∀ id ∈ chain, net.isMapShaped id := by
        simp [isMapShaped_eq]
      by_cases alike :
          ((first.map net.kindOf :: others.map (·.map net.kindOf)).all (·.all (·.isMapShaped)) &&
            (others.map (·.map net.kindOf)).all (sameChains (first.map net.kindOf))) = true
      · rw [if_pos alike]
        obtain ⟨shaped, same⟩ := Bool.and_eq_true_iff.mp alike
        have leaves : ∀ kind ∈ first.map net.kindOf, kind.isLeaf := fun kind mem => by
          obtain ⟨id, isMem, rfl⟩ := mem_map.mp mem
          exact isLeaf_of_isMapShaped
            (net.isMapShaped_eq id ▸ shapes.mp shaped first mem_cons_self id isMem)
        have equal : ∀ chain ∈ first :: others, first.map net.kindOf = chain.map net.kindOf :=
            fun chain mem => by
          rcases mem_cons.mp mem with rfl | isOther
          · rfl
          · refine (sameChains_iff leaves (by simp [even chain isOther])).mp ?_
            exact all_eq_true.mp same _ (mem_map_of_mem isOther)
        refine ⟨some first.length, rfl, fun len => ⟨?_, fun unif => ?_⟩⟩
        · rintro ⟨⟩
          refine
            ⟨by simp, Nat.pos_of_ne_zero positive, ?_, shapes.mp shaped,
              fun chain mem other memOther => ?_⟩
          · simpa using even
          · grind
        · rw [unif.lengths first mem_cons_self]
      · rw [if_neg alike]
        refine ⟨none, rfl,
          fun len => ⟨by simp, fun unif => absurd (Bool.and_eq_true_iff.mpr ⟨?_, ?_⟩) alike⟩⟩
        · exact shapes.mpr unif.shaped
        · refine all_eq_true.mpr fun kinds mem => ?_
          obtain ⟨other, isOther, rfl⟩ := mem_map.mp mem
          have leaves : ∀ kind ∈ first.map net.kindOf, kind.isLeaf := fun kind mem => by
            obtain ⟨id, isMem, rfl⟩ := mem_map.mp mem
            exact isLeaf_of_isMapShaped
              (net.isMapShaped_eq id ▸ unif.shaped first mem_cons_self id isMem)
          refine (sameChains_iff leaves (by simp [even other isOther])).mpr ?_
          exact unif.same first mem_cons_self other (mem_cons_of_mem _ isOther)

end Network

end Dataflow
