import Dataflow.Proofs.Network.Reachable
import Dataflow.Proofs.Region.Branch

/-!
Data parallelism does not depend on which branch comes first.

All branches of a section are compared with the first one, and so with each other. A branch that
leads back to the start goes on along the first branch, so that the order of the branches matters
there.
-/

open List Option

namespace Dataflow.Network

variable {net next : Network} {id start stop : ProcessId} {process : Process} {region : Section}
  {ports : List PortKey}
  {chains others : List (List ProcessId)} {length : Nat}

theorem map_kindOf_eq_iff {chain other : List ProcessId} (lengths : chain.length = other.length)
    (shaped : ∀ id ∈ chain, net.isMapShaped id) : chain.map net.kindOf = other.map net.kindOf ↔
      ∀ (pos : Nat) id peer, chain[pos]? = some id → other[pos]? = some peer →
        (net.kindOf id).sameComputation (net.kindOf peer) := by
  constructor
  · intro same pos id peer here there
    have kinds := congrArg (·[pos]?) same
    simp only [getElem?_map, here, there, map_some, some.injEq] at kinds
    have leaf := isLeaf_of_isMapShaped (net.isMapShaped_eq id ▸ shaped id (mem_of_getElem? here))
    simp [Kind.sameComputation, ← kinds, leaf]
  · intro same
    refine ext_getElem (by simp [lengths]) fun pos here there => ?_
    have agree :=
      same pos _ _ (getElem?_eq_getElem (by simpa using here))
        (getElem?_eq_getElem (by simpa using there))
    simp only [Kind.sameComputation, Bool.and_eq_true, decide_eq_true_eq] at agree
    simpa using agree.2

theorem Uniform.of_mem_iff (unif : net.Uniform chains length)
    (members : ∀ chain, chain ∈ others ↔ chain ∈ chains)
    (kinds : ∀ id, next.kindOf id = net.kindOf id) : next.Uniform others length := by
  have kindOf : next.kindOf = net.kindOf := funext kinds
  obtain ⟨first, isFirst⟩ := exists_mem_of_ne_nil chains unif.some
  refine ⟨ne_nil_of_mem ((members first).mpr isFirst), unif.positive, fun chain mem => ?_,
    fun chain mem id onChain => ?_, fun chain mem other memToo => ?_⟩
  · exact unif.lengths chain ((members chain).mp mem)
  · rw [isMapShaped_eq, kinds, ← isMapShaped_eq]
    exact unif.shaped chain ((members chain).mp mem) id onChain
  · rw [kindOf]
    exact unif.same chain ((members chain).mp mem) other ((members other).mp memToo)

theorem Trail.eq_or_mem {passed rest other : List ProcessId} {first : Option ProcessId}
    (same : ∀ id, id ≠ start → next.firstTarget id = net.firstTarget id)
    (trail : net.Trail stop passed first rest) (too : next.Trail stop passed first other) :
    rest = other ∨ start ∈ rest ∧ start ∈ other := by
  induction trail generalizing other with
  | leaves => cases too; exact .inl rfl
  | ends known =>
    cases too with
    | ends => exact .inl rfl
    | step fresh => exact absurd known fresh
  | @step passed id rest fresh onwards ih =>
    cases too with
    | ends known => exact absurd known fresh
    | step _ onwards =>
      by_cases here : id = start
      · exact .inr (by simp [here])
      · rw [same id here] at onwards
        rcases ih onwards with rfl | ⟨passes, passesToo⟩
        · exact .inl rfl
        · exact .inr ⟨mem_cons_of_mem _ passes, mem_cons_of_mem _ passesToo⟩

/-- Chains are what is passed from ports on. -/
structure Branches (net : Network) (stop : ProcessId) (ports : List PortKey)
    (chains : List (List ProcessId)) : Prop where
  followed : ∀ key ∈ ports, ∃ chain ∈ chains, net.Trail stop [] (net.remote key) chain
  traced : ∀ chain ∈ chains, ∃ key ∈ ports, net.Trail stop [] (net.remote key) chain

theorem Consistent.branches (inv : net.Consistent)
    (got : net.process? region.start = some process) :
    ∃ chains, net.branchChains region = .ok chains ∧
      (∀ chain ∈ chains, chain ⊆ net.ids) ∧
      net.Branches region.stop process.outPorts chains := by
  obtain ⟨chains, asked, trails⟩ := inv.branchChains_eq region got
  refine ⟨chains, asked, fun chain mem => ?_, fun key mem => ?_, fun chain mem =>
    exists_of_forall₂ trails mem⟩
  · obtain ⟨key, -, trail⟩ := exists_of_forall₂ trails mem
    exact trail.exist inv fun id leads => inv.mem_ids_of_remote leads
  · obtain ⟨chain, paired, trail⟩ := exists_mem_zip trails mem
    exact ⟨chain, (of_mem_zip paired).2, trail⟩

theorem Branches.meet {morePorts : List PortKey} (branches : net.Branches stop ports chains)
    (too : next.Branches stop morePorts others) (order : ports ⊆ morePorts)
    (remote : next.remote = net.remote)
    (same : ∀ id, id ≠ start → next.firstTarget id = net.firstTarget id) (chain : List ProcessId)
    (mem : chain ∈ chains) : ∃ other ∈ others, chain = other ∨ start ∈ chain ∧ start ∈ other := by
  obtain ⟨key, isPort, trail⟩ := branches.traced chain mem
  obtain ⟨other, isOther, trailToo⟩ := too.followed key (order isPort)
  rw [remote] at trailToo
  exact ⟨other, isOther, trail.eq_or_mem same trailToo⟩

theorem Consistent.dataParallelLength?_setProcess (inv : net.Consistent)
    (got : net.process? region.start = some process) (order : ports.Perm process.outPorts)
    (asked : net.branchChains region = .ok chains)
    (apart : process.kind.isMapShaped → ∀ chain ∈ chains, region.start ∉ chain) :
    (net.setProcess region.start { process with outPorts := ports }).dataParallelLength? region =
      net.dataParallelLength? region := by
  obtain ⟨next, isNext⟩ : ∃ next,
    next = net.setProcess region.start { process with outPorts := ports } := ⟨_, rfl⟩
  have looked (id : ProcessId) : next.process? id = if region.start =
      id then some { process with outPorts := ports } else net.process? id := by
    rw [isNext, process?_setProcess]
  have evo : net.Evolves next := isNext ▸ inv.setProcess got fun dir => by
    cases dir
    · exact .refl _
    · exact order
  have kinds (id : ProcessId) : next.kindOf id = net.kindOf id := by
    rw [kindOf, kindOf, looked]
    split
    · rename_i here
      rw [← here, got]
      rfl
    · rfl
  have remote : next.remote = net.remote := isNext ▸ rfl
  have targets (id : ProcessId) (notStart : id ≠ region.start) : next.firstTarget id =
      net.firstTarget id := by
    rw [firstTarget, firstTarget, looked, if_neg (Ne.symm notStart), remote]
  obtain ⟨_, askedToo, exist, branches⟩ := inv.branches got
  obtain rfl := Except.ok.inj (asked.symm.trans askedToo)
  obtain ⟨others, askedNext, existNext, branchesNext⟩ :=
    evo.inv.branches ((looked region.start).trans (if_pos rfl))
  have forth := branches.meet branchesNext order.symm.subset remote targets
  have back := branchesNext.meet branches order.subset remote.symm fun id notStart =>
    (targets id notStart).symm
  have members (avoids : ∀ chain ∈ chains, region.start ∉ chain) (chain : List ProcessId) :
      chain ∈ others ↔ chain ∈ chains := by
    constructor
    · intro mem
      obtain ⟨other, isOther, rfl | ⟨-, passes⟩⟩ := back chain mem
      · exact isOther
      · exact absurd passes (avoids other isOther)
    · intro mem
      obtain ⟨other, isOther, rfl | ⟨passes, -⟩⟩ := forth chain mem
      · exact isOther
      · exact absurd passes (avoids chain mem)
  -- Branches that are uniform pass the start only if it is a map.
  have shaped : net.isMapShaped region.start = process.kind.isMapShaped := by
    simp [isMapShaped, got]
  obtain ⟨measured, measures, unif⟩ := dataParallelLength?_eq asked exist
  obtain ⟨measuredNext, measuresNext, unifNext⟩ := dataParallelLength?_eq askedNext existNext
  rw [← isNext, measures, measuresNext]
  congr 1
  refine ext fun length =>
    (unifNext length).trans (Iff.trans ⟨fun holds => ?_, fun holds => ?_⟩ (unif length).symm)
  · refine holds.of_mem_iff (fun chain => (members (fun chain mem passes => ?_) chain).symm)
      fun id => (kinds id).symm
    obtain ⟨other, isOther, passesToo⟩ : ∃ other ∈ others, region.start ∈ other := by
      obtain ⟨other, isOther, rfl | ⟨-, passesToo⟩⟩ := forth chain mem
      · exact ⟨chain, isOther, passes⟩
      · exact ⟨other, isOther, passesToo⟩
    have isShaped := holds.shaped other isOther _ passesToo
    rw [isMapShaped_eq, kinds, ← isMapShaped_eq, shaped] at isShaped
    exact apart isShaped chain mem passes
  · refine holds.of_mem_iff (members fun chain mem passes => ?_) kinds
    exact apart (shaped ▸ holds.shaped chain mem _ passes) chain mem passes

/-- The common length of branches is found exactly if any two of them do the same at each position.

It is the same in whatever order the branches leave the start, unless the start is itself a map and
lies on one of them. -/
theorem WellFormed.dataParallelLength?_pairwise (wellFormed : net.WellFormed)
    (stored : net.process? region.start = some process) :
    ∃ chains measured, net.branchChains region = .ok chains ∧
      net.dataParallelLength? region = .ok measured ∧
      (∀ length, measured = some length ↔
        process.outPorts ≠ [] ∧ 1 ≤ length ∧
        (∀ chain ∈ chains, chain.length = length) ∧
        (∀ chain ∈ chains, ∀ id ∈ chain,
          ∃ passed, net.process? id = some passed ∧ passed.kind.isMapShaped) ∧
        ∀ chain ∈ chains, ∀ other ∈ chains, ∀ (position : Nat) id peer,
          chain[position]? = some id → other[position]? = some peer →
          ∀ first second, net.process? id = some first → net.process? peer = some second →
            first.kind.sameComputation second.kind) ∧
      ∀ ports, ports.Perm process.outPorts →
        (process.kind.isMapShaped → ∀ chain ∈ chains, region.start ∉ chain) →
        ∃ next,
          (Edit.modifyProcess region.start fun process =>
            { process with outPorts := ports }).run net = .ok () next ∧
          next.WellFormed ∧ next.dataParallelLength? region = .ok measured := by
  -- Uniform branches agree at equal positions, and the order of the ports plays no part in that.
  have sound := wellFormed.toConsistent
  obtain ⟨chains, asked, exist, branches⟩ := sound.branches stored
  obtain ⟨measured, measures, uniform⟩ := dataParallelLength?_eq asked exist
  refine ⟨chains, measured, asked, measures,
    fun length => (uniform length).trans ⟨fun holds => ?_, ?_⟩, fun ports order apart => ?_⟩
  · obtain ⟨first, isFirst⟩ := exists_mem_of_ne_nil chains holds.some
    obtain ⟨key, isPort, -⟩ := branches.traced first isFirst
    refine ⟨ne_nil_of_mem isPort, holds.positive, holds.lengths, fun chain listed id onChain => by
      simpa [isMapShaped, Option.any_eq_true] using holds.shaped chain listed id onChain,
      fun chain listed other listedToo => ?_⟩
    have same :=
      (map_kindOf_eq_iff (by rw [holds.lengths chain listed, holds.lengths other listedToo])
          (holds.shaped chain listed)).mp
        (holds.same chain listed other listedToo)
    intro position id peer here there first second storedFirst storedSecond
    simpa [kindOf, storedFirst, storedSecond] using same position id peer here there
  · rintro ⟨some, positive, lengths, shaped, same⟩
    have allShaped (chain : List ProcessId) (listed : chain ∈ chains) (id : ProcessId)
        (onChain : id ∈ chain) : net.isMapShaped id := by
      simpa [isMapShaped, Option.any_eq_true] using shaped chain listed id onChain
    obtain ⟨key, isPort⟩ := exists_mem_of_ne_nil _ some
    obtain ⟨first, isFirst, -⟩ := branches.followed key isPort
    refine ⟨ne_nil_of_mem isFirst, positive, lengths, allShaped,
      fun chain listed other listedToo => ?_⟩
    refine (map_kindOf_eq_iff (by rw [lengths chain listed, lengths other listedToo])
      (allShaped chain listed)).mpr ?_
    intro position id peer here there
    obtain ⟨first, storedFirst⟩ := mem_ids.mp (exist chain listed (mem_of_getElem? here))
    obtain ⟨second, storedSecond⟩ := mem_ids.mp (exist other listedToo (mem_of_getElem? there))
    simpa [kindOf, storedFirst, storedSecond] using
      same chain listed other listedToo position id peer here there first second storedFirst
        storedSecond
  · refine ⟨_, Edit.run_modifyProcess stored _, ⟨?_, wellFormed.keysFit⟩, ?_⟩
    · refine (sound.setProcess stored fun direction => ?_).inv
      cases direction
      · exact .refl _
      · exact order
    · rw [sound.dataParallelLength?_setProcess stored order asked apart, measures]

/-- A map with two branches of a map each, of which the first one leads to a given port. -/
def forked (target : PortKey) : Network :=
  let function : Func := { name := "f", params := [], returnType := { name := "int" }, body := "" }
  Operation.build
    (Operation.addAll none [("s", .map function, ["in"], ["out0", "out1"]),
        ("m", .map function, ["in"], ["out"]), ("n", .map function, ["in"], ["out"]),
        ("e", .zip, ["in0", "in1"], [])] ++
      [.connect 1 target, .connect 2 3, .connect 4 7, .connect 6 8])

theorem consistent_forked (dst : PortKey) : (forked dst).Consistent :=
  (Reachable.empty.foldl (by simp [Operation.Allowed])).inv

/-- Two branches are found to do the same in either order. -/
theorem dataParallelLength?_pairwise_forked :
    (forked 5).WellFormed ∧
    ∃ next,
      (Edit.modifyProcess "s" fun process => { process with outPorts := [2, 1] }).run (forked 5) =
        .ok () next ∧ next.WellFormed ∧ next.dataParallelLength? ⟨"s", "e"⟩ = .ok (some 1) := by
  have wellFormed : (forked 5).WellFormed := ⟨consistent_forked 5, by decide +kernel⟩
  have start : ((forked 5).process? "s").map (·.outPorts) = some [1, 2] := by decide +kernel
  have chained : ((forked 5).branchChains ⟨"s", "e"⟩).toOption = some [["n"], ["m"]] := by
    decide +kernel
  have measures : ((forked 5).dataParallelLength? ⟨"s", "e"⟩).toOption = some (some 1) := by
    decide +kernel
  obtain ⟨process, stored, outs⟩ := map_eq_some_iff.mp start
  obtain ⟨chains, measured, asked, asksLength, -, reordered⟩ :=
    @WellFormed.dataParallelLength?_pairwise (forked 5) process ⟨"s", "e"⟩ wellFormed stored
  obtain rfl : chains = [["n"], ["m"]] := by simpa [asked, Except.toOption] using chained
  obtain rfl : measured = some 1 := by simpa [asksLength, Except.toOption] using measures
  exact ⟨wellFormed, reordered [2, 1] (outs ▸ .swap 1 2 []) fun _ => by decide⟩

/-- Where a branch leads back to the start, which goes on along the first branch, the order of the
branches matters. -/
theorem dataParallelLength?_pairwise_ownBranch :
    (forked 0).WellFormed ∧
    ∃ process next, (forked 0).process? "s" = some process ∧ [2, 1].Perm process.outPorts ∧
      (Edit.modifyProcess "s" fun process => { process with outPorts := [2, 1] }).run (forked 0) =
        .ok () next ∧ ((forked 0).dataParallelLength? ⟨"s", "e"⟩).toOption = some (some 1) ∧
      (next.dataParallelLength? ⟨"s", "e"⟩).toOption = some none := by
  have start : ((forked 0).process? "s").map (·.outPorts) = some [1, 2] := by decide +kernel
  obtain ⟨process, stored, outs⟩ := map_eq_some_iff.mp start
  have reordered : (((forked 0).process? "s").map fun process =>
      (((forked 0).setProcess "s" { process with outPorts := [2, 1] }).dataParallelLength?
      ⟨"s", "e"⟩).toOption) = some (some none) := by
    decide +kernel
  rw [stored, map_some, some.injEq] at reordered
  exact ⟨⟨consistent_forked 0, by decide +kernel⟩, process, _, stored, outs ▸ .swap 1 2 [],
    Edit.run_modifyProcess stored _, by decide +kernel, reordered⟩

end Dataflow.Network
