import Dataflow.Proofs.Transform.Contracted
import Dataflow.Proofs.Transform.Shorten

/-! Coalescing contracts exactly the branches of long data-parallel sections. -/

open List

namespace Dataflow.Network

variable {net cur next : Network} {id first last fresh other : ProcessId} {chain : List ProcessId}
  {reg : Section}
  {chains todo all : List (List ProcessId)} {regs entries : List (Section × Nat)}
  {notes : List Diagnostic} {len : Nat}
  {parts : List Contraction} {kept : Network → Prop} {entry exit : PortKey} {proc : Process}

/-- A section whose branches are replaced, with its branches. -/
def Coalesces (net : Network) (region : Section) (chains : List (List ProcessId)) : Prop :=
  ∃ regions notes length, net.dataParallelSections = .ok (regions, notes) ∧
    (region, length) ∈ regions ∧ 1 < length ∧ net.branchChains region = .ok chains

/-- The branches of the long ones among the given sections. -/
def longChains (net : Network) (entries : List (Section × Nat)) : List (List ProcessId) :=
  entries.flatMap fun entry =>
    if entry.2 ≤ 1 then [] else (net.branchChains entry.1).toOption.getD []

theorem Bundle.longChains_cons (bundle : net.Bundle reg chains) (inv : net.Consistent)
    (long : ¬ len ≤ 1) :
    net.longChains ((reg, len) :: entries) = chains ++ net.longChains entries := by
  simp [longChains, long, bundle.branchChains_eq inv, Except.toOption]

theorem mem_longChains :
    chain ∈ net.longChains entries ↔
      ∃ entry ∈ entries, 1 < entry.2 ∧
        ∃ chains, net.branchChains entry.1 = .ok chains ∧ chain ∈ chains := by
  rw [longChains, mem_flatMap]
  refine exists_congr fun entry => and_congr_right fun _ => ?_
  split_ifs with short
  · simp [short]
  · cases has : net.branchChains entry.1 <;> simp [Except.toOption, Nat.lt_of_not_le short]

theorem mem_longChains_iff_coalesces (asked : net.dataParallelSections = .ok (regs, notes)) :
    chain ∈ net.longChains regs ↔ ∃ reg chains, net.Coalesces reg chains ∧ chain ∈ chains := by
  rw [mem_longChains]
  constructor
  · rintro ⟨⟨reg, len⟩, mem, long, chains, has, isChain⟩
    exact ⟨reg, chains, ⟨regs, notes, len, asked, mem, long, has⟩, isChain⟩
  · rintro ⟨reg, chains, ⟨too, notesToo, len, askedToo, mem, long, has⟩, isChain⟩
    rw [asked] at askedToo
    cases askedToo
    exact ⟨_, mem, long, chains, has, isChain⟩

/-- Disjoint branches of sections. -/
structure Strands (net : Network) (all : List (List ProcessId)) : Prop where
  inv : net.Consistent
  apart : all.Pairwise List.Disjoint
  bundled : ∀ chain ∈ all, ∃ region chains, net.Bundle region chains ∧ chain ∈ chains

theorem Awaiting.strands (awaiting : net.Awaiting entries) (ready : net.Ready) :
    net.Strands (net.longChains entries) := by
  have branches {entry} (mem : entry ∈ entries) : ∃ chains, net.Bundle entry.1 chains ∧
      (if entry.2 ≤ 1 then [] else (net.branchChains entry.1).toOption.getD []).Sublist chains := by
    obtain ⟨-, chains, bundle, -⟩ := awaiting.bundles entry mem
    refine ⟨chains, bundle, ?_⟩
    split_ifs
    · exact nil_sublist _
    · simp [bundle.branchChains_eq ready.inv, Except.toOption]
  refine ⟨ready.inv, ?_, fun chain mem => ?_⟩
  · rw [longChains, pairwise_flatMap]
    refine ⟨fun entry mem => ?_, (pairwise_map.mp awaiting.once).imp_of_mem ?_⟩
    · obtain ⟨chains, bundle, inside⟩ := branches mem
      exact (bundle.pairwise ready.inv).sublist inside
    · intro front behind mem memToo apart chain isChain rest isRest id shared sharedToo
      obtain ⟨chains, bundle, inside⟩ := branches mem
      obtain ⟨others, bundleToo, insideToo⟩ := branches memToo
      exact bundle.disjoint bundleToo ready.inv ready.legal apart
        (Section.mem_members_of_mem (insideToo.subset isRest) sharedToo)
        (Section.mem_members_of_mem (inside.subset isChain) shared)
  · obtain ⟨entry, isEntry, isChain⟩ := mem_flatMap.mp mem
    obtain ⟨chains, bundle, inside⟩ := branches isEntry
    exact ⟨entry.1, chains, bundle, inside.subset isChain⟩

theorem Bundle.not_feeds_across (bundle : net.Bundle reg chains) (inv : net.Consistent)
    (mem : chain ∈ chains) (onChain : id ∈ chain) (shaped : net.isMapShaped other)
    (elsewhere : other ∉ chain) : ¬ net.Feeds id other := by
  intro feeds
  obtain ⟨proc, key, -, -, -, branch⟩ := bundle.exists_branch mem
  obtain ⟨dst, feedsDst, cases⟩ := branch.exists_target onChain
  obtain rfl := (branch.line.simple id onChain).target_unique inv feeds feedsDst
  rcases cases with rfl | inside
  · exact not_isZip_of_isMapShaped shaped bundle.closes
  · exact elsewhere inside

/-- One process at top level takes the place of a branch, which is as it was in the beginning. -/
structure CoalescesTo (net cur : Network) (part : Contraction) (next : Network) : Prop where
  ready : cur.Ready
  readyNext : next.Ready
  member : ∃ region chains, net.Coalesces region chains ∧ part.chain ∈ chains
  same : ∀ id ∈ part.chain, cur.process? id = net.process? id
  replaced : ∃ region chains first last entry exit hierarchy, cur.Bundle region chains ∧
    part.chain ∈ chains ∧ part.chain.head? = some first ∧ part.chain.getLast? = some last ∧
    hierarchy.parent? = none ∧ part.kind = cur.coalesced part.chain ∧
    cur.Excisable first last part.chain entry exit ∧
    cur.Replaced part.chain entry exit part.fresh part.kind hierarchy next

/-- What has become of a network when coalescing has come to the given ones of all branches. -/
structure CoalescedUpTo (net : Network) (all todo : List (List ProcessId))
    (parts : List Contraction) (cur : Network) : Prop where
  contracts : net.Contracts parts cur
  order : parts.map (·.chain) ++ todo = all
  kinds : ∀ part ∈ parts, part.kind = net.coalesced part.chain
  top : ∀ part ∈ parts, ∀ {first process}, part.chain.head? = some first →
    net.process? first = some process → process.hierarchy.parent? = none

namespace CoalescedUpTo

variable (upTo : net.CoalescedUpTo all (chain :: todo) parts cur) (strands : net.Strands all)

include upTo strands

theorem disjoint {part : Contraction} (mem : part ∈ parts) : part.chain.Disjoint chain := by
  have apart := strands.apart
  rw [← upTo.order, pairwise_append] at apart
  exact apart.2.2 _ (mem_map_of_mem mem) _ mem_cons_self

theorem exists_bundle : ∃ reg chains, net.Bundle reg chains ∧ chain ∈ chains :=
  strands.bundled chain (upTo.order ▸ by simp)

theorem spared (onChain : id ∈ chain) : Spared parts id := fun part mem => by
  refine ⟨fun shared => upTo.disjoint strands mem shared onChain, fun same => ?_⟩
  obtain ⟨reg, chains, bundle, isChain⟩ := upTo.exists_bundle strands
  obtain ⟨proc, got⟩ := mem_ids.mp (bundle.exist isChain onChain)
  simp [same, upTo.contracts.absent part mem] at got

theorem process?_eq (onChain : id ∈ chain) : cur.process? id = net.process? id :=
  upTo.contracts.kept (upTo.spared strands onChain)

/-- One more branch is contracted. -/
theorem step (starts : chain.head? = some first) (stops : chain.getLast? = some last)
    (exc : cur.Excisable first last chain entry exit) (got : cur.process? first = some proc)
    (top : proc.hierarchy.parent? = none)
    (repl : cur.Replaced chain entry exit fresh (cur.coalesced chain) proc.hierarchy next) :
    net.CoalescedUpTo all todo (parts ++ [⟨chain, fresh, cur.coalesced chain⟩]) next := by
  rw [upTo.process?_eq strands exc.start_mem] at got
  obtain ⟨reg, chains, bundle, isChain⟩ := upTo.exists_bundle strands
  obtain ⟨_, _, -, -, -, branch⟩ := bundle.exists_branch isChain
  refine ⟨upTo.contracts.snoc strands.inv starts stops got exc repl
    (fun id => upTo.spared strands) ?_ branch.line.once, by simp [← upTo.order], ?_, ?_⟩
  · intro part mem id onPart other onChain
    obtain ⟨_, _, bundlePart, isPart⟩ :=
      strands.bundled part.chain (upTo.order ▸ mem_append_left _ (mem_map_of_mem mem))
    have disjoint := upTo.disjoint strands mem
    exact ⟨bundlePart.not_feeds_across strands.inv isPart onPart
        (bundle.isMapShaped isChain onChain) fun shared => disjoint shared onChain,
      bundle.not_feeds_across strands.inv isChain onChain
      (bundlePart.isMapShaped isPart onPart) fun shared => disjoint onPart shared⟩
  · have same : cur.coalesced chain = net.coalesced chain := by
      refine congrArg Kind.coalescedMap (flatMap_congr fun id onChain => ?_)
      rw [kindOf, kindOf, upTo.process?_eq strands onChain]
    simpa [or_imp, forall_and] using ⟨upTo.kinds, same⟩
  · simp only [mem_append, mem_singleton, or_imp, forall_and, forall_eq]
    refine ⟨upTo.top, fun {head has} isHead gotHead => ?_⟩
    obtain rfl := Option.mem_unique starts isHead
    exact Option.mem_unique got gotHead ▸ top

end CoalescedUpTo

/-- The first process of a branch that is to be replaced is not at top level. -/
def HasNestedBranch (net : Network) : Prop :=
  ∃ region chains chain first process, net.Coalesces region chains ∧ chain ∈ chains ∧
    chain.head? = some first ∧ net.process? first = some process ∧ process.hierarchy.parent? ≠ none

section Rule

variable (holds : Network → Prop)
  (keep : ∀ {cur next part}, holds cur → net.CoalescesTo cur part next → holds next)

include keep

theorem Shortening.ends_coalesceChains (asked : net.dataParallelSections = .ok (regs, notes))
    (strands : net.Strands (net.longChains regs)) (shortening : cur.Shortening reg entries)
    (bundle : cur.Bundle reg chains)
    (upTo : net.CoalescedUpTo (net.longChains regs) (chains ++ net.longChains entries) parts cur)
    (unchanged : ∀ entry ∈ entries, ∀ others, net.Bundle entry.1 others → cur.Bundle entry.1 others)
    (held : holds cur) :
    (chains.forM Edit.coalesceChain).Ends cur
      (fun _ next => next.Reducing entries ∧ holds next ∧
        (∀ entry ∈ entries, ∀ others, net.Bundle entry.1 others → next.Bundle entry.1 others) ∧
        ∃ parts, net.CoalescedUpTo (net.longChains regs) (net.longChains entries) parts next)
      fun next => net.HasNestedBranch ∧ ∃ cur, holds cur ∧ cur.Renamed next ∧ cur.Evolves next := by
  -- The branches that were replaced stand in front of those that were not.
  refine (Edit.ends_forM
    (fun left now => ∃ done parts, (∀ chain ∈ done, chain.length ≤ 1) ∧
      now.Bundle reg (done ++ left) ∧ now.Shortening reg entries ∧
      net.CoalescedUpTo (net.longChains regs) (left ++ net.longChains entries) parts now ∧
      (∀ entry ∈ entries, ∀ others, net.Bundle entry.1 others → now.Bundle entry.1 others) ∧
      holds now) ?_ ⟨[], parts, by simp, bundle, shortening, upTo, unchanged, held⟩).imp ?_
  · rintro chain left now ⟨done, parts, single, bundle, shortening, upTo, unchanged, held⟩
    have mem : chain ∈ done ++ chain :: left := by simp
    have member :=
      (mem_longChains_iff_coalesces asked).mp (upTo.order ▸ by simp : chain ∈ net.longChains regs)
    obtain ⟨first, last, entry, exit, proc, starts, stops, exc, got, ends⟩ :=
      bundle.ends_coalesceChain shortening.ready mem
    have inv := shortening.ready.inv
    refine (ends.and (inv.referable.keeps_coalesceChain chain)).mono ?_ ?_
    · rintro - next ⟨⟨top, fresh, repl⟩, -⟩
      obtain ⟨bundleNext, shorteningNext⟩ := shortening.replaced_chain bundle starts stops exc repl
      have coalesces : net.CoalescesTo now ⟨chain, fresh, now.coalesced chain⟩ next :=
        ⟨shortening.ready, shorteningNext.ready, member, fun id => upTo.process?_eq strands, reg, _,
          first, last, entry, exit, proc.hierarchy, bundle, mem, starts, stops, top, rfl, exc, repl⟩
      refine ⟨done ++ [[fresh]], _, fun other isOther => ?_,
        by simpa using bundleNext, shorteningNext, upTo.step strands starts stops exc got top repl,
        fun entry isEntry others bundleOther => ?_, keep held coalesces⟩
      · rcases mem_append.mp isOther with pre | isLast
        · exact single other pre
        · simp [mem_singleton.mp isLast]
      · have outside {id} (isMem : id ∈ entry.1.members others) : id ∉ chain := fun onChain =>
          bundle.disjoint (unchanged entry isEntry others bundleOther) inv shortening.ready.legal
            (shortening.others entry isEntry).symm
            isMem (Section.mem_members_of_mem mem onChain)
        refine (repl.keeps inv exc).bundle inv repl.inv (outside ?_) (outside ?_)
          (fun id isMem => outside ?_)
          (unchanged entry isEntry others bundleOther)
        · exact Section.mem_members.mpr (.inl rfl)
        · exact Section.mem_members.mpr (.inr (.inl rfl))
        · exact Section.mem_members.mpr (.inr (.inr (mem_flatten.mp isMem)))
    · rintro next ⟨⟨low, renamed⟩, evo, -⟩
      obtain ⟨origin, branches, coalesces, isBranch⟩ := member
      rw [upTo.process?_eq strands exc.start_mem] at got
      exact ⟨⟨origin, branches, chain, first, proc, coalesces, isBranch, starts, got, low⟩, now,
        held, renamed, evo⟩
  · rintro _ next ⟨done, parts, single, bundle, shortening, upTo, unchanged, held⟩
    exact ⟨shortening.reducing (by simpa using bundle) single, held, unchanged, parts, upTo⟩

theorem Ready.ends_coalesceDataParallel (ready : net.Ready) (start : holds net) :
    Edit.coalesceDataParallel.Ends net
      (fun report next => report.Harmless ∧ next.Reducing [] ∧ holds next ∧
        ∃ regs notes parts, net.dataParallelSections = .ok (regs, notes) ∧
          net.CoalescedUpTo (net.longChains regs) [] parts next)
      fun next => net.HasNestedBranch ∧ ∃ cur, holds cur ∧ cur.Renamed next ∧ cur.Evolves next := by
  obtain ⟨regs, notes, asked, harmless, reducingNet⟩ := ready.reducing
  have strands := reducingNet.awaiting.strands ready
  unfold Edit.coalesceDataParallel
  simp only [Edit.ends_bind, Edit.ends_get, ready.legal.ensureFlat_eq, Edit.ends_answer, asked]
  refine (Edit.ends_foldlM
    (fun rest (report : Report) cur => rest ⊆ regs ∧ report.Harmless ∧ cur.Reducing rest ∧
      holds cur ∧
      (∀ entry ∈ rest, ∀ others, net.Bundle entry.1 others → cur.Bundle entry.1 others) ∧
      ∃ parts, net.CoalescedUpTo (net.longChains regs) (net.longChains rest) parts cur) ?_
    ⟨List.Subset.refl _, harmless, reducingNet, start,
      fun _ _ _ bundle => bundle, [], .refl ready.inv, rfl, by simp, by simp⟩).imp ?_
  · rintro ⟨reg, len⟩ rest report cur ⟨known, harmless, reducing, held, unchanged, parts, upTo⟩
    have new (entry : Section × Nat) (mem : entry ∈ rest) := unchanged entry (mem_cons_of_mem _ mem)
    have knownRest : rest ⊆ regs := fun entry mem => known (mem_cons_of_mem _ mem)
    by_cases short : len ≤ 1
    · have same : net.longChains ((reg, len) :: rest) = net.longChains rest := by
        simp [longChains, short]
      simp only [short, if_true, Edit.ends_pure]
      exact ⟨knownRest, harmless, reducing.tail short, held, new, parts, same ▸ upTo⟩
    · obtain ⟨-, chains, bundleNet, -⟩ := reducingNet.awaiting.bundles _ (known mem_cons_self)
      have bundle := unchanged _ mem_cons_self chains bundleNet
      rw [bundleNet.longChains_cons ready.inv short] at upTo
      simp only [short, if_false, Edit.ends_bind, Edit.ends_get,
        bundle.branchChains_eq reducing.ready.inv, Edit.ends_answer, Edit.ends_pure]
      exact (reducing.shortening.ends_coalesceChains holds keep asked strands bundle upTo
        new held).imp
        fun _ _ done => ⟨knownRest, harmless, done⟩
  · rintro report next ⟨-, harmless, reduced, held, -, parts, upTo⟩
    exact ⟨harmless, reduced, held, regs, notes, parts, rfl, upTo⟩

end Rule

theorem Prepared.ends_coalesceDataParallel (prep : net.Prepared kept) :
    Edit.coalesceDataParallel.Ends net
      (fun report next => report.Harmless ∧ next.Reducing [] ∧ next.Prepared kept)
      fun _ => False := by
  refine (prep.ready.ends_coalesceDataParallel (Prepared kept) (fun held coalesces => ?_) prep).mono
    (fun _ _ done => ⟨done.1, done.2.1, done.2.2.1⟩) ?_
  · obtain ⟨_, _, _, _, _, _, _, -, -, -, -, top, kind, exc, repl⟩ := coalesces.replaced
    exact held.replaced coalesces.readyNext top exc (by rw [kind]; rfl) repl
  · rintro _ ⟨⟨_, _, _, _, _, -, -, -, got, low⟩, -⟩
    exact low (prep.top got)

end Dataflow.Network
