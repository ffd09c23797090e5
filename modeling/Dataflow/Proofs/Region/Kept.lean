import Dataflow.Proofs.Region.Bundle

/-! What a change of a network keeps of the regions that it does not touch. -/

open List

namespace Dataflow.Network

variable {net next : Network} {kept : ProcessId → Prop} {id src dst stop start : ProcessId}
  {key : PortKey}
  {chain : List ProcessId} {reg : Section} {chains : List (List ProcessId)}

/-- The given processes are the same in both networks, and so are the connections between them. -/
structure Keeps (net next : Network) (kept : ProcessId → Prop) : Prop where
  process : ∀ {id process}, kept id → net.process? id = some process →
    next.process? id = some process
  remote : ∀ {id process key target}, kept id → net.process? id = some process →
    key ∈ process.outPorts → net.remote key = some target → kept target →
    next.remote key = some target

namespace Keeps

variable (keeps : net.Keeps next kept)

include keeps

theorem feeds (inv : net.Consistent) (new : next.Consistent) (keptSrc : kept src)
    (keptDst : kept dst) (feeds : net.Feeds src dst) : next.Feeds src dst := by
  obtain ⟨proc, got⟩ := inv.exists_source feeds
  obtain ⟨key, mem, leads⟩ := (inv.feeds_iff_out got).mp feeds
  exact new.feeds_of_remote (keeps.process keptSrc got) mem
    (keeps.remote keptSrc got mem leads keptDst)

theorem line (inv : net.Consistent) (new : next.Consistent) (keptChain : ∀ id ∈ chain, kept id)
    (line : net.Line chain) : next.Line chain := by
  refine ⟨fun id mem => ?_, ?_, line.once⟩
  · obtain ⟨proc, entry, exit, got, ports⟩ := line.simple id mem
    exact ⟨proc, entry, exit, keeps.process (keptChain id mem) got, ports⟩
  · refine List.IsChain.imp_of_mem_imp (fun a b memA memB feeds => ?_) line.chained
    exact keeps.feeds inv new (keptChain a memA) (keptChain b memB) feeds

theorem isMapShaped (keptId : kept id) (shaped : net.isMapShaped id) : next.isMapShaped id := by
  obtain ⟨proc, got, isMap⟩ := (Option.any_eq_true _ _).mp shaped
  simp [Network.isMapShaped, keeps.process keptId got, isMap]

/-- A branch of processes that are kept is kept. -/
theorem branch (inv : net.Consistent) (new : next.Consistent) {proc : Process}
    (keptStart : kept start) (got : net.process? start = some proc) (mem : key ∈ proc.outPorts)
    (keptStop : kept stop) (keptChain : ∀ id ∈ chain, kept id)
    (branch : net.Branch stop key chain) : next.Branch stop key chain := by
  obtain ⟨first, starts⟩ := branch.exists_first
  obtain ⟨last, stops, feeds⟩ := branch.leaves
  refine ⟨?_, keeps.line inv new keptChain branch.line,
    fun id mem => keeps.isMapShaped (keptChain id mem) (branch.shaped id mem), last, stops,
    keeps.feeds inv new (keptChain last (mem_of_getLast? stops)) keptStop feeds⟩
  rw [starts]
  exact keeps.remote keptStart got mem (branch.enters.trans starts)
    (keptChain first (mem_of_head? starts))

/-- A bundle of processes that are kept is kept. -/
theorem bundle (inv : net.Consistent) (new : next.Consistent) (keptStart : kept reg.start)
    (keptStop : kept reg.stop) (keptChains : ∀ id ∈ chains.flatten, kept id)
    (bundle : net.Bundle reg chains) : next.Bundle reg chains := by
  obtain ⟨proc, got, unzips, branches⟩ := bundle.opens
  obtain ⟨closer, gotStop, zips⟩ := (Option.any_eq_true _ _).mp bundle.closes
  refine ⟨⟨proc, keeps.process keptStart got, unzips, ?_⟩, ?_⟩
  · refine forall₂_iff_zip.mpr ⟨branches.length_eq, fun {key chain} paired => ?_⟩
    obtain ⟨mem, isChain⟩ := of_mem_zip paired
    exact keeps.branch inv new keptStart got mem keptStop
      (fun id isMem => keptChains id (mem_flatten.mpr ⟨chain, isChain, isMem⟩))
      ((forall₂_iff_zip.mp branches).2 paired)
  · simp [isZip, keeps.process keptStop gotStop, zips]

/-- Branches of processes that are kept do the same as before. -/
theorem uniform (keptChains : ∀ id ∈ chains.flatten, kept id) {len : Nat}
    (unif : net.Uniform chains len) : next.Uniform chains len := by
  have keptMem {chain} (mem : chain ∈ chains) {id} (isMem : id ∈ chain) : kept id :=
    keptChains id (mem_flatten.mpr ⟨chain, mem, isMem⟩)
  have kinds {chain} (mem : chain ∈ chains) : chain.map next.kindOf = chain.map net.kindOf := by
    refine map_congr_left fun id isMem => ?_
    obtain ⟨proc, got, -⟩ := (Option.any_eq_true _ _).mp (unif.shaped chain mem id isMem)
    simp [kindOf, got, keeps.process (keptMem mem isMem) got]
  refine ⟨unif.some, unif.positive, unif.lengths, fun chain mem id isMem => ?_,
    fun chain mem other memOther => ?_⟩
  · exact keeps.isMapShaped (keptMem mem isMem) (unif.shaped chain mem id isMem)
  · rw [kinds mem, kinds memOther]
    exact unif.same chain mem other memOther

end Keeps

/-- A replacement keeps what is outside the region. -/
theorem Replaced.keeps {fresh : ProcessId} {gone : List ProcessId} {entry exit : PortKey}
    {kind : Kind Composite} {hier : Hierarchy}
    (repl : net.Replaced gone entry exit fresh kind hier next) (inv : net.Consistent)
    (exc : net.Excisable start stop gone entry exit) : net.Keeps next (· ∉ gone) where
  process stays got := repl.process_of got stays
  remote stays got mem leads staysDst := by
    obtain ⟨port, has, rfl, -⟩ := inv.listed got (show _ ∈ Process.ports _ .output from mem)
    exact repl.remote_of inv exc has stays leads staysDst

end Dataflow.Network
