import Dataflow.Proofs.Transform.Fusion

/-! Replacing the branches of data-parallel sections by one process each. -/

open List

namespace Dataflow

namespace Network

variable {net next : Network} {id stop start : ProcessId} {key : PortKey} {chain : List ProcessId}
  {reg : Section}
  {chains front back : List (List ProcessId)} {proc : Process}

/-- The process that takes the place of a chain of maps. -/
def coalesced (net : Network) (chain : List ProcessId) : Kind Composite :=
  .coalescedMap (net.functionsOf chain)

theorem Branch.key_eq {other : ProcessId} {rest : List ProcessId} {far : PortKey}
    (first : net.Branch stop key chain) (second : net.Branch other far rest) (inv : net.Consistent)
    (got : net.process? start = some proc) (mem : key ∈ proc.outPorts)
    (memFar : far ∈ proc.outPorts) (unzips : proc.kind.isUnzip) (shared : id ∈ chain)
    (sharedToo : id ∈ rest) : key = far := by
  obtain ⟨head, starts⟩ := first.exists_first
  obtain ⟨-, sameHead⟩ :=
    first.start_eq second inv got mem unzips got memFar unzips shared sharedToo
  rw [starts] at sameHead
  obtain ⟨member, entry, -, gotHead, ins, -⟩ := first.line.simple head (mem_of_head? starts)
  have reaches {near} (isOut : near ∈ proc.outPorts) (leads : net.remote near = some head) :
      ∃ port, net.port? near = some port ∧ port.connection = some entry := by
    obtain ⟨port, into, peer, has, conn, hasPeer, owned⟩ := remote_eq_some.mp leads
    obtain ⟨-, leaves⟩ := of_found has (inv.listed_out got isOut)
    have enters := inv.linked.crosses has conn hasPeer leaves
    obtain rfl := inv.eq_of_inPorts gotHead ins hasPeer owned enters
    exact ⟨port, has, conn⟩
  obtain ⟨port, has, conn⟩ := reaches mem (first.enters.trans starts)
  obtain ⟨peer, hasPeer, connPeer⟩ := reaches memFar (second.enters.trans sameHead.symm)
  exact inv.linked.unique has hasPeer conn connPeer

namespace Bundle

theorem pairwise (bundle : net.Bundle reg chains) (inv : net.Consistent) :
    chains.Pairwise List.Disjoint := by
  obtain ⟨proc, got, unzips, branches⟩ := bundle.opens
  refine pairwise_of_forall₂ branches (inv.nodup_outPorts got)
    fun key isKey far isFar chain rest first second apart => ?_
  intro id shared sharedToo
  exact apart (first.key_eq second inv got isKey isFar unzips shared sharedToo)

theorem not_mem_of_mem (bundle : net.Bundle reg (front ++ chain :: back)) (inv : net.Consistent)
    {other : List ProcessId} (mem : other ∈ front ++ back) (isMem : id ∈ other) : id ∉ chain := by
  have apart := bundle.pairwise inv
  rw [pairwise_append, pairwise_cons] at apart
  obtain ⟨-, ⟨behind, -⟩, across⟩ := apart
  intro shared
  rcases mem_append.mp mem with pre | after
  · exact across other pre chain mem_cons_self isMem shared
  · exact behind other after shared isMem

section

variable (bundle : net.Bundle reg chains) (inv : net.Consistent) (mem : chain ∈ chains)

include bundle inv mem

theorem not_feeds {first last : ProcessId} (starts : chain.head? = some first)
    (stops : chain.getLast? = some last) : ¬ net.Feeds last first := by
  intro feeds
  obtain ⟨proc, key, got, -, isKey, branch⟩ := bundle.exists_branch mem
  have feedsFirst := inv.feeds_of_remote got isKey (branch.enters.trans starts)
  obtain rfl := (branch.line.simple first (mem_of_head? starts)).source_unique inv feeds feedsFirst
  exact bundle.start_not_mem mem (mem_of_getLast? stops)

theorem excisable_chain :
    ∃ first last entry exit, chain.head? = some first ∧ chain.getLast? = some last ∧
      net.Excisable first last chain entry exit := by
  obtain ⟨proc, key, -, -, -, branch⟩ := bundle.exists_branch mem
  obtain ⟨first, starts⟩ := branch.exists_first
  obtain ⟨last, stops, -⟩ := branch.leaves
  obtain ⟨entry, exit, exc⟩ :=
    branch.line.excisable inv starts stops (bundle.not_feeds inv mem starts stops)
  exact ⟨first, last, entry, exit, starts, stops, exc⟩

end

end Bundle

section Replacement

variable {first last fresh : ProcessId} {entry exit : PortKey} {hier : Hierarchy}

theorem Bundle.ready_replaced (bundle : net.Bundle reg chains) (ready : net.Ready)
    (mem : chain ∈ chains) (starts : chain.head? = some first) (stops : chain.getLast? = some last)
    (exc : net.Excisable first last chain entry exit)
    (repl : net.Replaced chain entry exit fresh (net.coalesced chain) hier next) : next.Ready := by
  obtain ⟨proc, key, -, -, -, branch⟩ := bundle.exists_branch mem
  refine branch.line.ready_replaced ready branch.shaped starts stops exc repl rfl ?_
  simp [coalesced, Kind.payloadDefect?,
    ready.legal.functionsOf_ne_nil (ne_nil_of_mem exc.start_mem) branch.shaped]

/-- A branch that consists of the process that took the place of another branch. -/
theorem Branch.replaced (branch : net.Branch stop key chain) (inv : net.Consistent)
    (got : net.process? start = some proc) (isKey : key ∈ proc.outPorts)
    (starts : chain.head? = some first) (stops : chain.getLast? = some last)
    (startStays : start ∉ chain) (exc : net.Excisable first last chain entry exit)
    (repl : net.Replaced chain entry exit fresh (net.coalesced chain) hier next) :
    next.Branch stop key [fresh] := by
  have placed : next.process? fresh =
      some ⟨net.coalesced chain, hier, [net.ports.nextKey], [net.ports.nextKey + 1]⟩ := by
    rw [repl.processes, if_pos rfl]
  refine ⟨?_, ⟨fun id mem => ?_, by simp, by simp⟩, fun id mem => ?_, fresh, rfl, ?_⟩
  · obtain ⟨port, into, peer, has, conn, hasPeer, owned⟩ :=
      remote_eq_some.mp (branch.enters.trans starts)
    obtain ⟨rfl, leaves⟩ := of_found has (inv.listed_out got isKey)
    obtain ⟨head, gotHead, ins⟩ := exc.starts
    have enters := inv.linked.crosses has conn hasPeer leaves
    obtain rfl := inv.eq_of_inPorts gotHead ins hasPeer owned enters
    exact repl.remote_entry inv exc has startStays conn
  · obtain rfl := mem_singleton.mp mem
    exact ⟨_, _, _, placed, rfl, rfl⟩
  · obtain rfl := mem_singleton.mp mem
    simp [isMapShaped, placed, coalesced, Kind.isMapShaped]
  · obtain ⟨too, isLast, feeds⟩ := branch.leaves
    obtain rfl : last = too := Option.mem_unique stops isLast
    exact (repl.feeds inv exc).mpr (.inr (.inr ⟨rfl, feeds⟩))

theorem Sealed.replaced_chain (isSealed : net.Sealed reg (front ++ chain :: back))
    (inv : net.Consistent) (starts : chain.head? = some first) (stops : chain.getLast? = some last)
    (exc : net.Excisable first last chain entry exit)
    (repl : net.Replaced chain entry exit fresh (net.coalesced chain) hier next) :
    next.Sealed reg (front ++ [fresh] :: back) := by
  have bundle := isSealed.toBundle
  have keeps := repl.keeps inv exc
  have mem : chain ∈ front ++ chain :: back := by simp
  have startStays := bundle.start_not_mem mem
  have stopStays := bundle.stop_not_mem mem
  obtain ⟨proc, got, unzips, branches⟩ := bundle.opens
  obtain ⟨closer, gotStop, zips⟩ := (Option.any_eq_true _ _).mp bundle.closes
  refine ⟨⟨⟨proc, repl.process_of got startStays, unzips, ?_⟩, ?_⟩,
    repl.fed inv exc isSealed.fed (repl.ne_fresh gotStop)⟩
  · -- The ports split where the branches do, and all branches but one stay.
    have others {keys parts} (known : keys ⊆ proc.outPorts)
        (inside : parts ⊆ front ++ back) (rel : List.Forall₂ (net.Branch reg.stop) keys parts) :
        List.Forall₂ (next.Branch reg.stop) keys parts := by
      refine forall₂_iff_zip.mpr ⟨rel.length_eq, fun {key part} paired => ?_⟩
      obtain ⟨isKey, isPart⟩ := of_mem_zip paired
      exact keeps.branch inv repl.inv startStays got (known isKey) stopStays
        (fun id isMem => bundle.not_mem_of_mem inv (inside isPart) isMem)
        ((forall₂_iff_zip.mp rel).2 paired)
    have pre := forall₂_take_append _ front (chain :: back) branches
    obtain ⟨key, keysBack, branch, after, ports⟩ :=
      forall₂_cons_right_iff.mp (forall₂_drop_append _ front (chain :: back) branches)
    have split : proc.outPorts = proc.outPorts.take front.length ++ key :: keysBack := by
      rw [← ports, take_append_drop]
    have known : key :: keysBack ⊆ proc.outPorts := ports ▸ drop_subset _ _
    rw [split]
    refine rel_append (others (take_subset _ _) (by simp) pre) (.cons ?_ ?_)
    · exact branch.replaced inv got (known mem_cons_self) starts stops startStays exc repl
    · exact others (fun _ isKey => known (mem_cons_of_mem _ isKey)) (by simp) after
  · simp [isZip, repl.process_of gotStop stopStays, zips]

end Replacement

theorem Bundle.ends_coalesceChain (bundle : net.Bundle reg chains) (ready : net.Ready)
    (mem : chain ∈ chains) :
    ∃ first last entry exit proc, chain.head? = some first ∧ chain.getLast? = some last ∧
      net.Excisable first last chain entry exit ∧ net.process? first = some proc ∧
      (Edit.coalesceChain chain).Ends net
        (fun _ next => proc.hierarchy.parent? = none ∧
          ∃ fresh, net.Replaced chain entry exit fresh (net.coalesced chain) proc.hierarchy next)
        (fun next => proc.hierarchy.parent? ≠ none ∧ net.Renamed next) := by
  obtain ⟨first, last, entry, exit, starts, stops, exc⟩ :=
    bundle.excisable_chain ready.inv mem
  obtain ⟨proc, got, -⟩ := exc.starts
  refine ⟨first, last, entry, exit, proc, starts, stops, exc, got, ?_⟩
  have fns := chainFunctions_eq (bundle.exist mem)
  have steps : (Edit.coalesceChain chain).run net =
      (Edit.replaceRegion first last "_coalesced" (net.coalesced chain)).run net := by
    simp only [Edit.coalesceChain, starts, stops, EStateM.run_bind, EStateM.run_get, fns,
      Edit.run_answer]
    rfl
  rw [Edit.Ends, steps]
  exact ready.ends_replaceRegion exc got "_coalesced" rfl

end Network

end Dataflow
