import Dataflow.Proofs.Region.Kept

/-! Sealed bundles: regions between an unzip and a zip that one process can take the place of. -/

open List Option

namespace Dataflow

/-- The processes of a region with the given branches. -/
def Section.members (region : Section) (chains : List (List ProcessId)) : List ProcessId :=
  region.start :: region.stop :: chains.flatten

theorem Section.mem_members {reg : Section} {chains : List (List ProcessId)} {id : ProcessId} :
    id ∈ reg.members chains ↔ id = reg.start ∨ id = reg.stop ∨ ∃ chain ∈ chains, id ∈ chain := by
  simp [members]

theorem Section.start_mem {reg : Section} {chains : List (List ProcessId)} :
    reg.start ∈ reg.members chains :=
  List.mem_cons_self

theorem Section.stop_mem {reg : Section} {chains : List (List ProcessId)} :
    reg.stop ∈ reg.members chains :=
  List.mem_cons_of_mem _ List.mem_cons_self

theorem Section.mem_members_of_mem {reg : Section} {chains : List (List ProcessId)}
    {chain : List ProcessId} {id : ProcessId} (mem : chain ∈ chains) (onChain : id ∈ chain) :
    id ∈ reg.members chains :=
  mem_members.mpr (.inr (.inr ⟨chain, mem, onChain⟩))

namespace Network

variable {net next : Network} {id src dst stop start fresh : ProcessId} {key entry exit : PortKey}
  {chain gone : List ProcessId} {reg : Section} {chains : List (List ProcessId)}
  {kind : Kind Composite} {hier : Hierarchy}

/-- A bundle whose stop has no open in-port. -/
structure Sealed (net : Network) (region : Section) (chains : List (List ProcessId)) : Prop
    extends net.Bundle region chains where
  fed : ∀ {key port}, net.port? key = some port → port.owner = region.stop →
    port.direction = .input → port.connection ≠ none

theorem Branch.exists_target (branch : net.Branch stop key chain) (mem : id ∈ chain) :
    ∃ dst, net.Feeds id dst ∧ (dst = stop ∨ dst ∈ chain) := by
  obtain ⟨last, stops, feeds⟩ := branch.leaves
  by_cases isLast : chain.getLast? = some id
  · grind
  · obtain ⟨front, next, back, split, feedsNext⟩ :=
      exists_next_of_isChain branch.line.chained mem isLast
    exact ⟨next, feedsNext, .inr (by simp [split])⟩

/-- What precedes a member of a branch is the member before it or the start. -/
theorem Branch.exists_source (branch : net.Branch stop key chain) (inv : net.Consistent)
    {proc : Process} (got : net.process? start = some proc) (isKey : key ∈ proc.outPorts)
    (mem : id ∈ chain) : ∃ src, net.Feeds src id ∧ (src = start ∨ src ∈ chain) := by
  by_cases isFirst : chain.head? = some id
  · exact ⟨start, inv.feeds_of_remote got isKey (branch.enters.trans isFirst), .inl rfl⟩
  · obtain ⟨front, previous, back, split, feeds⟩ :=
      exists_previous_of_isChain branch.line.chained mem isFirst
    exact ⟨previous, feeds, .inr (by simp [split])⟩

namespace Bundle

variable (bundle : net.Bundle reg chains)

include bundle

theorem isUnzip_start : net.isUnzip reg.start := by
  obtain ⟨proc, got, unzips, -⟩ := bundle.opens
  simpa [isUnzip, got] using unzips

theorem start_ne_stop : reg.start ≠ reg.stop := fun same =>
  not_isZip_of_isUnzip bundle.isUnzip_start (same ▸ bundle.closes)

theorem isMapShaped (mem : chain ∈ chains) (isMem : id ∈ chain) : net.isMapShaped id := by
  obtain ⟨proc, key, -, -, -, branch⟩ := bundle.exists_branch mem
  exact branch.shaped id isMem

theorem start_not_mem (mem : chain ∈ chains) : reg.start ∉ chain := fun isMem =>
  not_isUnzip_of_isMapShaped (bundle.isMapShaped mem isMem) bundle.isUnzip_start

theorem stop_not_mem (mem : chain ∈ chains) : reg.stop ∉ chain := fun isMem =>
  not_isZip_of_isMapShaped (bundle.isMapShaped mem isMem) bundle.closes

theorem start_outer : reg.start ∉ chains.flatten := fun isMem => by
  obtain ⟨chain, mem, onChain⟩ := mem_flatten.mp isMem
  exact bundle.start_not_mem mem onChain

theorem stop_outer : reg.stop ∉ chains.flatten := fun isMem => by
  obtain ⟨chain, mem, onChain⟩ := mem_flatten.mp isMem
  exact bundle.stop_not_mem mem onChain

theorem not_isDelay (isMem : id ∈ reg.members chains) : ¬ net.isDelay id := by
  rcases Section.mem_members.mp isMem with rfl | rfl | ⟨chain, mem, isMem⟩
  · obtain ⟨proc, got, unzips⟩ := (any_eq_true _ _).mp bundle.isUnzip_start
    simp only [isDelay, got, any_some]
    cases kind : proc.kind <;> simp_all [Kind.isUnzip, Kind.isDelay]
  · obtain ⟨proc, got, zips⟩ := (any_eq_true _ _).mp bundle.closes
    simp only [isDelay, got, any_some]
    cases kind : proc.kind <;> simp_all [Kind.isZip, Kind.isDelay]
  · exact not_isDelay_of_isMapShaped (bundle.isMapShaped mem isMem)

theorem exists_chain (legal : net.Legal) : ∃ chain, chain ∈ chains := by
  obtain ⟨proc, got, unzips, branches⟩ := bundle.opens
  have ports : proc.outPorts ≠ [] := by
    have admitted := legal.admits got
    intro empty
    cases kind : proc.kind <;> simp_all [Kind.isUnzip, Kind.arity, Arity.admits]
  refine exists_mem_of_ne_nil _ fun empty => ports ?_
  rw [empty, forall₂_nil_right_iff] at branches
  exact branches

theorem way (inv : net.Consistent) (mem : chain ∈ chains) :
    (reg.start :: (chain ++ [reg.stop])).IsChain net.Feeds ∧
    (reg.start :: (chain ++ [reg.stop])).Nodup ∧
    reg.start :: (chain ++ [reg.stop]) ⊆ reg.members chains := by
  obtain ⟨proc, key, got, -, isKey, branch⟩ := bundle.exists_branch mem
  obtain ⟨first, starts⟩ := branch.exists_first
  obtain ⟨last, stops, feedsStop⟩ := branch.leaves
  refine ⟨isChain_cons.mpr
    ⟨fun second isSecond => ?_, Graph.isChain_concat.mpr ⟨branch.line.chained, ?_⟩⟩,
    nodup_cons.mpr ⟨?_, Graph.nodup_concat.mpr ⟨branch.line.once, bundle.stop_not_mem mem⟩⟩,
    fun id isMem => ?_⟩
  · rw [head?_append, starts, some_or, mem_some_iff] at isSecond
    exact isSecond ▸ inv.feeds_of_remote got isKey (branch.enters.trans starts)
  · grind
  · simp [bundle.start_not_mem mem, bundle.start_ne_stop]
  · rw [Section.mem_members]
    simp only [mem_cons, mem_append, not_mem_nil, or_false] at isMem
    rcases isMem with rfl | onChain | rfl
    · exact .inl rfl
    · exact .inr (.inr ⟨chain, mem, onChain⟩)
    · exact .inr (.inl rfl)

/-- What feeds the start is no member. -/
theorem source_outside (inv : net.Consistent) (legal : net.Legal)
    (feeds : net.Feeds src reg.start) : src ∉ reg.members chains := by
  intro isMem
  -- A loop inside the bundle would be without a delay.
  have instant {loop} (isLoop : net.IsLoop loop) (inside : loop ⊆ reg.members chains) : False := by
    obtain ⟨id, onLoop, delays⟩ := legal.delayed isLoop
    exact bundle.not_isDelay (inside onLoop) delays
  rcases Section.mem_members.mp isMem with rfl | rfl | ⟨chain, mem, onChain⟩
  · refine instant (show net.IsLoop [reg.start] from ⟨_, [], rfl, ?_⟩) (by simp [Section.start_mem])
    simpa using feeds
  · obtain ⟨chain, mem⟩ := bundle.exists_chain legal
    obtain ⟨chained, -, inside⟩ := bundle.way inv mem
    refine instant ⟨_, _, rfl, Graph.isChain_concat.mpr ⟨chained, fun last isLast => ?_⟩⟩ inside
    rw [← cons_append, getLast?_concat] at isLast
    exact some.inj isLast ▸ feeds
  · obtain ⟨proc, key, -, -, -, branch⟩ := bundle.exists_branch mem
    obtain ⟨dst, feedsDst, isDst⟩ := branch.exists_target onChain
    obtain rfl := (branch.line.simple _ onChain).target_unique inv feeds feedsDst
    rcases isDst with isStop | isMem
    · exact bundle.start_ne_stop isStop
    · exact bundle.start_not_mem mem isMem

/-- What the stop feeds is no member. -/
theorem target_outside (inv : net.Consistent) (legal : net.Legal) (feeds : net.Feeds reg.stop dst) :
    dst ∉ reg.members chains := by
  intro isMem
  rcases Section.mem_members.mp isMem with rfl | rfl | ⟨chain, mem, onChain⟩
  · exact bundle.source_outside inv legal feeds Section.stop_mem
  · obtain ⟨id, onLoop, delays⟩ :=
      legal.delayed (show net.IsLoop [reg.stop] from ⟨_, [], rfl, by simpa using feeds⟩)
    obtain rfl := mem_singleton.mp onLoop
    exact bundle.not_isDelay isMem delays
  · obtain ⟨proc, key, got, -, isKey, branch⟩ := bundle.exists_branch mem
    obtain ⟨src, feedsToo, isSrc⟩ := branch.exists_source inv got isKey onChain
    obtain rfl := (branch.line.simple _ onChain).source_unique inv feeds feedsToo
    rcases isSrc with isStart | isMem
    · exact bundle.start_ne_stop isStart.symm
    · exact bundle.stop_not_mem mem isMem

end Bundle

theorem Reports.sealed (reports : net.Reports reg) (inv : net.Consistent)
    (bundle : net.Bundle reg chains) : net.Sealed reg chains := by
  refine ⟨bundle, fun {key port} has owned enters open_ => ?_⟩
  obtain ⟨around, closed, inside⟩ := reports.2.2.2
  obtain ⟨proc, got, -, onwards⟩ := closed reg.stop inside (Ne.symm bundle.start_ne_stop)
  have mem := inv.mem_ports got has owned
  rw [enters] at mem
  obtain ⟨next, leads, -⟩ := onwards key mem
  obtain ⟨same, other, -, hasSame, conn, -⟩ := remote_eq_some.mp leads
  rw [has] at hasSame
  cases hasSame
  simp [open_] at conn

/-- A sealed bundle is entered at one port and left at another one. -/
theorem Sealed.excisable (isSealed : net.Sealed reg chains) (inv : net.Consistent)
    (legal : net.Legal) :
    ∃ entry exit, net.Excisable reg.start reg.stop (reg.members chains) entry exit := by
  have bundle := isSealed.toBundle
  obtain ⟨front, gotStart, unzips, branches⟩ := bundle.opens
  obtain ⟨back, gotStop, zips⟩ := (any_eq_true _ _).mp bundle.closes
  obtain ⟨entry, ins⟩ : ∃ entry, front.inPorts = [entry] := by
    have admitted := legal.admits gotStart
    cases kind : front.kind <;> simp_all [Kind.isUnzip, Kind.arity, Arity.admits, length_eq_one_iff]
  obtain ⟨exit, outs⟩ : ∃ exit, back.outPorts = [exit] := by
    have admitted := legal.admits gotStop
    cases kind : back.kind <;> simp_all [Kind.isZip, Kind.arity, Arity.admits, length_eq_one_iff]
  refine ⟨entry, exit, ⟨front, gotStart, ins⟩, ⟨back, gotStop, outs⟩, Section.start_mem,
    Section.stop_mem, ?_, ?_, ?_, ?_, ?_⟩
  · intro key port has owned leaves notExit
    rcases Section.mem_members.mp owned with isStart | isStop | ⟨chain, mem, onChain⟩
    · -- The out-ports of the start lead to the first members of the branches.
      have isKey := inv.mem_ports gotStart has isStart
      rw [leaves] at isKey
      obtain ⟨chain, isChain, branch⟩ := exists_of_forall₂ branches.flip isKey
      obtain ⟨first, starts⟩ := branch.exists_first
      obtain ⟨same, other, peer, hasSame, conn, hasPeer, ownsPeer⟩ :=
        remote_eq_some.mp (branch.enters.trans starts)
      rw [has] at hasSame
      cases hasSame
      refine ⟨other, peer, conn, hasPeer,
        Section.mem_members.mpr (.inr (.inr ⟨chain, isChain, ?_⟩))⟩
      exact ownsPeer ▸ mem_of_head? starts
    · exact absurd (inv.eq_of_outPorts gotStop outs has isStop leaves) notExit
    · obtain ⟨proc, out, -, -, -, branch⟩ := bundle.exists_branch mem
      obtain ⟨dst, feeds, isDst⟩ := branch.exists_target onChain
      obtain ⟨member, -, only, gotMem, -, single⟩ := branch.line.simple _ onChain
      obtain ⟨near, nearPort, other, peer, hasNear, isOut, conn, hasPeer, ownsNear, rfl⟩ := feeds
      obtain rfl := inv.eq_of_outPorts gotMem single has rfl leaves
      obtain rfl := inv.eq_of_outPorts gotMem single hasNear ownsNear isOut
      rw [has] at hasNear
      cases hasNear
      exact ⟨other, peer, conn, hasPeer,
        Section.mem_members.mpr (.inr (isDst.imp_right fun isMem => ⟨chain, mem, isMem⟩))⟩
  · intro key port has owned enters notEntry
    rcases Section.mem_members.mp owned with isStart | isStop | ⟨chain, mem, onChain⟩
    · exact absurd (inv.eq_of_inPorts gotStart ins has isStart enters) notEntry
    · exact isSealed.fed has isStop enters
    · obtain ⟨proc, out, got, -, isOut, branch⟩ := bundle.exists_branch mem
      obtain ⟨src, feeds, -⟩ := branch.exists_source inv got isOut onChain
      obtain ⟨member, only, -, gotMem, single, -⟩ := branch.line.simple _ onChain
      obtain ⟨near, nearPort, other, peer, hasNear, leaves, conn, hasPeer, -, ownsPeer⟩ := feeds
      have isIn := inv.linked.crosses hasNear conn hasPeer leaves
      obtain rfl := inv.eq_of_inPorts gotMem single has rfl enters
      obtain rfl := inv.eq_of_inPorts gotMem single hasPeer ownsPeer isIn
      rw [has] at hasPeer
      simp [inv.linked.back hasNear conn has]
  · intro other port peer has conn hasPeer
    obtain ⟨owns, enters⟩ := of_found has (inv.exists_in gotStart ins)
    exact bundle.source_outside inv legal (owns ▸ inv.feeds_of_input has enters conn hasPeer)
  · intro other port peer has conn hasPeer
    obtain ⟨owns, leaves⟩ := of_found has (inv.exists_out gotStop outs)
    exact bundle.target_outside inv legal
      ⟨exit, port, other, peer, has, leaves, conn, hasPeer, owns, rfl⟩
  · intro around isStart step id isMem
    have along {chain} (mem : chain ∈ chains) : ∀ id ∈ reg.start :: (chain ++ [reg.stop]),
        around id := by
      obtain ⟨chained, -, inside⟩ := bundle.way inv mem
      exact Line.induction_on chained inside (fun first isFirst => by simp_all) step
    rcases Section.mem_members.mp isMem with rfl | rfl | ⟨chain, mem, onChain⟩
    · exact isStart
    · obtain ⟨chain, mem⟩ := bundle.exists_chain legal
      exact along mem _ (by simp)
    · exact along mem id (by simp [onChain])

/-- Bundles with different stops have no process in common. -/
theorem Bundle.disjoint {other : Section} {others : List (List ProcessId)}
    (first : net.Bundle reg chains) (second : net.Bundle other others) (inv : net.Consistent)
    (legal : net.Legal) (apart : reg.stop ≠ other.stop) (isMem : id ∈ other.members others) :
    id ∉ reg.members chains := by
  have startsApart : reg.start ≠ other.start := fun same =>
    apart (congrArg Section.stop (first.unique second inv legal same).1)
  intro isMemToo
  rcases Section.mem_members.mp isMem with rfl | rfl | ⟨rest, memRest, onRest⟩ <;>
    rcases Section.mem_members.mp isMemToo with same | same | ⟨chain, mem, onChain⟩
  · exact startsApart same.symm
  · exact not_isZip_of_isUnzip second.isUnzip_start (same ▸ first.closes)
  · exact not_isUnzip_of_isMapShaped (first.isMapShaped mem onChain) second.isUnzip_start
  · exact not_isZip_of_isUnzip first.isUnzip_start (same ▸ second.closes)
  · exact apart same.symm
  · exact not_isZip_of_isMapShaped (first.isMapShaped mem onChain) second.closes
  · exact not_isUnzip_of_isMapShaped (second.isMapShaped memRest onRest)
      (same ▸ first.isUnzip_start)
  · exact not_isZip_of_isMapShaped (second.isMapShaped memRest onRest) (same ▸ first.closes)
  · refine startsApart (first.start_eq second inv (mem_flatten.mpr ⟨chain, mem, onChain⟩) ?_)
    exact mem_flatten.mpr ⟨rest, memRest, onRest⟩

section

variable (repl : net.Replaced gone entry exit fresh kind hier next) (inv : net.Consistent)
  (exc : net.Excisable start stop gone entry exit)

include repl inv exc

/-- A replacement leaves no in-port outside the region without the connection that it had. -/
theorem Replaced.fed
    (fed : ∀ {key port}, net.port? key = some port → port.owner = id → port.direction = .input →
      port.connection ≠ none) (known : id ≠ fresh) {port : Port} (has : next.port? key = some port)
    (owned : port.owner = id) (enters : port.direction = .input) : port.connection ≠ none := by
  rcases repl.port_cases has with ⟨-, old, -, rfl⟩ | ⟨-, old, -, rfl⟩ | ⟨old, hasOld, outside, rfl⟩
  · exact absurd owned.symm known
  · exact absurd owned.symm known
  · cases conn : old.connection with
    | none => exact absurd conn (fed hasOld owned enters)
    | some other =>
      intro lost
      simp only [bind_some, rewire] at lost
      split at lost
      · cases lost
      · split at lost
        · cases lost
        · rename_i notExit
          split at lost
          · rename_i inReg
            obtain ⟨peer, hasPeer, back, differs⟩ := inv.linked hasOld conn
            have inside : peer.owner ∈ gone := by simpa [ownedBy_eq hasPeer] using inReg
            have leaves : peer.direction = .output := by
              cases side : peer.direction with
              | input => simp_all
              | output => rfl
            obtain ⟨too, peerToo, leads, hasToo, insideToo⟩ :=
              exc.leads hasPeer inside leaves notExit
            rw [back] at leads
            cases leads
            rw [hasOld] at hasToo
            cases hasToo
            exact outside insideToo
          · cases lost

theorem Replaced.sealed (isSealed : net.Sealed reg chains)
    (stays : ∀ id ∈ reg.members chains, id ∉ gone) : next.Sealed reg chains := by
  have keeps := repl.keeps inv exc
  obtain ⟨proc, got, -⟩ := (any_eq_true _ _).mp isSealed.closes
  refine ⟨keeps.bundle inv repl.inv (stays _ Section.start_mem) (stays _ Section.stop_mem)
    (fun id mem => stays id ?_) isSealed.toBundle,
    repl.fed inv exc isSealed.fed (repl.ne_fresh got)⟩
  simp only [Section.members, mem_cons, mem, or_true]

end

end Network

end Dataflow
