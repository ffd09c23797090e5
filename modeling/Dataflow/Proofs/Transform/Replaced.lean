import Dataflow.Proofs.Transform.Replace

/-! What a replacement does to the connections, and why it keeps networks legal. -/

open List Option

namespace Dataflow.Network

variable {net next : Network} {start stop fresh id src dst : ProcessId}
  {gone loop way : List ProcessId}
  {entry exit key other : PortKey} {kind : Kind Composite} {hier : Hierarchy} {port : Port}
  {proc : Process}

theorem rewire_eq_self (notEntry : other ≠ entry) (notExit : other ≠ exit)
    (stays : net.ownedBy gone other = false) : net.rewire gone entry exit other = some other := by
  simp [rewire, notEntry, notExit, stays]

section

variable (exc : net.Excisable start stop gone entry exit) (inv : net.Consistent)
  (has : net.port? key = some port)
  (outside : port.owner ∉ gone)

include exc inv has outside

theorem Excisable.ne_entry : key ≠ entry := by
  rintro rfl
  obtain ⟨owned, -⟩ := of_found has (exc.exists_entry inv)
  exact outside (owned ▸ exc.start_mem)

theorem Excisable.ne_exit : key ≠ exit := by
  rintro rfl
  obtain ⟨owned, -⟩ := of_found has (exc.exists_exit inv)
  exact outside (owned ▸ exc.stop_mem)

theorem Excisable.rewire_of : net.rewire gone entry exit key = some key :=
  rewire_eq_self (exc.ne_entry inv has outside) (exc.ne_exit inv has outside)
    (by simp [ownedBy_eq has, outside])

theorem Excisable.substitute_of : net.substitute entry exit key = key := by
  rw [substitute, if_neg (exc.ne_entry inv has outside), if_neg (exc.ne_exit inv has outside)]

end

theorem Excisable.exit_ne_entry (exc : net.Excisable start stop gone entry exit)
    (inv : net.Consistent) : exit ≠ entry := by
  rintro rfl
  obtain ⟨first, hasEntry, -, enters⟩ := exc.exists_entry inv
  obtain ⟨-, leaves⟩ := of_found hasEntry (exc.exists_exit inv)
  simp [enters] at leaves

/-- A region that is fed from elsewhere at its entry only. -/
def Closes (net : Network) (gone : List ProcessId) (entry : PortKey) : Prop :=
  ∀ {key port}, net.port? key = some port → port.owner ∈ gone → port.direction = .input →
    key ≠ entry →
    ∃ other peer, port.connection = some other ∧ net.port? other = some peer ∧ peer.owner ∈ gone

theorem Excisable.eq_entry_or_exit (exc : net.Excisable start stop gone entry exit)
    (closes : net.Closes gone entry) {peer : Port} (has : net.port? key = some port)
    (inside : port.owner ∈ gone) (conn : port.connection = some other)
    (hasPeer : net.port? other = some peer) (outside : peer.owner ∉ gone) :
    key = entry ∨ key = exit := by
  by_contra neither
  obtain ⟨notEntry, notExit⟩ := not_or.mp neither
  have leads : ∃ other peer, port.connection = some other ∧ net.port? other = some peer ∧
      peer.owner ∈ gone := by
    cases side : port.direction with
    | input => exact closes has inside side notEntry
    | output => exact exc.leads has inside side notExit
  obtain ⟨too, peerToo, connToo, hasToo, insideToo⟩ := leads
  rw [conn] at connToo
  cases connToo
  rw [hasPeer] at hasToo
  cases hasToo
  exact outside insideToo

theorem Excisable.eq_of_isBoundary (exc : net.Excisable start stop gone entry exit)
    (legal : net.Legal) (has : net.port? key = some port) (inside : port.owner ∈ gone)
    (onBdry : net.isBoundary key) : key = entry ∨ key = exit := by
  by_contra neither
  obtain ⟨notEntry, notExit⟩ := not_or.mp neither
  have free := legal.unconnected onBdry has
  cases side : port.direction with
  | input => exact exc.fed has inside side notEntry free
  | output =>
    obtain ⟨other, peer, conn, -⟩ := exc.leads has inside side notExit
    simp [free] at conn

namespace Replaced

variable (repl : net.Replaced gone entry exit fresh kind hier next)

include repl

theorem inv : next.Consistent :=
  repl.evolves.inv

theorem port_of (has : net.port? key = some port) (stays : port.owner ∉ gone) :
    next.port? key =
      some { port with connection := port.connection.bind (net.rewire gone entry exit) } := by
  have old := lt_nextKey has
  rw [repl.ports, if_neg (Nat.ne_of_lt old), if_neg (Nat.ne_of_lt (Nat.lt_succ_of_lt old)),
    ownedBy_eq has, has]
  simp [stays]

theorem port_entry (has : net.port? entry = some port) :
    next.port? net.ports.nextKey = some { port with owner := fresh } := by
  rw [repl.ports, if_pos rfl, has, map_some]

theorem port_exit (has : net.port? exit = some port) :
    next.port? (net.ports.nextKey + 1) = some { port with owner := fresh } := by
  rw [repl.ports, if_neg (Nat.succ_ne_self _), if_pos rfl, has, map_some]

theorem port_cases (has : next.port? key = some port) :
    (key = net.ports.nextKey ∧
      ∃ old, net.port? entry = some old ∧ port = { old with owner := fresh }) ∨
    (key = net.ports.nextKey + 1 ∧
      ∃ old, net.port? exit = some old ∧ port = { old with owner := fresh }) ∨
    ∃ old, net.port? key = some old ∧ old.owner ∉ gone ∧
      port = { old with connection := old.connection.bind (net.rewire gone entry exit) } := by
  rw [repl.ports] at has
  split at has
  · rename_i atFirst
    obtain ⟨old, hasOld, rfl⟩ := map_eq_some_iff.mp has
    exact .inl ⟨atFirst, old, hasOld, rfl⟩
  split at has
  · rename_i atLast
    obtain ⟨old, hasOld, rfl⟩ := map_eq_some_iff.mp has
    exact .inr (.inl ⟨atLast, old, hasOld, rfl⟩)
  split at has
  · cases has
  · rename_i stays
    obtain ⟨old, hasOld, rfl⟩ := map_eq_some_iff.mp has
    rw [ownedBy_eq hasOld] at stays
    exact .inr (.inr ⟨old, hasOld, by simpa using stays, rfl⟩)

theorem ne_fresh (got : net.process? id = some proc) : id ≠ fresh := by
  rintro rfl
  simp [repl.absent] at got

theorem ne_fresh_of_feeds (inv : net.Consistent) (feeds : net.Feeds src dst) :
    src ≠ fresh ∧ dst ≠ fresh := by
  obtain ⟨proc, got⟩ := inv.exists_source feeds
  obtain ⟨other, gotDst⟩ := inv.exists_target feeds
  exact ⟨repl.ne_fresh got, repl.ne_fresh gotDst⟩

theorem process_of (got : net.process? id = some proc) (stays : id ∉ gone) :
    next.process? id = some proc := by
  rw [repl.processes, if_neg (repl.ne_fresh got), if_neg stays, got]

section

variable (inv : net.Consistent) (exc : net.Excisable start stop gone entry exit)

include inv exc

theorem connects_entry :
    next.Connects key net.ports.nextKey ↔ net.Connects key entry := by
  obtain ⟨port, has, -, enters⟩ := exc.exists_entry inv
  rw [← inv.linked.connection_eq_some has enters,
    ← repl.inv.linked.connection_eq_some (repl.port_entry has) enters]

theorem connects_exit :
    next.Connects (net.ports.nextKey + 1) key ↔ net.Connects exit key := by
  obtain ⟨port, has, -, leaves⟩ := exc.exists_exit inv
  rw [connects_iff_connection has leaves, connects_iff_connection (repl.port_exit has) leaves]

/-- The connections of a replacement: those outside the region, and those of its entry and its
exit. -/
theorem feeds :
    next.Feeds src dst ↔ src ∉ gone ∧ dst ∉ gone ∧ net.Feeds src dst ∨
      dst = fresh ∧ net.Feeds src start ∨ src = fresh ∧ net.Feeds stop dst := by
  obtain ⟨first, hasEntry, ownedEntry, enters⟩ := exc.exists_entry inv
  obtain ⟨last, hasExit, ownedExit, leaves⟩ := exc.exists_exit inv
  obtain ⟨startProc, gotStart, ins⟩ := exc.starts
  obtain ⟨stopProc, gotStop, outs⟩ := exc.stops
  constructor
  · rintro ⟨key, port, other, peer, has, isOut, conn, hasPeer, rfl, rfl⟩
    rcases repl.port_cases has with ⟨-, old, hasOld, rfl⟩ | ⟨-, old, hasOld, rfl⟩ |
      ⟨old, hasOld, stays, rfl⟩
    · -- The entry is no out-port.
      simp_all
    · rw [hasExit] at hasOld
      cases hasOld
      obtain ⟨peer', hasPeer', -⟩ := inv.linked hasExit conn
      have stays := exc.exit_outside hasExit conn hasPeer'
      rw [repl.port_of hasPeer' stays] at hasPeer
      cases hasPeer
      exact .inr
        (.inr ⟨rfl, exit, last, other, peer', hasExit, isOut, conn, hasPeer', ownedExit, rfl⟩)
    · obtain ⟨far, leads, wired⟩ := bind_eq_some_iff.mp conn
      obtain ⟨farPeer, hasFar, leadsBack, crosses⟩ := inv.linked hasOld leads
      unfold rewire at wired
      split at wired
      · rename_i atEntry
        cases wired
        rw [repl.port_entry hasEntry] at hasPeer
        cases hasPeer
        exact .inr
          (.inl
            ⟨rfl, key, old, entry, first, hasOld, isOut, atEntry ▸ leads, hasEntry, rfl,
            ownedEntry⟩)
      split at wired
      · rename_i atExit
        subst atExit
        rw [hasExit] at hasFar
        cases hasFar
        exact absurd (leaves.trans isOut.symm) crosses
      split at wired
      · cases wired
      · rename_i staysPeer
        cases wired
        rw [ownedBy_eq hasFar] at staysPeer
        have outside : farPeer.owner ∉ gone := by simpa using staysPeer
        rw [repl.port_of hasFar outside] at hasPeer
        cases hasPeer
        exact .inl
          ⟨stays, outside, key, old, other, farPeer, hasOld, isOut, leads, hasFar, rfl, rfl⟩
  · rintro (⟨stays, staysPeer, key, port, other, peer, has, isOut, conn, hasPeer, rfl, rfl⟩ | ⟨rfl,
      feeds⟩ | ⟨rfl, feeds⟩)
    · refine ⟨key, _, other, _, repl.port_of has stays, isOut, ?_,
        repl.port_of hasPeer staysPeer, rfl, rfl⟩
      rw [conn, bind_some, exc.rewire_of inv hasPeer staysPeer]
    · obtain ⟨key, port, other, peer, has, isOut, conn, hasPeer, rfl, isStart⟩ := feeds
      obtain rfl := inv.eq_of_inPorts gotStart ins hasPeer isStart
        (inv.linked.crosses has conn hasPeer isOut)
      rw [hasEntry] at hasPeer
      have stays := exc.entry_outside hasEntry (inv.linked.back has conn hasEntry) has
      refine ⟨key, _, net.ports.nextKey, _, repl.port_of has stays, isOut, ?_,
        repl.port_entry hasEntry, rfl, rfl⟩
      simp [conn, rewire]
    · obtain ⟨key, port, other, peer, has, isOut, conn, hasPeer, isStop, rfl⟩ := feeds
      obtain rfl := inv.eq_of_outPorts gotStop outs has isStop isOut
      rw [hasExit] at has
      cases has
      have stays := exc.exit_outside hasExit conn hasPeer
      exact ⟨_, _, other, _, repl.port_exit hasExit, isOut, conn,
        repl.port_of hasPeer stays, rfl, rfl⟩

section

variable (has : net.port? key = some port) (stays : port.owner ∉ gone)

include has stays

theorem remote_of (leads : net.remote key = some dst)
    (staysDst : dst ∉ gone) : next.remote key = some dst := by
  obtain ⟨too, other, peer, hasToo, conn, hasPeer, rfl⟩ := remote_eq_some.mp leads
  rw [has] at hasToo
  cases hasToo
  refine remote_eq_some.mpr
    ⟨_, other, _, repl.port_of has stays, ?_, repl.port_of hasPeer staysDst, rfl⟩
  rw [conn, bind_some, exc.rewire_of inv hasPeer staysDst]

theorem remote_entry (leads : port.connection = some entry) :
    next.remote key = some fresh := by
  obtain ⟨first, hasEntry, -⟩ := exc.exists_entry inv
  refine remote_eq_some.mpr ⟨_, _, _, repl.port_of has stays, ?_, repl.port_entry hasEntry, rfl⟩
  simp [leads, rewire]

theorem remote_exit (leads : port.connection = some exit) :
    next.remote key = some fresh := by
  obtain ⟨last, hasExit, -⟩ := exc.exists_exit inv
  refine remote_eq_some.mpr ⟨_, _, _, repl.port_of has stays, ?_, repl.port_exit hasExit, rfl⟩
  simp [leads, rewire, exc.exit_ne_entry inv]

end

theorem remote_inside (closes : net.Closes gone entry) (has : net.port? key = some port)
    (stays : port.owner ∉ gone) (leads : net.remote key = some dst) (inside : dst ∈ gone) :
    next.remote key = some fresh := by
  obtain ⟨too, other, peer, hasToo, conn, hasPeer, rfl⟩ := remote_eq_some.mp leads
  obtain rfl := mem_unique has hasToo
  rcases exc.eq_entry_or_exit closes hasPeer inside (inv.linked.back has conn hasPeer) has stays
      with
    rfl | rfl
  · exact repl.remote_entry inv exc has stays conn
  · exact repl.remote_exit inv exc has stays conn

end

theorem isDelay_of (other : id ≠ fresh) (stays : id ∉ gone) : next.isDelay id = net.isDelay id := by
  rw [isDelay, repl.processes, if_neg other, if_neg stays, isDelay]

theorem not_mem_of_isLoop (new : fresh ∉ gone) (isLoop : next.IsLoop loop) (onLoop : id ∈ loop) :
    id ∉ gone := by
  intro mem
  obtain ⟨other, -, feeds⟩ := isLoop.exists_next onLoop
  obtain ⟨proc, got⟩ := repl.inv.exists_source feeds
  have known : id ≠ fresh := fun same => new (same ▸ mem)
  rw [repl.processes, if_neg known, if_pos mem] at got
  cases got

theorem exists_loop (inv : net.Consistent) (exc : net.Excisable start stop gone entry exit)
    (chain : way.IsChain net.Feeds) (starts : way.head? = some start)
    (stops : way.getLast? = some stop) (once : way.Nodup) (inside : way ⊆ gone)
    (instant : ∀ id ∈ gone, ¬ net.isDelay id) (kindInstant : kind.isDelay = false)
    (isLoop : next.IsLoop loop) (loopOnce : loop.Nodup) :
    ∃ old, net.IsLoop old ∧ old.Nodup ∧ old.countP net.isDelay = loop.countP next.isDelay := by
  have unknown {src dst} (feeds : net.Feeds src dst) := repl.ne_fresh_of_feeds inv feeds
  have new : fresh ∉ gone := fun mem => by
    obtain ⟨proc, got⟩ := exc.contains inv mem
    simp [repl.absent] at got
  by_cases passes : fresh ∈ loop
  swap
  · -- A loop that avoids the new process was there before.
    refine ⟨loop, isLoop.imp_of_mem fun a onLoop b onLoopToo feeds => ?_, loopOnce,
      countP_congr fun a onLoop => ?_⟩
    · rcases (repl.feeds inv exc).mp feeds with ⟨-, -, kept⟩ | ⟨rfl, -⟩ | ⟨rfl, -⟩
      · exact kept
      · exact absurd onLoopToo passes
      · exact absurd onLoop passes
    · rw [repl.isDelay_of (fun same => passes (same ▸ onLoop))
        (repl.not_mem_of_isLoop new isLoop onLoop)]
  obtain ⟨dst, onLoop, leaves⟩ := isLoop.exists_next passes
  have feedsDst : net.Feeds stop dst := by
    rcases (repl.feeds inv exc).mp leaves with ⟨-, -, kept⟩ | ⟨rfl, kept⟩ | ⟨-, kept⟩
    · exact absurd rfl (unknown kept).1
    · exact absurd rfl (unknown kept).1
    · exact kept
  obtain ⟨src, -, enters⟩ := isLoop.exists_previous passes
  have feedsStart : net.Feeds src start := by
    rcases (repl.feeds inv exc).mp enters with ⟨-, -, kept⟩ | ⟨-, kept⟩ | ⟨rfl, kept⟩
    · exact absurd rfl (unknown kept).2
    · exact kept
    · exact absurd rfl (unknown kept).2
  obtain ⟨startProc, gotStart, ins⟩ := exc.starts
  obtain ⟨stopProc, gotStop, outs⟩ := exc.stops
  have detour : Graph.Detour net.Feeds next.Feeds (· = fresh) src dst way := by
    refine ⟨fun {a b} feeds => ?_, (unknown feedsStart).1, (unknown feedsDst).2, ?_⟩
    · rcases (repl.feeds inv exc).mp feeds with ⟨-, -, kept⟩ | ⟨rfl, kept⟩ | ⟨rfl, kept⟩
      · grind
      · exact .inr (.inl ⟨inv.source_unique gotStart ins kept feedsStart, .inl rfl⟩)
      · exact .inr (.inr ⟨rfl, .inr (inv.target_unique gotStop outs kept feedsDst)⟩)
    · have extended : (src :: way).IsChain net.Feeds :=
        isChain_cons.mpr ⟨fun first isFirst => by simp_all, chain⟩
      refine Graph.isChain_concat.mpr ⟨extended, fun last isLast => ?_⟩
      have nonempty : way ≠ [] := fun empty => by simp [empty] at starts
      rw [getLast?_cons_of_ne_nil nonempty] at isLast
      simp_all
  refine detour.exists_countP_eq isLoop loopOnce ⟨dst, onLoop, (unknown feedsDst).2⟩ once
    (fun a mem onLoop => absurd (inside mem) (repl.not_mem_of_isLoop new isLoop onLoop))
      (fun a onLoop other => ?_)
    (fun a onLoop isFresh => ?_) fun a mem => ?_
  · exact (repl.isDelay_of other (repl.not_mem_of_isLoop new isLoop onLoop)).symm
  · rw [isFresh, isDelay, repl.processes, if_pos rfl]
    exact kindInstant
  · simpa using instant a (inside mem)

theorem process_cases (got : next.process? id = some proc) :
    id = fresh ∧ proc = ⟨kind, hier, [net.ports.nextKey], [net.ports.nextKey + 1]⟩ ∨
      id ∉ gone ∧ net.process? id = some proc := by
  rw [repl.processes] at got
  split at got
  · grind
  split at got
  · cases got
  · rename_i stays
    exact .inr ⟨stays, got⟩

theorem isBoundary_cases (onBdry : next.isBoundary key) :
    ∃ old, net.isBoundary old ∧ net.substitute entry exit old = key := by
  simp only [isBoundary, repl.inputs, repl.outputs, Bool.or_eq_true, contains_iff_mem, List.mem_map]
    at onBdry ⊢
  rcases onBdry with ⟨old, isInput, same⟩ | ⟨old, isOut, same⟩
  · exact ⟨old, .inl isInput, same⟩
  · exact ⟨old, .inr isOut, same⟩

/-- A boundary that was not connected is not connected afterwards. -/
theorem unconnected (inv : net.Consistent) (legal : net.Legal) (onBdry : next.isBoundary key)
    (has : next.port? key = some port) : port.connection = none := by
  obtain ⟨former, onOld, same⟩ := repl.isBoundary_cases onBdry
  obtain ⟨pre, hasOld⟩ := isSome_iff_exists.mp (inv.boundary onOld)
  have old := lt_nextKey hasOld
  have free := legal.unconnected onOld hasOld
  unfold substitute at same
  split at same
  · rename_i atEntry
    subst same atEntry
    rw [repl.port_entry hasOld] at has
    cases has
    exact free
  split at same
  · rename_i atExit
    subst same atExit
    rw [repl.port_exit hasOld] at has
    cases has
    exact free
  · subst same
    rcases repl.port_cases has with ⟨atFirst, -⟩ | ⟨atLast, -⟩ | ⟨too, hasToo, -, rfl⟩
    · exact absurd atFirst (Nat.ne_of_lt old)
    · grind
    · grind

/-- A replacement by a process that fits its kind and does not delay keeps a network legal. -/
theorem legal (inv : net.Consistent) (legal : net.Legal)
    (exc : net.Excisable start stop gone entry exit) (chain : way.IsChain net.Feeds)
    (starts : way.head? = some start) (stops : way.getLast? = some stop) (once : way.Nodup)
    (inside : way ⊆ gone) (instant : ∀ id ∈ gone, ¬ net.isDelay id)
    (kindInstant : kind.isDelay = false) (leaf : kind.isLeaf)
    (fits : (⟨kind, hier, [net.ports.nextKey], [net.ports.nextKey + 1]⟩ : Process).defect? = none) :
    next.Legal := by
  obtain ⟨delayed, single⟩ := legal.loops fun loop isLoop loopOnce =>
    repl.exists_loop inv exc chain starts stops once inside instant kindInstant isLoop loopOnce
  refine ⟨fun got => ?_, fun got => ?_, repl.unconnected inv legal, fun isLoop => delayed _ isLoop,
    fun isLoop loopOnce => single _ isLoop loopOnce⟩
  · rcases repl.process_cases got with ⟨-, rfl⟩ | ⟨-, pre⟩
    · exact leaf
    · exact legal.leaves pre
  · rcases repl.process_cases got with ⟨-, rfl⟩ | ⟨-, pre⟩
    · exact fits
    · exact legal.fits pre

end Replaced

end Dataflow.Network
