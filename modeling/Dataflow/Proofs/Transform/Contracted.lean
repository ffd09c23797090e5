import Dataflow.Proofs.Transform.Line

/-! Networks in which lines of processes have been contracted to single processes. -/

open List

namespace Dataflow

/-- A chain of processes, and the process of a new kind that takes its place. -/
structure Contraction where
  chain : List ProcessId
  fresh : ProcessId
  kind : Kind Composite

namespace Network

variable {net mid next : Network} {id first last fresh : ProcessId} {chain gone : List ProcessId}
  {entry exit key other : PortKey}
  {kind : Kind Composite} {front proc : Process} {port : Port} {parts : List Contraction}
  {part : Contraction}

/-- A process is on none of the chains, and takes the place of none. -/
def Spared (parts : List Contraction) (id : ProcessId) : Prop :=
  ∀ part ∈ parts, id ∉ part.chain ∧ id ≠ part.fresh

/-- One process stands where a chain stood, and is connected to what the two ends of the chain were
connected to. -/
def StandsFor (net next : Network) (part : Contraction) : Prop :=
  ∃ first last front back entry exit enter leave, part.chain.head? = some first ∧
    part.chain.getLast? = some last ∧ net.process? first = some front ∧ front.inPorts = [entry] ∧
    net.process? last = some back ∧ back.outPorts = [exit] ∧
    next.process? part.fresh = some ⟨part.kind, front.hierarchy, [enter], [leave]⟩ ∧
    (∀ key, next.Connects key enter ↔ net.Connects key entry) ∧
    ∀ key, next.Connects leave key ↔ net.Connects exit key

/-- What is left when chains have been contracted. -/
structure Contracts (net : Network) (parts : List Contraction) (next : Network) : Prop where
  evolves : net.Evolves next
  exist : ∀ part ∈ parts, part.chain ⊆ net.ids
  absent : ∀ part ∈ parts, net.process? part.fresh = none
  once : (parts.map (·.fresh)).Nodup
  gone : ∀ part ∈ parts, ∀ id ∈ part.chain, next.process? id = none
  kept : ∀ {id}, Spared parts id → next.process? id = net.process? id
  /-- A port is as before, if neither it nor what it is connected to belongs to a chain. -/
  ports : ∀ {key port}, net.port? key = some port → Spared parts port.owner →
    (∀ {other peer}, port.connection = some other → net.port? other = some peer →
      Spared parts peer.owner) →
    next.port? key = some port
  stands : ∀ part ∈ parts, net.StandsFor next part
  count : next.ids.length + (parts.flatMap (·.chain)).length = net.ids.length + parts.length

theorem Consistent.exists_owned (inv : net.Consistent) (new : next.Consistent)
    (same : next.process? port.owner = net.process? port.owner) (has : net.port? key = some port) :
    ∃ has, next.port? key = some has ∧ has.owner = port.owner := by
  obtain ⟨proc, got, mem⟩ := inv.owned has
  obtain ⟨has, hasNext, owned, -⟩ := new.listed (same.trans got) mem
  exact ⟨has, hasNext, owned⟩

namespace Replaced

variable {hier : Hierarchy} (repl : net.Replaced gone entry exit fresh kind hier next)

include repl

theorem port_of_clear (inv : net.Consistent) (exc : net.Excisable first last gone entry exit)
    (has : net.port? key = some port) (stays : port.owner ∉ gone)
    (clear : ∀ {other peer}, port.connection = some other → net.port? other = some peer →
      peer.owner ∉ gone) : next.port? key = some port := by
  have same : port.connection.bind (net.rewire gone entry exit) = port.connection := by
    cases conn : port.connection with
    | none => rfl
    | some other =>
      obtain ⟨peer, hasPeer, -⟩ := inv.linked has conn
      exact exc.rewire_of inv hasPeer (clear conn hasPeer)
  rw [repl.port_of has stays, same]

theorem length_ids (once : gone.Nodup) (exist : gone ⊆ net.ids) :
    next.ids.length + gone.length = net.ids.length + 1 := by
  have perm : next.ids.Perm (fresh :: net.ids.filter (· ∉ gone)) := by
    refine (perm_ext_iff_of_nodup next.nodup_ids (nodup_cons.mpr ⟨?_, net.nodup_ids.filter _⟩)).mpr
      fun id => ?_
    · simp [mem_ids, repl.absent]
    · simp only [mem_ids, repl.processes, mem_cons, mem_filter, decide_eq_true_eq]
      split_ifs <;> simp_all
  have inside : (net.ids.filter (· ∈ gone)).Perm gone := by
    refine (perm_ext_iff_of_nodup (net.nodup_ids.filter _) once).mpr fun id => ?_
    simpa using fun mem => exist mem
  have split := length_eq_length_filter_add (l := net.ids) (· ∈ gone)
  rw [perm.length_eq, ← inside.length_eq, length_cons]
  simp only [decide_not] at split ⊢
  omega

end Replaced

theorem Contracts.refl (inv : net.Consistent) : net.Contracts [] net := by
  refine ⟨.refl inv, ?_, ?_, by simp, ?_, fun _ => rfl, fun has _ _ => has, ?_, rfl⟩ <;> simp

section Step

variable (contracts : net.Contracts parts mid) (inv : net.Consistent)
  (starts : chain.head? = some first)
  (stops : chain.getLast? = some last) (got : net.process? first = some front)
  (exc : mid.Excisable first last chain entry exit)
  (repl : mid.Replaced chain entry exit fresh kind front.hierarchy next)
  (spared : ∀ id ∈ chain, Spared parts id)
  (apart : ∀ part ∈ parts, ∀ id ∈ part.chain, ∀ other ∈ chain, ¬ net.Feeds id other ∧
    ¬ net.Feeds other id)

include contracts inv exc repl spared apart

theorem Contracts.stands_old (mem : part ∈ parts) : net.StandsFor next part := by
  obtain ⟨head, final, proc, back, into, out, enter, leave, isHead, isFinal, gotHead, ins, gotFinal,
      outs, placed, fed, feeds⟩ :=
    contracts.stands part mem
  have between := contracts.evolves.inv
  have outside : part.fresh ∉ chain := fun onChain => (spared _ onChain part mem).2 rfl
  have clear {key port} (has : mid.port? key = some port) (owned : port.owner = part.fresh)
      (crosses : ∀ {other peer}, port.connection = some other → net.port? other = some peer →
        peer.owner ∉ chain) :
      next.port? key = some port :=
    repl.port_of_clear between exc has (owned ▸ outside) fun conn hasPeer onChain => by
      obtain ⟨old, hasOld, same⟩ :=
        between.exists_owned inv (contracts.kept (spared _ onChain)).symm hasPeer
      exact crosses conn hasOld (same ▸ onChain)
  refine ⟨head, final, proc, back, into, out, enter, leave, isHead, isFinal, gotHead, ins, gotFinal,
    outs, ?_, fun key => ?_, fun key => ?_⟩
  · rw [repl.processes, if_neg (repl.ne_fresh placed), if_neg outside, placed]
  · obtain ⟨port, has, owned, enters⟩ := between.exists_in placed rfl
    have same := clear has owned fun {other peer} conn hasPeer onChain => by
      obtain ⟨first, hasFirst, ownedFirst, -⟩ := inv.exists_in gotHead ins
      have connects := (fed other).mp ((between.linked.connection_eq_some has enters).mp conn)
      exact (apart part mem head (mem_of_head? isHead) _ onChain).2
        (feeds_iff_connects.mpr
          ⟨other, into, connects, ⟨peer, hasPeer, rfl⟩, first, hasFirst, ownedFirst⟩)
    rw [← fed key, ← between.linked.connection_eq_some has enters,
      ← repl.inv.linked.connection_eq_some same enters]
  · obtain ⟨port, has, owned, leaves⟩ := between.exists_out placed rfl
    have same := clear has owned fun {other peer} conn hasPeer onChain => by
      obtain ⟨last, hasLast, ownedLast, -⟩ := inv.exists_out gotFinal outs
      have connects := (feeds other).mp ((connects_iff_connection has leaves).mpr conn)
      exact (apart part mem final (mem_of_getLast? isFinal) _ onChain).1
        (feeds_iff_connects.mpr
          ⟨out, other, connects, ⟨last, hasLast, ownedLast⟩, peer, hasPeer, rfl⟩)
    rw [← feeds key, connects_iff_connection has leaves, connects_iff_connection same leaves]

include starts stops got

theorem Contracts.stands_new : net.StandsFor next ⟨chain, fresh, kind⟩ := by
  have between := contracts.evolves.inv
  obtain ⟨proc, gotFirst, ins⟩ := exc.starts
  obtain ⟨back, gotLast, outs⟩ := exc.stops
  rw [contracts.kept (spared _ exc.stop_mem)] at gotLast
  rw [contracts.kept (spared _ exc.start_mem)] at gotFirst
  obtain rfl := Option.mem_unique got gotFirst
  have unchanged {key port} (has : net.port? key = some port) (isMem : port.owner ∈ chain)
      (clear : ∀ {other peer}, port.connection = some other → net.port? other = some peer →
        ∀ part ∈ parts, peer.owner ∉ part.chain) :
      mid.port? key = some port :=
    contracts.ports has (spared _ isMem) fun {other peer} conn hasPeer part mem =>
      ⟨clear conn hasPeer part mem, fun same => by
        obtain ⟨proc, gotPeer, -⟩ := inv.owned hasPeer
        simp [same, contracts.absent part mem] at gotPeer⟩
  refine ⟨first, last, front, back, entry, exit, mid.ports.nextKey, mid.ports.nextKey + 1, starts,
    stops, got, ins, gotLast, outs, ?_, fun key => ?_, fun key => ?_⟩
  · rw [repl.processes, if_pos rfl]
  · obtain ⟨port, has, rfl, enters⟩ := inv.exists_in got ins
    have same := unchanged has exc.start_mem fun {other peer} conn hasPeer part mem onChain =>
      (apart part mem _ onChain _ exc.start_mem).1 (inv.feeds_of_input has enters conn hasPeer)
    rw [repl.connects_entry between exc, ← inv.linked.connection_eq_some has enters,
      ← between.linked.connection_eq_some same enters]
  · obtain ⟨port, has, rfl, leaves⟩ := inv.exists_out gotLast outs
    have same := unchanged has exc.stop_mem fun {other peer} conn hasPeer part mem onChain =>
      (apart part mem _ onChain _ exc.stop_mem).2
        ⟨exit, port, other, peer, has, leaves, conn, hasPeer, rfl, rfl⟩
    rw [repl.connects_exit between exc, connects_iff_connection has leaves,
      connects_iff_connection same leaves]

/-- One more chain is contracted, which no chain from before is connected to. -/
theorem Contracts.snoc (once : chain.Nodup) :
    net.Contracts (parts ++ [⟨chain, fresh, kind⟩]) next := by
  have between := contracts.evolves.inv
  have known {id proc} (got : net.process? id = some proc) : id ≠ fresh := by
    rintro rfl
    exact repl.unused (contracts.evolves.keepsTaken (inv.taken got))
  have exist : chain ⊆ net.ids := fun id mem => by
    obtain ⟨proc, got⟩ := exc.contains between mem
    exact mem_ids.mpr ⟨proc, contracts.kept (spared id mem) ▸ got⟩
  have split {id} (all : Spared (parts ++ [⟨chain, fresh, kind⟩]) id) : Spared parts id ∧
      id ∉ chain ∧ id ≠ fresh :=
    ⟨fun part mem => all part (mem_append_left _ mem), all ⟨chain, fresh, kind⟩ (by simp)⟩
  have absent : net.process? fresh = none := by
    cases got : net.process? fresh with
    | none => rfl
    | some proc => exact absurd rfl (known got)
  refine ⟨contracts.evolves.trans repl.evolves, ?_, ?_, ?_, ?_, fun {id} all => ?_,
    fun {key port} has all clear => ?_, ?_, ?_⟩
  · simpa [or_imp, forall_and] using ⟨contracts.exist, exist⟩
  · simpa [or_imp, forall_and] using ⟨contracts.absent, absent⟩
  · rw [map_append, nodup_append]
    refine ⟨contracts.once, nodup_singleton _, fun other mem too isFresh same => ?_⟩
    obtain ⟨part, isPart, rfl⟩ := mem_map.mp mem
    obtain ⟨_, _, _, _, _, _, _, _, -, -, -, -, -, -, placed, -⟩ := contracts.stands part isPart
    exact repl.ne_fresh placed (same.trans (by simpa using isFresh))
  · have gone (id : ProcessId) (mem : id ∈ net.ids)
        (nowhere : id ∈ chain ∨ mid.process? id = none) : next.process? id = none := by
      obtain ⟨proc, got⟩ := mem_ids.mp mem
      rw [repl.processes, if_neg (known got)]
      split_ifs with onChain
      · rfl
      · exact nowhere.resolve_left onChain
    simp only [mem_append, mem_singleton, or_imp, forall_and, forall_eq]
    exact ⟨fun part mem id isMem =>
      gone id (contracts.exist part mem isMem) (.inr (contracts.gone part mem id isMem)),
      fun id isMem => gone id (exist isMem) (.inl isMem)⟩
  · obtain ⟨pre, outside, other⟩ := split all
    rw [repl.processes, if_neg other, if_neg outside, contracts.kept pre]
  · obtain ⟨pre, outside, -⟩ := split all
    have hasBetween := contracts.ports has pre fun conn hasPeer => (split (clear conn hasPeer)).1
    refine repl.port_of_clear between exc hasBetween outside fun {other peer} conn hasPeer => ?_
    obtain ⟨old, hasOld, -⟩ := inv.linked has conn
    obtain ⟨prePeer, outsidePeer, -⟩ := split (clear conn hasOld)
    have owned := of_found hasPeer (inv.exists_owned between (contracts.kept prePeer) hasOld)
    exact owned ▸ outsidePeer
  · simp only [mem_append, mem_singleton, or_imp, forall_and, forall_eq]
    exact ⟨fun part mem => contracts.stands_old inv exc repl spared apart mem,
      contracts.stands_new inv starts stops got exc repl spared apart⟩
  · have counts := repl.length_ids once fun id mem => mem_ids.mpr (exc.contains between mem)
    have pre := contracts.count
    simp only [flatMap_append, flatMap_singleton, length_append, length_singleton]
    omega

end Step

end Network

end Dataflow
