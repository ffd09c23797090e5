import Dataflow.Proofs.Edit.Safe
import Dataflow.Transform.Splice

/-! Moving a port: a new port takes over its connection and its places on the boundary. -/

open Option

namespace Dataflow

/-- What stands in a place where a key has been replaced by another one. -/
def PortKey.exchange (old new key : PortKey) : PortKey :=
  if key = old then new else key

namespace Port

/-- The port with its connection led to what takes the place of its other end. -/
def reroute (change : PortKey → PortKey) (port : Port) : Port :=
  { port with connection := port.connection.map change }

/-- The port with its connection led to another key, if it led to the old one. -/
def exchange (old new : PortKey) : Port → Port :=
  reroute (PortKey.exchange old new)

theorem exchange_eq_self {old new : PortKey} {port : Port} (apart : port.connection ≠ some old) :
    port.exchange old new = port := by
  have kept : port.connection.map (PortKey.exchange old new) = port.connection := by
    cases conn : port.connection with
    | none => rfl
    | some key =>
      have elsewhere : key ≠ old := fun same => apart (same ▸ conn)
      simp [PortKey.exchange, elsewhere]
  rw [exchange, reroute, kept]

end Port

namespace Network

variable {net : Network} {owner : ProcessId} {dir : Direction} {key : PortKey}

/-- What is left when a port is moved to a process. -/
structure Moved (net : Network) (owner : ProcessId) (process : Process) (direction : Direction)
    (key : PortKey) (port : Port) (next : Network) : Prop where
  processes : ∀ id, next.process? id =
    if id = owner then some (process.addPort direction net.ports.nextKey) else net.process? id
  ports : ∀ other, next.port? other =
    if other = net.ports.nextKey then some { port with owner }
    else if other = key then some port.unlinked
    else (net.port? other).map (Port.exchange key net.ports.nextKey)
  inputs : next.inputs = net.inputs.map (PortKey.exchange key net.ports.nextKey)
  outputs : next.outputs = net.outputs.map (PortKey.exchange key net.ports.nextKey)
  nextKey : next.ports.nextKey = net.ports.nextKey + 1

/-- The network in which one key has replaced another one on the boundary. -/
def exchangeBoundary (net : Network) (old new : PortKey) : Network :=
  { net with
    inputs := net.inputs.map (PortKey.exchange old new)
    outputs := net.outputs.map (PortKey.exchange old new) }

theorem run_replaceBoundary (net : Network) (old new : PortKey) :
    (Edit.replaceBoundary old new).run net =
      .ok (net.isBoundary old) (net.exchangeBoundary old new) :=
  rfl

theorem run_movePort (inv : net.Consistent) {proc : Process} {port : Port}
    (got : net.process? owner = some proc)
    (unnamed : ∀ other ∈ proc.ports dir, ∀ peer, net.port? other = some peer →
      peer.name ≠ port.name) (has : net.port? key = some port) (side : port.direction = dir) :
    ∃ next, (Edit.movePort owner dir key).run net = .ok () next ∧
      net.Moved owner proc dir key port next := by
  subst side
  -- The new port is added first, and nothing is connected to it.
  let fresh : Port :=
    { name := port.name, owner, direction := port.direction, dataType := port.dataType }
  obtain ⟨added, adds, ported⟩ := inv.run_addPort got port.name port.direction port.dataType unnamed
  have linked := ported.evolves.inv.linked
  have old : key ≠ net.ports.nextKey := Nat.ne_of_lt (lt_nextKey has)
  have portAdded (other : PortKey) : added.port? other = if other =
      net.ports.nextKey then some fresh else net.port? other :=
    ported.ports other
  have hasAdded : added.port? key = some port := by rw [portAdded, if_neg old, has]
  have disconnects := Edit.run_disconnect linked hasAdded
  have cut (other : PortKey) := linked.port?_unlink hasAdded other
  cases conn : port.connection with
  | none =>
    refine ⟨(added.unlink key).exchangeBoundary key net.ports.nextKey, ?_, ?_,
      fun other => ?_, ?_, ?_, ?_⟩
    · simp [Edit.movePort, port_eq_ok.mpr has, adds, disconnects, conn, run_replaceBoundary]
    · intro id
      rw [← ported.processes, ← @process?_unlink added id key]
      rfl
    · refine (cut other).trans ?_
      rw [portAdded]
      by_cases new : other = net.ports.nextKey
      · simp [new, Ne.symm old, Port.without, fresh, conn]
      by_cases here : other = key
      · simp [here, old, has]
      simp only [new, here, if_false]
      refine map_congr fun peer hasPeer => ?_
      have apart : peer.connection ≠ some key := fun leads => by
        obtain ⟨back, hasBack, leadsBack, -⟩ := inv.linked hasPeer leads
        simp_all
      rw [Port.exchange_eq_self apart, Port.without_eq_self (by simpa using apart)]
    · simp [exchangeBoundary, ported.inputs]
    · simp [exchangeBoundary, ported.outputs]
    · simp [exchangeBoundary, ported.nextKey]
  | some remote =>
    obtain ⟨peer, hasPeer, leadsBack, crosses⟩ := inv.linked has conn
    have apart : remote ≠ key := by grind
    have oldRemote : remote ≠ net.ports.nextKey := Nat.ne_of_lt (lt_nextKey hasPeer)
    have freshCut : (added.unlink key).port? net.ports.nextKey = some fresh := by
      rw [cut, portAdded, if_pos rfl, map_some, if_neg (Ne.symm old)]
      rfl
    have peerCut : (added.unlink key).port? remote = some peer.unlinked := by
      rw [cut, portAdded, if_neg oldRemote, hasPeer, map_some, if_neg apart,
        Port.without_eq_unlinked (List.mem_singleton_self key) leadsBack]
    obtain ⟨joined, connects, sameProcs, samePorts, inputs, outs, nextKey⟩ : ∃ joined,
        (if port.direction = .input then Edit.connect remote net.ports.nextKey else Edit.connect
        net.ports.nextKey remote).run
          (added.unlink key) = .ok () joined ∧
        (∀ id, joined.process? id = added.process? id) ∧
        (∀ other, joined.port? other = ((added.unlink key).port? other).map fun port =>
          if other = net.ports.nextKey then { port with connection := some remote }
          else if other = remote then { port with connection := some net.ports.nextKey }
          else port) ∧
        joined.inputs = net.inputs ∧ joined.outputs = net.outputs ∧
        joined.ports.nextKey = net.ports.nextKey + 1 := by
      cases dir : port.direction with
      | input =>
        have leaves := inv.linked.crosses_back has conn hasPeer dir
        refine ⟨_, Edit.run_connect_free peerCut freshCut leaves dir rfl rfl, by simp,
          fun other => ?_, by simp [ported.inputs], by simp [ported.outputs],
          by simp [ported.nextKey]⟩
        · rw [port?_join oldRemote]
          by_cases far : other = remote
          · simp [far, oldRemote]
          · simp [far]
      | output =>
        have enters := inv.linked.crosses has conn hasPeer dir
        exact ⟨_, Edit.run_connect_free freshCut peerCut dir enters rfl rfl, by simp,
          port?_join (Ne.symm oldRemote),
            by simp [ported.inputs], by simp [ported.outputs], by simp [ported.nextKey]⟩
    refine ⟨joined.exchangeBoundary key net.ports.nextKey, ?_, fun id => ?_,
      fun other => ?_, ?_, ?_, ?_⟩
    · simp only [Edit.movePort, EStateM.run_bind, EStateM.run_get, port_eq_ok.mpr has,
        Edit.run_answer, adds, disconnects, conn]
      cases dir : port.direction <;>
      · simp only [dir, if_true, if_false, reduceCtorEq] at connects
        simp only [EStateM.run_bind, connects, Edit.run_discard, run_replaceBoundary]
    · exact (sameProcs id).trans (ported.processes id)
    · refine (samePorts other).trans ?_
      rw [cut, portAdded]
      by_cases new : other = net.ports.nextKey
      · grind
      by_cases here : other = key
      · simp [here, old, has, Ne.symm apart]
      by_cases far : other = remote
      · simp [far, oldRemote, apart, hasPeer, Port.without, Port.exchange, Port.reroute,
          PortKey.exchange, leadsBack]
      · simp only [new, here, far, if_false, map_map]
        refine map_congr fun third hasThird => ?_
        have elsewhere : third.connection ≠ some key := fun leads =>
          far (inv.linked.unique hasThird hasPeer leads leadsBack)
        rw [Function.comp_apply, Port.exchange_eq_self elsewhere,
          Port.without_eq_self (by simpa using elsewhere)]
    · simp [exchangeBoundary, inputs]
    · simp [exchangeBoundary, outs]
    · simp [exchangeBoundary, nextKey]

end Network

end Dataflow
