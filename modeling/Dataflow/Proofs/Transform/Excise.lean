import Dataflow.Proofs.Network.Gate
import Dataflow.Transform.Contract

/-! Splicing an idle process out of a network: connections and the boundary lead past it. -/

open List Option

namespace Dataflow.Network

open Edit

variable {net next last : Network} {id other : ProcessId} {proc : Process}
  {entry exit key old new src dst : PortKey}
  {port : Port}

/-- An idle process that cannot be spliced out: it has no neighbours, and it is on the boundary. -/
structure Immovable (net : Network) (process : Process) : Prop where
  unfed : ∀ entry ∈ process.inPorts, ∀ source, ¬ net.Connects source entry
  ended : ∀ exit ∈ process.outPorts, ∀ target, ¬ net.Connects exit target
  boundary : ∃ key ∈ process.allPorts, net.isBoundary key

theorem unlink_eq_self (has : net.port? key = some port) (free : port.connection = none) :
    net.unlink key = net := by
  have kept : net.ports.modify key (fun port => { port with connection := none }) = net.ports := by
    have slot : net.ports.slots[key]? = some (some port) := by
      simpa [port?, Arena.get?, join_eq_some_iff] using has
    have same : net.ports.slots.modify key (·.map fun port => { port with connection := none }) =
        net.ports.slots := by
      refine Array.ext_getElem? fun place => ?_
      rw [Array.getElem?_modify]
      split
      · rename_i here
        rw [← here, slot]
        simp [← free]
      · rfl
    rw [Arena.modify, same]
  rw [unlink, has, bind_some, free]
  show { net with ports := _ } = net
  rw [kept]

theorem Linked.eq_of_run_disconnect (linked : net.Linked) (has : net.port? key = some port)
    (disconnects : (Edit.disconnect key).run net = .ok none next) : next = net := by
  rw [run_disconnect linked has] at disconnects
  cases free : port.connection with
  | none =>
    rw [free, unlink_eq_self has free] at disconnects
    cases disconnects
    rfl
  | some other =>
    rw [free] at disconnects
    cases disconnects

/-- There are no composites, and the boundary is not connected. -/
structure Exposed (net : Network) : Prop where
  leaves : ∀ {id process}, net.process? id = some process → process.kind.isLeaf
  unconnected : ∀ {key port}, net.isBoundary key → net.port? key = some port →
    port.connection = none

/-- An idle process was spliced out, and the boundary moved along its connections where it had
to. -/
structure Excised (net : Network) (id : ProcessId) (entry exit : PortKey) (next : Network) :
    Prop where
  evolves : net.Evolves next
  exposed : next.Exposed
  processes : ∀ other, next.process? other = if other = id then none else net.process? other
  connects : ∀ {source target}, next.Connects source target ↔
    source ≠ exit ∧ target ≠ entry ∧
    (net.Connects source target ∨ net.Connects source entry ∧ net.Connects exit target)
  boundary : ∀ side, List.Forall₂
    (fun old new =>
      new = old ∨ old = entry ∧ net.Connects exit new ∨ old = exit ∧ net.Connects new entry)
    (net.boundary side) (next.boundary side)

theorem Removed.process?_eq (removed : net.Removed id proc next)
    (leaves : ∀ {id proc}, net.process? id = some proc → proc.kind.isLeaf) (other : ProcessId) :
    next.process? other = if other = id then none else net.process? other := by
  rw [removed.processes]
  split
  · rfl
  cases got : net.process? other with
  | none => rfl
  | some has =>
    have same : has.disown id = has := by rw [Process.disown, Kind.disown_leaf (leaves got)]
    rw [map_some, same, ite_self]

theorem Spliced.ends_excise (spliced : net.Spliced entry exit next) (inv : net.Consistent)
    (exposed : net.Exposed) (got : net.process? id = some proc) (entered : proc.inPorts = [entry])
    (left : proc.outPorts = [exit])
    (moves : old = new ∨ old = entry ∧ net.Connects exit new ∨ old = exit ∧ net.Connects new entry)
    (free : old ≠ new → ∀ port, next.port? new = some port → port.connection = none)
    (inner : ¬ (next.exchangeBoundary old new).isBoundary entry)
    (innerToo : ¬ (next.exchangeBoundary old new).isBoundary exit) :
    (do discard <| Edit.removeProcess id; return true : Edit Bool).Ends
      (next.exchangeBoundary old new)
      (fun removed last => removed = true ∧ net.Excised id entry exit last) fun _ => False := by
  have isMine : ∀ key, key ∈ proc.allPorts ↔ key = entry ∨
    key = exit := by simp [Process.allPorts, entered, left]
  obtain ⟨first, hasEntry, -, enters⟩ := inv.exists_in got entered
  obtain ⟨last, hasExit, -, leaves⟩ := inv.exists_out got left
  have live : old ≠ new → (next.port? new).isSome := fun apart => by
    obtain ⟨port, has⟩ : ∃ port, net.port? new = some port := by
      rcases moves with same | ⟨-, connects⟩ | ⟨-, port, has, -⟩
      · exact absurd same apart
      · obtain ⟨port, has, -⟩ := connects.exists_target inv.linked
        exact ⟨port, has⟩
      · exact ⟨port, has⟩
    obtain ⟨later, hasNew, -⟩ := exists_of_declared (spliced.declared _) has
    rw [hasNew, isSome_some]
  have moved := spliced.evolves.inv.exchangeBoundary live
  have gotMoved : (next.exchangeBoundary old new).process? id = some proc :=
    (spliced.processes id).trans got
  have isInner : ∀ key ∈ proc.allPorts, ¬ (next.exchangeBoundary old new).isBoundary key :=
    fun key mem => by grind
  obtain ⟨last, removes, removed⟩ := run_removeProcess moved.inv gotMoved isInner
  rw [ends_bind, ends_discard, ends_of_run removes]
  have procs (other : ProcessId) : last.process? other = if other =
      id then none else net.process? other := by
    rw [removed.process?_eq (fun here => exposed.leaves ((spliced.processes _).symm.trans here))]
    exact congrArg _ (spliced.processes other)
  refine ⟨rfl,
    spliced.evolves.trans (moved.trans (removed.evolves moved.inv gotMoved isInner)),
    ⟨?_, ?_⟩, procs, ?_, ?_⟩
  · intro other has here
    rw [procs] at here
    split at here
    · cases here
    · exact exposed.leaves here
  · -- What is on the boundary was there before, or it has just lost its connection.
    intro key port onBdry has
    rw [isBoundary, removed.inputs, removed.outputs] at onBdry
    rw [removed.ports] at has
    split at has
    · cases has
    obtain ⟨former, hasOld, rfl⟩ := map_eq_some_iff.mp has
    have unlinked : former.connection = none := by
      have still {key} (wasThere : next.isBoundary key) :
          ∀ port, next.port? key = some port → port.connection = none := by
        rw [isBoundary, spliced.inputs, spliced.outputs] at wasThere
        exact spliced.free inv.linked fun port has => exposed.unconnected wasThere has
      rcases isBoundary_exchange onBdry with ⟨wasThere, rfl⟩ | ⟨wasThere, -⟩
      · by_cases same : old = key
        · exact still (same ▸ wasThere) former hasOld
        · exact free same former hasOld
      · exact still wasThere former hasOld
    rw [Port.connection_without, unlinked, filter_none]
  · intro src dst
    have leads : (next.exchangeBoundary old new).Connects src dst ↔ next.Connects src dst := Iff.rfl
    rw [removed.connects, isMine, isMine, leads, spliced.connects, not_or, not_or]
    constructor
    · rintro ⟨-, -, connects⟩
      exact connects
    · rintro ⟨notExit, notEntry, connects⟩
      refine ⟨⟨?_, notExit⟩, ⟨notEntry, ?_⟩, notExit, notEntry, connects⟩
      · rintro rfl
        rcases connects with ⟨port, has, isOut, -⟩ | ⟨⟨port, has, isOut, -⟩, -⟩ <;> simp_all
      · rintro rfl
        rcases connects with connects | ⟨-, connects⟩ <;>
        · obtain ⟨peer, has, isIn, -⟩ := connects.exists_target inv.linked
          simp_all
  · intro side
    have shifted : last.boundary side = (net.boundary side).map (PortKey.exchange old new) := by
      cases side with
      | input => exact removed.inputs.trans (congrArg _ spliced.inputs)
      | output => exact removed.outputs.trans (congrArg _ spliced.outputs)
    rw [shifted, forall₂_map_right_iff]
    refine forall₂_same.mpr fun key _ => ?_
    rw [PortKey.exchange]
    split
    · grind
    · exact .inl rfl

theorem Exposed.ends_contract (exposed : net.Exposed) (inv : net.Consistent)
    (got : net.process? id = some proc) (entered : proc.inPorts = [entry])
    (left : proc.outPorts = [exit]) :
    (Edit.contract id).Ends net
      (fun removed next => removed = true ∧ ¬ net.Immovable proc ∧ net.Excised id entry exit next ∨
        removed = false ∧ net.Immovable proc ∧ next = net)
      fun _ => False := by
  obtain ⟨first, hasEntry, -, enters⟩ := inv.exists_in got entered
  obtain ⟨last, hasExit, -, leaves⟩ := inv.exists_out got left
  obtain ⟨pre, behind, mid, cut, next, disconnects, disconnectsToo, isPre, isBehind, joins,
      still, spliced⟩ :=
    inv.run_splice hasEntry enters hasExit leaves
  have askedEntry : net.portAt id .input 0 = .ok entry :=
    portAt_eq got (by simp [Process.ports, entered])
  have askedExit : net.portAt id .output 0 = .ok exit :=
    portAt_eq got (by simp [Process.ports, left])
  have isMine : ∀ key, key ∈ proc.allPorts ↔ key = entry ∨
    key = exit := by simp [Process.allPorts, entered, left]
  -- Ports with a connection are not on the boundary, and processes with such ports can be removed.
  have unbounded {key} (onBdry : next.isBoundary key) :
      (∀ dst, ¬ net.Connects key dst) ∧ ∀ src, ¬ net.Connects src key := by
    rw [Network.isBoundary, spliced.inputs, spliced.outputs] at onBdry
    exact inv.linked.unconnected_iff.mp fun port has => exposed.unconnected onBdry has
  have movable (conn : (∃ src, net.Connects src entry) ∨ ∃ dst, net.Connects exit dst) :
      ¬ net.Immovable proc :=
    fun immovable => by
      rcases conn with ⟨src, connects⟩ | ⟨dst, connects⟩
      · exact immovable.unfed entry (by simp [entered]) src connects
      · exact immovable.ended exit (by simp [left]) dst connects
  have finish {state} (movable : ¬ net.Immovable proc)
      (excises : (do discard <| Edit.removeProcess id; return true : Edit Bool).Ends state
        (fun removed last => removed = true ∧ net.Excised id entry exit last) fun _ => False) :
      (do discard <| Edit.removeProcess id; return true : Edit Bool).Ends state
        (fun removed next => removed = true ∧ ¬ net.Immovable proc ∧
          net.Excised id entry exit next ∨ removed = false ∧ net.Immovable proc ∧ next = net)
          fun _ => False :=
    excises.imp fun _ _ done => .inl ⟨done.1, movable, done.2⟩
  unfold Edit.contract
  simp only [ends_bind, ends_get, askedEntry, askedExit, ends_answer]
  rw [ends_of_run disconnects, ends_of_run disconnectsToo]
  cases pre with
  | none =>
    have unfed : ∀ src, ¬ net.Connects src entry := fun src connects => by
      cases (isPre src).mpr connects
    obtain rfl := still (.inl rfl)
    cases behind with
    | none =>
      have ended : ∀ dst, ¬ net.Connects exit dst := fun dst connects => by
        have isEntry : dst = entry := by
          by_contra other
          cases (isBehind dst).mpr ⟨connects, other⟩
        exact unfed exit (isEntry ▸ connects)
      have immovable_iff : net.Immovable proc ↔ next.isBoundary entry ∨ next.isBoundary exit := by
        rw [Network.isBoundary, Network.isBoundary, spliced.inputs, spliced.outputs]
        constructor
        · rintro ⟨-, -, key, mem, onBdry⟩
          rcases (isMine key).mp mem with rfl | rfl
          · exact .inl onBdry
          · exact .inr onBdry
        · intro onBdry
          refine ⟨fun key isEntry => ?_, fun key isExit => ?_, ?_⟩
          · grind
          · grind
          · rcases onBdry with onBdry | onBdry
            · exact ⟨entry, (isMine entry).mpr (.inl rfl), onBdry⟩
            · exact ⟨exit, (isMine exit).mpr (.inr rfl), onBdry⟩
      simp only [ends_bind, ends_get]
      split
      · rename_i onBdry
        refine .inr ⟨rfl, immovable_iff.mpr (by simpa using onBdry), ?_⟩
        obtain rfl := inv.linked.eq_of_run_disconnect hasEntry disconnects
        exact inv.linked.eq_of_run_disconnect hasExit disconnectsToo
      · rename_i notBdry
        rw [Bool.or_eq_true, not_or] at notBdry
        refine finish (fun immovable => ?_) ?_
        · grind
        · rw [← exchangeBoundary_self next entry] at notBdry ⊢
          exact spliced.ends_excise inv exposed got entered left (.inl rfl)
            (absurd rfl) notBdry.1 notBdry.2
    | some dst =>
      obtain ⟨connects, notEntry⟩ := (isBehind dst).mp rfl
      refine finish (movable (.inr ⟨_, connects⟩))
        (spliced.ends_excise inv exposed got entered left (.inr (.inl ⟨rfl, connects⟩))
          (fun _ => spliced.free_target inv.linked connects unfed) (fun isBdry => ?_)
          fun isBdry => ?_)
      · rcases isBoundary_exchange isBdry with ⟨-, same⟩ | ⟨-, notEntry⟩
        · exact notEntry same.symm
        · exact notEntry rfl
      · rcases isBoundary_exchange isBdry with ⟨-, same⟩ | ⟨still, -⟩
        · exact connects.not_source inv.linked (same ▸ connects)
        · exact (unbounded still).1 dst connects
  | some src =>
    have connects := (isPre src).mp rfl
    cases behind with
    | none =>
      obtain rfl := still (.inr rfl)
      have ended : ∀ dst, net.Connects exit dst → dst = entry := fun dst leads => by grind
      refine finish (movable (.inl ⟨_, connects⟩))
        (spliced.ends_excise inv exposed got entered left (.inr (.inr ⟨rfl, connects⟩))
          (fun _ => spliced.free_source inv.linked connects ended) (fun isBdry => ?_)
          fun isBdry => ?_)
      · rcases isBoundary_exchange isBdry with ⟨-, same⟩ | ⟨still, -⟩
        · exact connects.not_source inv.linked (same.symm ▸ connects : net.Connects entry entry)
        · exact (unbounded still).2 src connects
      · rcases isBoundary_exchange isBdry with ⟨wasThere, same⟩ | ⟨-, notExit⟩
        · exact (unbounded wasThere).1 entry (same ▸ connects)
        · exact notExit rfl
    | some dst =>
      rw [ends_bind, ends_of_run (joins src dst rfl rfl), ← exchangeBoundary_self next entry]
      refine finish (movable (.inl ⟨_, connects⟩))
        (spliced.ends_excise inv exposed got entered left (.inl rfl) (absurd rfl) (fun isBdry => ?_)
          fun isBdry => ?_)
      · exact (unbounded (exchangeBoundary_self next entry ▸ isBdry)).2 src connects
      · exact (unbounded (exchangeBoundary_self next entry ▸ isBdry)).1 dst
          ((isBehind dst).mp rfl).1

theorem Excised.immovable (excised : net.Excised id entry exit next) (inv : net.Consistent)
    (got : net.process? id = some proc) (entered : proc.inPorts = [entry])
    (left : proc.outPorts = [exit]) {has : Process} (gotOther : net.process? other = some has)
    (elsewhere : other ≠ id) (immovable : net.Immovable has) : next.Immovable has where
  unfed key isEntry src connects := by
    obtain ⟨-, -, direct | ⟨-, leaves⟩⟩ := excised.connects.mp connects
    · exact immovable.unfed key isEntry src direct
    · exact immovable.unfed key isEntry exit leaves
  ended key isExit dst connects := by
    obtain ⟨-, -, direct | ⟨enters, -⟩⟩ := excised.connects.mp connects
    · exact immovable.ended key isExit dst direct
    · exact immovable.ended key isExit entry enters
  boundary := by
    obtain ⟨key, mem, onBdry⟩ := immovable.boundary
    refine ⟨key, mem, ?_⟩
    have apart {mine} (isMine : mine ∈ proc.allPorts) : key ≠ mine := by
      rintro rfl
      obtain ⟨port, hasPort, isOwner⟩ := (inv.mem_allPorts gotOther).mp mem
      have isOwnerToo := of_found hasPort ((inv.mem_allPorts got).mp isMine)
      exact elsewhere (isOwner.symm.trans isOwnerToo)
    obtain ⟨side, inside⟩ := isBoundary_iff.mp onBdry
    obtain ⟨place, bound, rfl⟩ := getElem_of_mem inside
    have rel := excised.boundary side
    have boundToo := rel.length_eq ▸ bound
    refine isBoundary_iff.mpr ⟨side, ?_⟩
    rcases rel.get bound boundToo with same | ⟨isEntry, -⟩ | ⟨isExit, -⟩
    · have same : (next.boundary side)[place] = (net.boundary side)[place] := same
      exact same ▸ getElem_mem boundToo
    · exact absurd isEntry (apart (by simp [Process.allPorts, entered]))
    · exact absurd isExit (apart (by simp [Process.allPorts, left]))

theorem isRedundant_iff : isRedundant proc ↔ (proc.kind = .zip ∨ proc.kind = .unzip) ∧
    ∃ entry exit, proc.inPorts = [entry] ∧ proc.outPorts = [exit] := by
  simp only [isRedundant, Bool.and_eq_true, Bool.or_eq_true, decide_eq_true_eq, length_eq_one_iff]
  constructor
  · rintro ⟨⟨named, entry, entered⟩, exit, left⟩
    cases kind : proc.kind <;> simp_all [Kind.isZip, Kind.isUnzip]
  · rintro ⟨named, entry, exit, entered, left⟩
    refine ⟨⟨?_, entry, entered⟩, exit, left⟩
    rcases named with named | named <;> simp [named, Kind.isZip, Kind.isUnzip]

end Dataflow.Network
