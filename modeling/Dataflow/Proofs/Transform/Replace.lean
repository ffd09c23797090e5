import Dataflow.Proofs.Edit.Destroy
import Dataflow.Proofs.Edit.Fresh
import Dataflow.Proofs.Network.Legal
import Dataflow.Proofs.Transform.Referable

/-! Putting one process in the place of a region that is entered at one port and left at another
one. -/

open List

namespace Dataflow.Network

variable {net next : Network} {start stop fresh id : ProcessId} {gone : List ProcessId}
  {entry exit key : PortKey}

/-- A region that is entered at one port and left at another one, apart from ports that lead into it
from elsewhere. -/
structure Excisable (net : Network) (start stop : ProcessId) (gone : List ProcessId)
    (entry exit : PortKey) : Prop where
  starts : ∃ process, net.process? start = some process ∧ process.inPorts = [entry]
  stops : ∃ process, net.process? stop = some process ∧ process.outPorts = [exit]
  start_mem : start ∈ gone
  stop_mem : stop ∈ gone
  leads : ∀ {key port}, net.port? key = some port → port.owner ∈ gone → port.direction = .output →
    key ≠ exit →
    ∃ other peer, port.connection = some other ∧ net.port? other = some peer ∧ peer.owner ∈ gone
  fed : ∀ {key port}, net.port? key = some port → port.owner ∈ gone → port.direction = .input →
    key ≠ entry → port.connection ≠ none
  entry_outside : ∀ {other port peer}, net.port? entry = some port → port.connection = some other →
    net.port? other = some peer → peer.owner ∉ gone
  exit_outside : ∀ {other port peer}, net.port? exit = some port → port.connection = some other →
    net.port? other = some peer → peer.owner ∉ gone
  reached : ∀ {region : ProcessId → Prop}, region start →
    (∀ source ∈ gone, ∀ target ∈ gone, region source → net.Feeds source target → region target) →
    ∀ id ∈ gone, region id

/-- Where a connection leads when a region is replaced: to the new ports, or nowhere. -/
def rewire (net : Network) (gone : List ProcessId) (entry exit : PortKey) (other : PortKey) :
    Option PortKey :=
  if other = entry then some net.ports.nextKey
  else if other = exit then some (net.ports.nextKey + 1)
  else if net.ownedBy gone other then none
  else some other

/-- The key that takes the place of another one on the boundary when a region is replaced. -/
def substitute (net : Network) (entry exit key : PortKey) : PortKey :=
  if key = entry then net.ports.nextKey else if key = exit then net.ports.nextKey + 1 else key

/-- What is left when one process has taken the place of a region. -/
structure Replaced (net : Network) (gone : List ProcessId) (entry exit : PortKey)
    (fresh : ProcessId) (kind : Kind Composite) (hierarchy : Hierarchy) (next : Network) :
    Prop where
  unused : ¬ net.names.taken.contains fresh
  absent : net.process? fresh = none
  evolves : net.Evolves next
  processes : ∀ id, next.process? id =
    if id = fresh then some ⟨kind, hierarchy, [net.ports.nextKey], [net.ports.nextKey + 1]⟩
    else if id ∈ gone then none else net.process? id
  ports : ∀ key, next.port? key =
    if key = net.ports.nextKey then (net.port? entry).map fun port => { port with owner := fresh }
    else if key = net.ports.nextKey + 1 then (net.port? exit).map fun port =>
      { port with owner := fresh }
    else if net.ownedBy gone key then none
    else (net.port? key).map fun port =>
      { port with connection := port.connection.bind (net.rewire gone entry exit) }
  inputs : next.inputs = net.inputs.map (net.substitute entry exit)
  outputs : next.outputs = net.outputs.map (net.substitute entry exit)

namespace Excisable

variable (exc : net.Excisable start stop gone entry exit) (inv : net.Consistent)

include exc inv

theorem contains (mem : id ∈ gone) : ∃ proc, net.process? id = some proc := by
  refine @Excisable.reached _ _ _ _ _ _ exc (fun id => ∃ proc, net.process? id = some proc)
    ?_ ?_ id mem
  · obtain ⟨proc, got, -⟩ := exc.starts
    exact ⟨proc, got⟩
  · intro src _ dst _ _ feeds
    exact inv.exists_target feeds

theorem exists_entry :
    ∃ port, net.port? entry = some port ∧ port.owner = start ∧ port.direction = .input := by
  obtain ⟨proc, got, ports⟩ := exc.starts
  exact inv.exists_in got ports

theorem exists_exit :
    ∃ port, net.port? exit = some port ∧ port.owner = stop ∧ port.direction = .output := by
  obtain ⟨proc, got, ports⟩ := exc.stops
  exact inv.exists_out got ports

end Excisable

/-- What is left when the entry and the exit of a region have moved to one process. -/
structure Redirected (net : Network) (entry exit : PortKey) (first last : Port) (fresh : ProcessId)
    (process : Process) (next : Network) : Prop where
  inv : next.Consistent
  processes : ∀ id, next.process? id =
    if id = fresh then
      some { process with inPorts := [net.ports.nextKey], outPorts := [net.ports.nextKey + 1] }
    else net.process? id
  ports : ∀ key, next.port? key =
    if key = net.ports.nextKey then some { first with owner := fresh }
    else if key = net.ports.nextKey + 1 then some { last with owner := fresh }
    else if key = entry then some first.unlinked
    else if key = exit then some last.unlinked
    else (net.port? key).map fun port =>
      { port with connection := port.connection.map (net.substitute entry exit) }
  inputs : next.inputs = net.inputs.map (net.substitute entry exit)
  outputs : next.outputs = net.outputs.map (net.substitute entry exit)

theorem run_redirect (inv : net.Consistent) {first last : Port} {proc front back : Process}
    (got : net.process? fresh = some proc) (noIns : proc.inPorts = []) (noOuts : proc.outPorts = [])
    (gotStart : net.process? start = some front) (ins : front.inPorts = [entry])
    (gotStop : net.process? stop = some back) (outs : back.outPorts = [exit])
    (newStop : stop ≠ fresh) (hasEntry : net.port? entry = some first)
    (enters : first.direction = .input) (hasExit : net.port? exit = some last)
    (leaves : last.direction = .output) (apart : last.connection ≠ some entry) :
    ∃ next, (Edit.redirect start stop fresh fresh).run net = .ok () next ∧
      net.Redirected entry exit first last fresh proc next := by
  have different : entry ≠ exit := by
    rintro rfl
    simp_all
  have oldEntry : entry ≠ net.ports.nextKey := Nat.ne_of_lt (lt_nextKey hasEntry)
  have oldExit : exit ≠ net.ports.nextKey := Nat.ne_of_lt (lt_nextKey hasExit)
  have entryNotLast : entry ≠ net.ports.nextKey + 1 :=
    Nat.ne_of_lt (Nat.lt_succ_of_lt (lt_nextKey hasEntry))
  have exitNotLast : exit ≠ net.ports.nextKey + 1 :=
    Nat.ne_of_lt (Nat.lt_succ_of_lt (lt_nextKey hasExit))
  have both : PortKey.exchange exit (net.ports.nextKey + 1) ∘ PortKey.exchange entry
      net.ports.nextKey = net.substitute entry exit := by
    funext key
    by_cases atEntry : key = entry
    · simp [PortKey.exchange, substitute, atEntry, Ne.symm oldExit]
    · simp [PortKey.exchange, substitute, atEntry]
  -- The exit is not changed when the entry moves, since they are not connected to each other.
  have apartBack : first.connection ≠ some exit := fun leads => by
    obtain ⟨peer, hasPeer, leadsBack, -⟩ := inv.linked hasEntry leads
    simp_all
  obtain ⟨mid, moves, moved⟩ :=
    run_movePort inv got (by simp [Process.ports, noIns]) hasEntry enters
  have midInv := ((inv.referable.keeps_movePort fresh False.elim).evolves moves).inv
  have hasMid : mid.port? exit = some last := by
    rw [moved.ports, if_neg oldExit, if_neg (Ne.symm different), hasExit, Option.map_some,
      Port.exchange_eq_self apart]
  have gotMid : mid.process? fresh = some { proc with inPorts := [net.ports.nextKey] } := by
    rw [moved.processes]
    simp [Process.addPort, noIns]
  obtain ⟨next, movesOn, movedOn⟩ :=
    run_movePort midInv gotMid (by simp [Process.ports, noOuts]) hasMid leaves
  refine ⟨next, ?_, ((midInv.referable.keeps_movePort fresh False.elim).evolves movesOn).inv,
    fun id => ?_, fun key => ?_, ?_, ?_⟩
  · have gotAfter : mid.process? stop = some back := by
      rw [moved.processes, if_neg newStop, gotStop]
    simp only [Edit.redirect, EStateM.run_bind, EStateM.run_get, process_eq_ok.mpr gotStart,
      Edit.run_answer, ins, Edit.run_forM_singleton, moves, process_eq_ok.mpr gotAfter,
      outs, movesOn]
  · rw [movedOn.processes, moved.processes, moved.nextKey]
    by_cases here : id = fresh
    · simp [here, Process.addPort, noOuts]
    · simp [here]
  · rw [movedOn.ports, moved.nextKey, moved.ports]
    by_cases atLast : key = net.ports.nextKey + 1
    · simp [atLast]
    by_cases atFirst : key = net.ports.nextKey
    · have kept : Port.exchange exit (net.ports.nextKey + 1) { first with owner := fresh } =
          { first with owner := fresh } :=
        Port.exchange_eq_self apartBack
      simp [atFirst, Ne.symm oldExit, kept]
    by_cases atExit : key = exit
    · grind
    by_cases atEntry : key = entry
    · simp [atEntry, oldEntry, different, entryNotLast, Port.exchange, Port.reroute, Port.unlinked]
    simp only [atLast, atFirst, atExit, atEntry, if_false, Option.map_map]
    refine Option.map_congr fun port _ => ?_
    simp [Port.exchange, Port.reroute, Option.map_map, both]
  · rw [movedOn.inputs, moved.inputs, moved.nextKey, map_map, both]
  · rw [movedOn.outputs, moved.outputs, moved.nextKey, map_map, both]

namespace Redirected

variable {first last : Port} {proc : Process}

section

variable (redirected : net.Redirected entry exit first last fresh proc next)

include redirected

/-- An inner connection of the region is not touched when the entry and the exit move. -/
theorem port (live : (net.port? key).isSome)
    (notEntry : key ≠ entry) (notExit : key ≠ exit) :
    next.port? key = (net.port? key).map fun port =>
      { port with connection := port.connection.map (net.substitute entry exit) } := by
  obtain ⟨port, has⟩ := Option.isSome_iff_exists.mp live
  have old := lt_nextKey has
  rw [redirected.ports, if_neg (Nat.ne_of_lt old), if_neg (Nat.ne_of_lt (Nat.lt_succ_of_lt old)),
    if_neg notEntry, if_neg notExit]

/-- Connections between processes of the region are those that were there before. -/
theorem feeds (inv : net.Consistent)
    (exc : net.Excisable start stop gone entry exit) (new : fresh ∉ gone) {src dst : ProcessId}
    (mem : src ∈ gone) : next.Feeds src dst ↔ net.Feeds src dst ∧ dst ∈ gone := by
  have inner {key other : PortKey} {port peer : Port} (has : net.port? key = some port)
      (owned : port.owner ∈ gone)
      (leads : port.connection = some other) (hasPeer : net.port? other = some peer)
        (ownedPeer : peer.owner ∈ gone) :
      key ≠ entry ∧ key ≠ exit := by
    constructor
    · rintro rfl
      exact exc.entry_outside has leads hasPeer ownedPeer
    · rintro rfl
      exact exc.exit_outside has leads hasPeer ownedPeer
  constructor
  · rintro ⟨key, port, other, peer, has, leaves, conn, hasPeer, rfl, rfl⟩
    rw [redirected.ports] at has
    split at has
    · cases has
      exact absurd mem new
    split at has
    · cases has
      exact absurd mem new
    split at has
    · rw [← Option.some.inj has] at conn
      cases conn
    split at has
    · rw [← Option.some.inj has] at conn
      cases conn
    rename_i notEntry notExit
    obtain ⟨old, hasOld, rfl⟩ := Option.map_eq_some_iff.mp has
    obtain ⟨far, farPeer, leads, hasFar, ownedFar⟩ := exc.leads hasOld mem leaves notExit
    have apart := inner hasFar ownedFar (inv.linked.back hasOld leads hasFar) hasOld mem
    have same : other = far := by
      simp only [leads, Option.map_some, substitute, apart.1, apart.2, if_false, Option.some.injEq]
        at conn
      exact conn.symm
    subst same
    rw [redirected.port (by simp [hasFar]) apart.1 apart.2, hasFar, Option.map_some,
      Option.some.injEq] at hasPeer
    subst hasPeer
    exact ⟨⟨key, old, other, farPeer, hasOld, leaves, leads, hasFar, rfl, rfl⟩, ownedFar⟩
  · rintro ⟨⟨key, port, other, peer, has, leaves, conn, hasPeer, rfl, rfl⟩, ownedPeer⟩
    have apart := inner has mem conn hasPeer ownedPeer
    have apartPeer := inner hasPeer ownedPeer (inv.linked.back has conn hasPeer) has mem
    have hasNext := redirected.port (by simp [has]) apart.1 apart.2
    have hasPeerNext := redirected.port (by simp [hasPeer]) apartPeer.1 apartPeer.2
    rw [has] at hasNext
    rw [hasPeer] at hasPeerNext
    exact ⟨key, _, other, _, hasNext, leaves, by simp [conn, substitute, apartPeer], hasPeerNext,
      rfl, rfl⟩

end

end Redirected

theorem Without.congr {more : List ProcessId} (without : net.Without gone next)
    (same : ∀ id, id ∈ gone ↔ id ∈ more) : net.Without more next := by
  have owned : net.ownedBy gone = net.ownedBy more := funext fun key => by simp [ownedBy, same]
  have detached : net.detach gone = net.detach more := funext fun port => by simp [detach, owned]
  refine ⟨fun id => ?_, fun key => ?_, without.inputs, without.outputs, without.names,
    without.nextKey⟩
  · simp only [without.processes, same]
  · rw [without.ports, owned, detached]

theorem Consistent.lt_nextKey_of_mem (inv : net.Consistent) {proc : Process}
    (got : net.process? id = some proc) (mem : key ∈ proc.allPorts) : key < net.ports.nextKey := by
  obtain ⟨port, has, -⟩ := (inv.mem_allPorts got).mp mem
  exact lt_nextKey has

namespace Added

variable {proc : Process}

section

variable (added : net.Added fresh proc next)

include added

theorem port (key : PortKey) : next.port? key = net.port? key := by
  rw [port?, added.ports, port?]

theorem process_of_ne (other : id ≠ fresh) : next.process? id = net.process? id := by
  rw [added.processes, if_neg other]

/-- A region stays one when a process is added elsewhere. -/
theorem excisable (new : fresh ∉ gone) (exc : net.Excisable start stop gone entry exit) :
    next.Excisable start stop gone entry exit := by
  have startOther : start ≠ fresh := fun same => new (same ▸ exc.start_mem)
  have stopOther : stop ≠ fresh := fun same => new (same ▸ exc.stop_mem)
  refine ⟨?_, ?_, exc.start_mem, exc.stop_mem, ?_, ?_, ?_, ?_, fun {reg} starts step => ?_⟩
  · exact added.process_of_ne startOther ▸ exc.starts
  · exact added.process_of_ne stopOther ▸ exc.stops
  · simp only [added.port]
    exact exc.leads
  · simp only [added.port]
    exact exc.fed
  · simp only [added.port]
    exact exc.entry_outside
  · simp only [added.port]
    exact exc.exit_outside
  · simp only [Feeds, added.port] at step
    exact exc.reached starts step

end

end Added

theorem Redirected.doomed {first last : Port} {proc : Process}
    (redirected : net.Redirected entry exit first last fresh proc next) (inv : net.Consistent)
    (exc : net.Excisable start stop gone entry exit) (new : fresh ∉ gone) (isFlat : next.Flat)
    (free : ∀ {key port}, net.isBoundary key → net.port? key = some port → port.connection = none) :
    next.Doomed gone where
  inv := redirected.inv
  flat := isFlat
  closed src mem dst feeds := ((redirected.feeds inv exc new mem).mp feeds).2
  inner other mem proc got key memKey onBdry := by
    have elsewhere : other ≠ fresh := fun same => new (same ▸ mem)
    rw [redirected.processes, if_neg elsewhere] at got
    have old := inv.lt_nextKey_of_mem got memKey
    obtain ⟨port, has, rfl⟩ := (inv.mem_allPorts got).mp memKey
    -- A key on the boundary is a new one, or was there before.
    have origin : ∃ former, net.isBoundary former ∧ net.substitute entry exit former = key := by
      simp only [isBoundary, redirected.inputs, redirected.outputs, Bool.or_eq_true,
        contains_iff_mem, mem_map] at onBdry ⊢
      rcases onBdry with ⟨former, isInput, same⟩ | ⟨former, isOut, same⟩
      · exact ⟨former, .inl isInput, same⟩
      · exact ⟨former, .inr isOut, same⟩
    obtain ⟨former, onOld, same⟩ := origin
    unfold substitute at same
    split at same
    · exact absurd same (Nat.ne_of_gt old)
    split at same
    · grind
    rename_i notEntry notExit
    subst same
    have unconnected := free onOld has
    cases side : port.direction with
    | input => exact exc.fed has mem side notEntry unconnected
    | output =>
      obtain ⟨_, _, conn, -⟩ := exc.leads has mem side notExit
      rw [unconnected] at conn
      cases conn

/-- Everything in the region goes when its start is destroyed. -/
theorem Cleared.mem_iff {first last : Port} {proc : Process} {cut : Network}
    {removed : List ProcessId} (cleared : cut.Cleared gone [start] removed next)
    (redirected : net.Redirected entry exit first last fresh proc cut) (inv : net.Consistent)
    (exc : net.Excisable start stop gone entry exit) (new : fresh ∉ gone) :
    id ∈ removed ↔ id ∈ gone := by
  refine ⟨fun mem => cleared.inside mem, fun mem => ?_⟩
  refine @Excisable.reached _ _ _ _ _ _ exc (· ∈ removed) ?_ ?_ id mem
  · obtain ⟨front, gotStart, -⟩ := exc.starts
    have other : start ≠ fresh := fun same => new (same ▸ exc.start_mem)
    refine cleared.reaches start (mem_singleton_self start) ?_
    rw [contains_eq, redirected.processes, if_neg other, gotStart]
    rfl
  · intro src memSrc dst memDst isRemoved feeds
    exact cleared.closed src isRemoved dst
      ((redirected.feeds inv exc new memSrc).mpr ⟨feeds, memDst⟩)

theorem ownedBy_of_nextKey_le {key : PortKey} (new : net.ports.nextKey ≤ key) :
    net.ownedBy gone key = false := by
  cases has : net.port? key with
  | none => simp [Network.ownedBy, has]
  | some port => exact absurd (lt_nextKey has) (Nat.not_lt.mpr new)

theorem Redirected.ownedBy {first last : Port} {proc : Process}
    (redirected : net.Redirected entry exit first last fresh proc next) (new : fresh ∉ gone)
    (hasEntry : net.port? entry = some first) (hasExit : net.port? exit = some last) :
    next.ownedBy gone = net.ownedBy gone := by
  funext key
  rw [Network.ownedBy, redirected.ports]
  by_cases atFirst : key = net.ports.nextKey
  · rw [if_pos atFirst, ownedBy_of_nextKey_le (Nat.le_of_eq atFirst.symm)]
    exact decide_eq_false new
  by_cases atLast : key = net.ports.nextKey + 1
  · rw [if_neg atFirst, if_pos atLast, ownedBy_of_nextKey_le (atLast ▸ Nat.le_succ _)]
    exact decide_eq_false new
  by_cases atEntry : key = entry
  · rw [if_neg atFirst, if_neg atLast, if_pos atEntry, Network.ownedBy, atEntry, hasEntry]
    rfl
  by_cases atExit : key = exit
  · rw [if_neg atFirst, if_neg atLast, if_neg atEntry, if_pos atExit, Network.ownedBy,
      atExit, hasExit]
    rfl
  · rw [if_neg atFirst, if_neg atLast, if_neg atEntry, if_neg atExit, Network.ownedBy]
    cases net.port? key <;> rfl

theorem Redirected.detached {first last : Port} {proc : Process}
    (redirected : net.Redirected entry exit first last fresh proc next) (inv : net.Consistent)
    (exc : net.Excisable start stop gone entry exit) (new : fresh ∉ gone)
    (hasEntry : net.port? entry = some first) (hasExit : net.port? exit = some last)
    (key : PortKey) :
    (if net.ownedBy gone key then none else (next.port? key).map (next.detach gone)) =
      if key = net.ports.nextKey then some { first with owner := fresh }
      else if key = net.ports.nextKey + 1 then some { last with owner := fresh }
      else if net.ownedBy gone key then none
      else (net.port? key).map fun port =>
        { port with connection := port.connection.bind (net.rewire gone entry exit) } := by
  -- A port that leads out of the region keeps its connection.
  have outside {port : Port}
      (leads : ∀ other peer, port.connection = some other → net.port? other = some peer →
        peer.owner ∉ gone)
      (live : ∀ other, port.connection = some other → (net.port? other).isSome) :
      next.detach gone { port with owner := fresh } = { port with owner := fresh } := by
    unfold detach
    rw [redirected.ownedBy new hasEntry hasExit]
    cases conn : port.connection with
    | none => rfl
    | some other =>
      obtain ⟨peer, hasPeer⟩ := Option.isSome_iff_exists.mp (live other conn)
      simp [ownedBy_eq hasPeer, leads other peer conn hasPeer]
  have live {key port} (has : net.port? key = some port) (other : PortKey)
      (conn : port.connection = some other) : (net.port? other).isSome := by
    obtain ⟨peer, hasPeer, -⟩ := inv.linked has conn
    simp [hasPeer]
  rw [redirected.ports]
  by_cases atFirst : key = net.ports.nextKey
  · rw [if_pos atFirst, if_pos atFirst, ownedBy_of_nextKey_le (Nat.le_of_eq atFirst.symm)]
    exact congrArg some (outside (fun _ _ => exc.entry_outside hasEntry) (live hasEntry))
  by_cases atLast : key = net.ports.nextKey + 1
  · rw [if_neg atFirst, if_neg atFirst, if_pos atLast, if_pos atLast,
      ownedBy_of_nextKey_le (atLast ▸ Nat.le_succ _)]
    exact congrArg some (outside (fun _ _ => exc.exit_outside hasExit) (live hasExit))
  rw [if_neg atFirst, if_neg atFirst, if_neg atLast, if_neg atLast]
  cases owned : net.ownedBy gone key with
  | true => rfl
  | false =>
    have notEntry : key ≠ entry := by
      rintro rfl
      obtain ⟨port, has, isStart, -⟩ := exc.exists_entry inv
      simp [ownedBy_eq has, isStart, exc.start_mem] at owned
    have notExit : key ≠ exit := by
      rintro rfl
      obtain ⟨port, has, isStop, -⟩ := exc.exists_exit inv
      simp [ownedBy_eq has, isStop, exc.stop_mem] at owned
    rw [if_neg notEntry, if_neg notExit]
    simp only [Bool.false_eq_true, if_false, Option.map_map]
    refine Option.map_congr fun port _ => ?_
    unfold detach
    rw [redirected.ownedBy new hasEntry hasExit]
    cases conn : port.connection with
    | none => simp [conn]
    | some other =>
      by_cases atEntry : other = entry
      · simp [conn, substitute, rewire, atEntry, ownedBy_of_nextKey_le]
      by_cases atExit : other = exit
      · have apart : exit ≠ entry := atExit ▸ atEntry
        simp [conn, substitute, rewire, atExit, apart, ownedBy_of_nextKey_le]
      cases isOwned : net.ownedBy gone other <;>
        simp [conn, substitute, rewire, atEntry, atExit, isOwned]

theorem Excisable.run_replaceRegion (exc : net.Excisable start stop gone entry exit)
    (inv : net.Consistent) (legal : net.Legal) {proc : Process}
    (got : net.process? start = some proc) (top : proc.hierarchy.parent? = none) (stem : String)
    {kind : Kind Composite} (leaf : kind.isLeaf) :
    ∃ fresh next, (Edit.replaceRegion start stop stem kind).run net = .ok () next ∧
      net.Replaced gone entry exit fresh kind proc.hierarchy next := by
  obtain ⟨fresh, added, adds, isAdded⟩ := run_addFresh inv stem kind top
  have new : fresh ∉ gone := fun mem => by
    obtain ⟨proc, got⟩ := exc.contains inv mem
    simp [isAdded.absent] at got
  have stopOther : stop ≠ fresh := fun same => new (same ▸ exc.stop_mem)
  -- The new process is added before the region is touched, so all that is known of the region stays
  -- true.
  have excAdded := isAdded.excisable new exc
  obtain ⟨front, gotStart, ins⟩ := excAdded.starts
  obtain ⟨back, gotStop, outs⟩ := excAdded.stops
  obtain ⟨first, hasEntry, ownedEntry, enters⟩ := excAdded.exists_entry isAdded.inv
  obtain ⟨last, hasExit, ownedExit, leaves⟩ := excAdded.exists_exit isAdded.inv
  have apart : last.connection ≠ some entry := fun leads =>
    excAdded.exit_outside hasExit leads hasEntry (ownedEntry ▸ exc.start_mem)
  have gotFresh : added.process? fresh = some { kind, hierarchy := proc.hierarchy } := by
    rw [isAdded.processes, if_pos rfl]
  obtain ⟨cut, redirects, redirected⟩ :=
    run_redirect isAdded.inv gotFresh rfl rfl gotStart ins
      gotStop outs stopOther hasEntry enters hasExit leaves apart
  have isFlat : cut.Flat := fun {id has} gotId => by
    rw [redirected.processes] at gotId
    split at gotId
    · cases gotId
      exact leaf
    · rename_i other
      rw [isAdded.process_of_ne other] at gotId
      exact legal.leaves gotId
  have free {key port} (onBdry : added.isBoundary key) (has : added.port? key = some port) :
      port.connection = none := by
    rw [isAdded.port] at has
    rw [isBoundary, isAdded.inputs, isAdded.outputs] at onBdry
    exact legal.unconnected onBdry has
  have doomed := redirected.doomed isAdded.inv excAdded new isFlat free
  obtain ⟨count, removed, next, destroys, cleared⟩ :=
    doomed.run_destroy cut.searchDepth exc.start_mem (Nat.le_succ _)
  have without := cleared.without.congr fun id =>
    cleared.mem_iff redirected isAdded.inv excAdded new
  have substituted : added.substitute entry exit = net.substitute entry exit := by
    funext key
    simp [substitute, isAdded.ports]
  have entryPre : net.port? entry = some first := isAdded.port entry ▸ hasEntry
  have exitPre : net.port? exit = some last := isAdded.port exit ▸ hasExit
  have owned : added.ownedBy gone = net.ownedBy gone := by
    funext key
    rw [ownedBy, isAdded.port, ownedBy]
  have rewired : added.rewire gone entry exit = net.rewire gone entry exit := by
    funext key
    simp [rewire, owned, isAdded.ports]
  have runs : (Edit.replaceRegion start stop stem kind).run net = .ok () next := by
    simp only [Edit.replaceRegion, EStateM.run_bind, EStateM.run_get, process_eq_ok.mpr got,
      Edit.run_answer, adds, redirects, Edit.run_discard, Edit.destroyChain, destroys]
  have evo := (inv.referable.keeps_replaceRegion start stop stem False.elim).evolves runs
  refine ⟨fresh, next, runs, isAdded.unused, isAdded.absent, evo, fun id => ?_,
    fun key => ?_, ?_, ?_⟩
  · rw [without.processes, redirected.processes, isAdded.processes, isAdded.ports]
    by_cases here : id = fresh
    · simp [here, new]
    · simp [here]
  · rw [without.ports, redirected.ownedBy new hasEntry hasExit,
      redirected.detached isAdded.inv excAdded new hasEntry hasExit, isAdded.ports,
      isAdded.port, owned, rewired, entryPre, exitPre]
    rfl
  · rw [without.inputs, redirected.inputs, isAdded.inputs, substituted]
  · rw [without.outputs, redirected.outputs, isAdded.outputs, substituted]

end Dataflow.Network
