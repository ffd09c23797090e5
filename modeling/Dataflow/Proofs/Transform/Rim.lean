import Dataflow.Proofs.Transform.Prepared

/-!
What stays of a network while all between two of its processes is rewritten.

The rim is the two processes with their ports and the boundary of the graph, which belongs to them.
Whatever is replaced or cut in between, the ports of the rim change only in that they lead to other
keys.
-/

namespace Dataflow

/-- The key that a port leads to, where two ports that it may have led to are found under other
keys. -/
def reroute (entry exit enter leave key : PortKey) : PortKey :=
  if key = entry then enter else if key = exit then leave else key

theorem reroute_self (entry exit : PortKey) : reroute entry exit entry exit = id := by
  funext key
  simp only [reroute, id]
  split
  · rename_i same
    exact same.symm
  · grind

/-- A network in which two processes stand around all the others, and the ports that these lead
to. -/
structure Rim where
  origin : Network
  source : ProcessId
  sink : ProcessId
  entry : PortKey
  exit : PortKey

variable {net next : Network} {id first last start stop fresh : ProcessId} {gone : List ProcessId}
  {key enter leave entry exit : PortKey} {kind : Kind Composite} {hier : Hierarchy} {port : Port}

namespace Network.Excisable

section

variable (exc : net.Excisable start stop gone entry exit) (inv : net.Consistent)
  (has : net.port? key = some port)

include exc inv has

theorem eq_entry (owned : port.owner = start) (enters : port.direction = .input) : key = entry := by
  obtain ⟨proc, got, ins⟩ := exc.starts
  exact inv.eq_of_inPorts got ins has owned enters

theorem eq_exit (owned : port.owner = stop) (leaves : port.direction = .output) : key = exit := by
  obtain ⟨proc, got, outs⟩ := exc.stops
  exact inv.eq_of_outPorts got outs has owned leaves

end

end Network.Excisable

section Cutting

variable {reg : Section} {chains : List (List ProcessId)} {cut : Cut}

namespace Network.Severs

theorem port_of (severs : net.Severs reg chains cut next) (has : net.port? key = some port)
    (outer : port.owner ∉ chains.flatten) : next.port? key = some port :=
  severs.cuts.port_of severs.ready.inv.linked has (severs.elsewhere has outer)

end Network.Severs

end Cutting

namespace Rim

variable {rim : Rim}

/-- The two processes on the rim. -/
def ends (rim : Rim) : List ProcessId :=
  [rim.source, rim.sink]

/-- The ends of the rim are maps, are connected to what is between them only, and have the boundary
of the graph. -/
structure Intact (rim : Rim) : Prop where
  inv : rim.origin.Consistent
  apart : rim.source ≠ rim.sink
  maps : ∀ id ∈ rim.ends, ∃ process function, rim.origin.process? id = some process ∧
    process.kind = .map function
  enters : ∃ key port, rim.origin.port? key = some port ∧ port.owner = rim.source ∧
    port.direction = .output ∧ port.connection = some rim.entry
  leaves : ∃ key port, rim.origin.port? key = some port ∧ port.owner = rim.sink ∧
    port.direction = .input ∧ port.connection = some rim.exit
  border : ∀ {key port other}, rim.origin.port? key = some port → port.owner ∈ rim.ends →
    port.connection = some other → other = rim.entry ∨ other = rim.exit
  boundary : ∀ {key}, rim.origin.isBoundary key →
    ∃ port, rim.origin.port? key = some port ∧ port.owner ∈ rim.ends
  emits : rim.origin.Emits rim.sink

/-- The rim stands around what lies between its first and its last process, which are entered and
left at two ports. -/
structure Around (rim : Rim) (first last : ProcessId) (enter leave : PortKey) (net : Network) :
    Prop where
  processes : ∀ id ∈ rim.ends, net.process? id = rim.origin.process? id
  ports : ∀ {key port}, rim.origin.port? key = some port → port.owner ∈ rim.ends →
    net.port? key =
      some { port with connection := port.connection.map (reroute rim.entry rim.exit enter leave) }
  enter : net.port? enter =
    (rim.origin.port? rim.entry).map fun port => { port with owner := first }
  leave : net.port? leave = (rim.origin.port? rim.exit).map fun port => { port with owner := last }
  inputs : net.inputs = rim.origin.inputs
  outputs : net.outputs = rim.origin.outputs

namespace Intact

theorem exists_entry (intact : rim.Intact) :
    ∃ port key back, rim.origin.port? rim.entry = some port ∧ port.direction = .input ∧
      port.connection = some key ∧ rim.origin.port? key = some back ∧ back.owner = rim.source ∧
      back.direction = .output ∧ back.connection = some rim.entry := by
  obtain ⟨key, back, has, owned, leaves, conn⟩ := intact.enters
  obtain ⟨port, hasPort, leads, -⟩ := intact.inv.linked has conn
  exact ⟨port, key, back, hasPort, intact.inv.linked.crosses has conn hasPort leaves, leads,
    has, owned, leaves, conn⟩

theorem exists_exit (intact : rim.Intact) :
    ∃ port key back, rim.origin.port? rim.exit = some port ∧ port.direction = .output ∧
      port.connection = some key ∧ rim.origin.port? key = some back ∧ back.owner = rim.sink ∧
      back.direction = .input ∧ back.connection = some rim.exit := by
  obtain ⟨key, back, has, owned, enters, conn⟩ := intact.leaves
  obtain ⟨port, hasPort, leads, -⟩ := intact.inv.linked has conn
  exact ⟨port, key, back, hasPort, intact.inv.linked.crosses_back has conn hasPort enters,
    leads, has, owned, enters, conn⟩

theorem entry_ne_exit (intact : rim.Intact) : rim.entry ≠ rim.exit := fun same => by
  obtain ⟨port, -, -, has, enters, -⟩ := intact.exists_entry
  obtain ⟨too, -, -, hasToo, leaves, -⟩ := intact.exists_exit
  rw [same, hasToo] at has
  cases has
  simp [enters] at leaves

end Intact

namespace Around

variable (around : rim.Around first last enter leave net) (intact : rim.Intact)

include around intact

theorem feeds_first : net.Feeds rim.source first := by
  obtain ⟨port, key, back, has, -, -, hasBack, owned, leaves, conn⟩ := intact.exists_entry
  have hasNow := around.ports hasBack (by simp [ends, owned])
  have hasEnter := around.enter
  rw [has] at hasEnter
  exact ⟨key, _, enter, _, hasNow, leaves, by simp [conn, reroute], hasEnter, owned, rfl⟩

theorem feeds_sink : net.Feeds last rim.sink := by
  obtain ⟨port, key, back, has, leaves, leads, hasBack, owned, -⟩ := intact.exists_exit
  have hasNow := around.ports hasBack (by simp [ends, owned])
  have hasLeave := around.leave
  rw [has] at hasLeave
  exact ⟨leave, _, key, _, hasLeave, leaves, leads, hasNow, rfl, owned⟩

theorem emits : net.Emits rim.sink := by
  obtain ⟨key, mem, port, has, owned⟩ := intact.emits
  exact ⟨key, around.outputs ▸ mem, _, around.ports has (by simp [ends, owned]), owned⟩

theorem exists_process (isEnd : id ∈ rim.ends) :
    ∃ proc fn, net.process? id = some proc ∧ proc.kind = .map fn := by
  obtain ⟨proc, fn, got, isMap⟩ := intact.maps id isEnd
  exact ⟨proc, fn, (around.processes id isEnd).trans got, isMap⟩

section

variable (inv : net.Consistent) (exc : net.Excisable start stop gone entry exit)

include inv exc

theorem map_substitute (outside : ∀ id ∈ rim.ends, id ∉ gone) {keys : List PortKey}
    (onBdry : ∀ key ∈ keys, rim.origin.isBoundary key) :
    keys.map (net.substitute entry exit) = keys := by
  refine (List.map_congr_left fun key mem => ?_).trans (List.map_id keys)
  obtain ⟨port, has, isEnd⟩ := intact.boundary (onBdry key mem)
  exact exc.substitute_of inv (around.ports has isEnd) (outside _ isEnd)

/-- A replacement of something between the ends leaves the rim around what is in between then. -/
theorem replaced (repl : net.Replaced gone entry exit fresh kind hier next)
    (outside : ∀ id ∈ rim.ends, id ∉ gone) (starts : first ∈ gone → first = start)
    (stops : last ∈ gone → last = stop) :
    ∃ enter leave, rim.Around (if first ∈ gone then fresh else first)
      (if last ∈ gone then fresh else last) enter leave next := by
  -- The ports at which the row is entered and left are known, wherever they are.
  obtain ⟨inner, src, back, hasInner, enters, led, hasBack, owned, -⟩ := intact.exists_entry
  obtain ⟨outer, dst, behind, hasOuter, leaves, leads, hasBehind, ownedBehind, -⟩ :=
    intact.exists_exit
  have hasEnter := around.enter
  rw [hasInner] at hasEnter
  have hasLeave := around.leave
  rw [hasOuter] at hasLeave
  have opens (inside : first ∈ gone) : enter = entry :=
    exc.eq_entry inv hasEnter (starts inside) enters
  have closes (inside : last ∈ gone) : leave = exit :=
    exc.eq_exit inv hasLeave (stops inside) leaves
  have rewiredEnter : net.rewire gone entry exit enter =
      some (if first ∈ gone then net.ports.nextKey else enter) := by
    split
    · rename_i inside
      simp [Network.rewire, opens inside]
    · rename_i stays
      exact exc.rewire_of inv hasEnter stays
  have rewiredLeave : net.rewire gone entry exit leave =
      some (if last ∈ gone then net.ports.nextKey + 1 else leave) := by
    split
    · rename_i inside
      have notEntry : exit ≠ entry := fun same => by
        obtain ⟨port, hasPort, -, input⟩ := exc.exists_entry inv
        rw [closes inside, same, hasPort] at hasLeave
        cases hasLeave
        simp [leaves] at input
      simp [Network.rewire, closes inside, notEntry]
    · rename_i stays
      exact exc.rewire_of inv hasLeave stays
  have rewired {key port} (has : rim.origin.port? key = some port) (isEnd : port.owner ∈ rim.ends) :
      net.rewire gone entry exit key = some key :=
    exc.rewire_of inv (around.ports has isEnd) (outside _ isEnd)
  refine ⟨if first ∈ gone then net.ports.nextKey else enter,
    if last ∈ gone then net.ports.nextKey + 1 else leave, ?_, ?_, ?_, ?_, ?_, ?_⟩
  · intro id isEnd
    obtain ⟨proc, fn, got, -⟩ := around.exists_process intact isEnd
    rw [repl.process_of got (outside id isEnd), ← around.processes id isEnd, got]
  · intro key port has isEnd
    rw [repl.port_of (around.ports has isEnd) (outside _ isEnd)]
    cases conn : port.connection with
    | none => rfl
    | some other =>
      rcases intact.border has isEnd conn with rfl | rfl
      · simp [reroute, rewiredEnter]
      · simp [reroute, intact.entry_ne_exit.symm, rewiredLeave]
  · rw [hasInner]
    split
    · rename_i inside
      rw [opens inside] at hasEnter
      rw [repl.port_entry hasEnter, Option.map_some]
    · rename_i stays
      rw [repl.port_of hasEnter stays]
      simp [led, rewired hasBack (by simp [ends, owned])]
  · rw [hasOuter]
    split
    · rename_i inside
      rw [closes inside] at hasLeave
      rw [repl.port_exit hasLeave, Option.map_some]
    · rename_i stays
      rw [repl.port_of hasLeave stays]
      simp [leads, rewired hasBehind (by simp [ends, ownedBehind])]
  · rw [repl.inputs, around.inputs]
    exact around.map_substitute intact inv exc outside fun key mem => by
      simp [Network.isBoundary, mem]
  · rw [repl.outputs, around.outputs]
    exact around.map_substitute intact inv exc outside fun key mem => by
      simp [Network.isBoundary, mem]

end

/-- A cut of something between the ends leaves the rim around it. -/
theorem severed {reg : Section} {chains : List (List ProcessId)} {cut : Cut}
    (severs : net.Severs reg chains cut next) (outside : ∀ id ∈ rim.ends, id ∉ chains.flatten)
    (starts : first ∉ chains.flatten) (stops : last ∉ chains.flatten) :
    rim.Around first last enter leave next := by
  refine ⟨fun id isEnd => ?_, fun has isEnd =>
    severs.port_of (around.ports has isEnd) (outside _ isEnd), ?_, ?_,
    severs.cuts.inputs.trans around.inputs, severs.cuts.outputs.trans around.outputs⟩
  · obtain ⟨proc, fn, got, -⟩ := around.exists_process intact isEnd
    rw [severs.cuts.process_of severs.ready.inv got, ← around.processes id isEnd, got]
  · obtain ⟨inner, -, -, hasInner, -⟩ := intact.exists_entry
    have hasEnter := around.enter
    rw [hasInner] at hasEnter ⊢
    exact severs.port_of hasEnter starts
  · obtain ⟨outer, -, -, hasOuter, -⟩ := intact.exists_exit
    have hasLeave := around.leave
    rw [hasOuter] at hasLeave ⊢
    exact severs.port_of hasLeave stops

end Around

end Rim

end Dataflow
