import Dataflow.Network.Feedback
import Dataflow.Proofs.Edit.Primitive
import Dataflow.Proofs.Graph.Loop
import Mathlib.Data.List.ReduceOption

/-! Which processes feed which, read off the ports, and how the questions about neighbours answer
this. -/

open List Option

namespace Dataflow

theorem mapM_eq_ok {α β : Type} {question : α → Except Fault β} {ans : α → β} {entries : List α}
    (answered : ∀ entry ∈ entries, question entry = .ok (ans entry)) :
    entries.mapM question = .ok (entries.map ans) := by
  induction entries with
  | nil => rfl
  | cons entry entries ih =>
    rw [mapM_cons, answered entry mem_cons_self, ih fun other mem =>
      answered other (mem_cons_of_mem entry mem)]
    rfl

namespace Network

variable {net : Network} {id src dst : ProcessId} {key far other entry exit : PortKey}
  {proc : Process} {port : Port}

/-- The process at the other end of the connection of a port. -/
def remote (net : Network) (key : PortKey) : Option ProcessId :=
  ((net.port? key).bind (·.connection)).bind fun other => (net.port? other).map (·.owner)

/-- The processes at the other ends of the connections of a process in one direction, in the order
of its ports. -/
def across (net : Network) (id : ProcessId) (direction : Direction) : List ProcessId :=
  ((net.process? id).elim [] (·.ports direction)).filterMap net.remote

/-- A connection leads from an out-port of one process to a port of the other. -/
def Feeds (net : Network) (source target : ProcessId) : Prop :=
  ∃ key port other peer, net.port? key = some port ∧ port.direction = .output ∧
    port.connection = some other ∧ net.port? other = some peer ∧ port.owner = source ∧
    peer.owner = target

/-- A connection leads from an out-port to the port at its other end. -/
def Connects (net : Network) (source target : PortKey) : Prop :=
  ∃ port, net.port? source = some port ∧ port.direction = .output ∧ port.connection = some target

/-- An output of the graph belongs to the process. -/
def Emits (net : Network) (id : ProcessId) : Prop :=
  ∃ key ∈ net.outputs, ∃ port, net.port? key = some port ∧ port.owner = id

theorem remote_eq_some : net.remote key = some id ↔
    ∃ port other peer, net.port? key = some port ∧ port.connection = some other ∧
      net.port? other = some peer ∧ peer.owner = id := by
  simp only [remote, bind_eq_some_iff, map_eq_some_iff]
  constructor <;> grind

theorem feeds_iff_connects : net.Feeds src dst ↔
    ∃ key other, net.Connects key other ∧ (∃ port, net.port? key = some port ∧ port.owner = src) ∧
      ∃ peer, net.port? other = some peer ∧ peer.owner = dst := by
  constructor
  · rintro ⟨key, port, other, peer, has, leaves, conn, hasPeer, owned, ownedPeer⟩
    exact ⟨key, other, ⟨port, has, leaves, conn⟩, ⟨port, has, owned⟩, peer, hasPeer, ownedPeer⟩
  · rintro ⟨key, other, ⟨port, has, leaves, conn⟩, ⟨too, hasToo, owned⟩, peer, hasPeer, ownedPeer⟩
    obtain rfl := mem_unique has hasToo
    exact ⟨key, port, other, peer, has, leaves, conn, hasPeer, owned, ownedPeer⟩

theorem connects_iff_connection (has : net.port? key = some port)
    (leaves : port.direction = .output) : net.Connects key far ↔ port.connection = some far := by
  simp [Connects, has, leaves]

theorem Connects.target_unique (first : net.Connects key far) (second : net.Connects key other) :
    far = other := by
  obtain ⟨port, has, -, conn⟩ := first
  obtain ⟨-, connToo⟩ := of_found has second
  exact mem_unique conn connToo

theorem Connects.source_unique (linked : net.Linked) (first : net.Connects far key)
    (second : net.Connects other key) : far = other := by
  obtain ⟨port, has, -, conn⟩ := first
  obtain ⟨peer, hasPeer, -, connPeer⟩ := second
  exact linked.unique has hasPeer conn connPeer

theorem Connects.exists_target (linked : net.Linked) (connects : net.Connects key far) :
    ∃ peer, net.port? far = some peer ∧ peer.direction = .input ∧ peer.connection = some key := by
  obtain ⟨port, has, leaves, conn⟩ := connects
  obtain ⟨peer, hasPeer, leadsBack, -⟩ := linked has conn
  exact ⟨peer, hasPeer, linked.crosses has conn hasPeer leaves, leadsBack⟩

theorem Linked.connection_eq_some (linked : net.Linked) (has : net.port? key = some port)
    (enters : port.direction = .input) : port.connection = some far ↔ net.Connects far key := by
  constructor
  · intro conn
    obtain ⟨peer, hasPeer, leadsBack, -⟩ := linked has conn
    exact ⟨peer, hasPeer, linked.crosses_back has conn hasPeer enters, leadsBack⟩
  · rintro ⟨peer, hasPeer, -, conn⟩
    exact linked.back hasPeer conn has

theorem Connects.remote {peer : Port} (connects : net.Connects key far)
    (hasPeer : net.port? far = some peer) : net.remote key = some peer.owner := by
  obtain ⟨port, has, -, conn⟩ := connects
  exact remote_eq_some.mpr ⟨port, far, peer, has, conn, hasPeer, rfl⟩

theorem Connects.remote_back (connects : net.Connects key far) (linked : net.Linked)
    (has : net.port? key = some port) : net.remote far = some port.owner := by
  obtain ⟨peer, hasPeer, -, conn⟩ := connects.exists_target linked
  exact remote_eq_some.mpr ⟨peer, key, port, hasPeer, conn, has, rfl⟩

theorem mem_across_of_stored {dir : Direction} (got : net.process? id = some proc) :
    dst ∈ net.across id dir ↔ ∃ key ∈ proc.ports dir, net.remote key = some dst := by
  rw [across, got]
  exact mem_filterMap

namespace Consistent

variable (inv : net.Consistent)

include inv

theorem peerOwner_eq (live : (net.port? key).isSome) :
    net.peerOwner key = .ok (net.remote key) := by
  obtain ⟨port, has⟩ := isSome_iff_exists.mp live
  rw [peerOwner, peer_eq_ok has]
  cases conn : port.connection with
  | none => simp [remote, has, conn, bind, Except.bind, pure, Except.pure]
  | some other =>
    obtain ⟨peer, hasPeer, -⟩ := inv.linked has conn
    simp [remote, has, conn, hasPeer, owner, port_eq_ok.mpr hasPeer, bind, Except.bind, pure,
      Except.pure, Functor.map, Except.map]

theorem neighbours_eq (got : net.process? id = some proc) (dir : Direction) :
    net.neighbours id dir = .ok (net.across id dir) := by
  have answered : (proc.ports dir).mapM net.peerOwner = .ok ((proc.ports dir).map net.remote) := by
    refine mapM_eq_ok fun key mem => inv.peerOwner_eq ?_
    obtain ⟨port, has, -⟩ := inv.listed got mem
    rw [has, isSome_some]
  rw [neighbours, process_eq_ok.mpr got]
  simp only [bind, Except.bind, answered, pure, Except.pure]
  simp [across, got, List.reduceOption, filterMap_map]

theorem targets_eq (id : ProcessId) : net.targets id = net.across id .output := by
  unfold targets successors
  cases got : net.process? id with
  | none => simp [neighbours, process_eq_error got, across, got, bind, Except.bind]
  | some proc => rw [inv.neighbours_eq got]

theorem mem_across {other : ProcessId} {dir : Direction} :
    other ∈ net.across id dir ↔
      ∃ key port far peer, net.port? key = some port ∧ port.direction = dir ∧
        port.connection = some far ∧ net.port? far = some peer ∧ port.owner = id ∧
        peer.owner = other := by
  constructor
  · intro across
    cases got : net.process? id with
    | none => simp [Network.across, got] at across
    | some proc =>
      obtain ⟨key, mem, leads⟩ := (mem_across_of_stored got).mp across
      obtain ⟨port, far, peer, has, conn, hasPeer, owned⟩ := remote_eq_some.mp leads
      obtain ⟨rfl, side⟩ := of_found has (inv.listed got mem)
      exact ⟨key, port, far, peer, has, side, conn, hasPeer, rfl, owned⟩
  · rintro ⟨key, port, far, peer, has, rfl, conn, hasPeer, rfl, owned⟩
    obtain ⟨proc, got, mem⟩ := inv.owned has
    exact (mem_across_of_stored got).mpr
      ⟨key, mem, remote_eq_some.mpr ⟨port, far, peer, has, conn, hasPeer, owned⟩⟩

/-- A process lies across an out-port of those that feed it. -/
theorem mem_across_output : dst ∈ net.across id .output ↔ net.Feeds id dst :=
  inv.mem_across

/-- A process lies across an in-port of those that it feeds. -/
theorem mem_across_input : src ∈ net.across id .input ↔ net.Feeds src id := by
  rw [inv.mem_across]
  constructor
  · rintro ⟨key, port, far, peer, has, enters, conn, hasPeer, owned, ownedPeer⟩
    exact ⟨far, peer, key, port, hasPeer, inv.linked.crosses_back has conn hasPeer enters,
      inv.linked.back has conn hasPeer, has, ownedPeer, owned⟩
  · rintro ⟨key, port, far, peer, has, leaves, conn, hasPeer, owned, ownedPeer⟩
    exact ⟨far, peer, key, port, hasPeer, inv.linked.crosses has conn hasPeer leaves,
      inv.linked.back has conn hasPeer, has, ownedPeer, owned⟩

theorem mem_targets : dst ∈ net.targets id ↔ net.Feeds id dst := by
  rw [inv.targets_eq, inv.mem_across_output]

theorem nodup_inPorts (got : net.process? id = some proc) : proc.inPorts.Nodup :=
  show (proc.ports .input).Nodup from inv.once got

theorem nodup_outPorts (got : net.process? id = some proc) : proc.outPorts.Nodup :=
  show (proc.ports .output).Nodup from inv.once got

theorem feeds_of_input {peer : Port} (has : net.port? key = some port)
    (enters : port.direction = .input) (conn : port.connection = some other)
    (hasPeer : net.port? other = some peer) : net.Feeds peer.owner port.owner :=
  ⟨other, peer, key, port, hasPeer, inv.linked.crosses_back has conn hasPeer enters,
    inv.linked.back has conn hasPeer, has, rfl, rfl⟩

section

variable (got : net.process? id = some proc)

include got

theorem eq_of_inPorts (ins : proc.inPorts = [entry]) (has : net.port? key = some port)
    (owned : port.owner = id) (enters : port.direction = .input) : key = entry := by
  have mem := inv.mem_ports got has owned
  rw [enters, Process.ports, ins] at mem
  exact mem_singleton.mp mem

theorem eq_of_outPorts (outs : proc.outPorts = [exit]) (has : net.port? key = some port)
    (owned : port.owner = id) (leaves : port.direction = .output) : key = exit := by
  have mem := inv.mem_ports got has owned
  rw [leaves, Process.ports, outs] at mem
  exact mem_singleton.mp mem

theorem feeds_iff_in : net.Feeds src id ↔ ∃ key ∈ proc.inPorts, net.remote key = some src :=
  inv.mem_across_input.symm.trans (mem_across_of_stored got)

theorem feeds_iff_out : net.Feeds id dst ↔ ∃ key ∈ proc.outPorts, net.remote key = some dst :=
  inv.mem_across_output.symm.trans (mem_across_of_stored got)

theorem source_unique {other : ProcessId} (ins : proc.inPorts = [entry])
    (feeds : net.Feeds src id) (feedsToo : net.Feeds other id) : src = other := by
  simp only [inv.feeds_iff_in got, ins, mem_singleton, exists_eq_left] at feeds feedsToo
  exact mem_unique feeds feedsToo

/-- A process with one out-port feeds one process only. -/
theorem target_unique {other : ProcessId} (outs : proc.outPorts = [exit])
    (feeds : net.Feeds id dst) (feedsToo : net.Feeds id other) : dst = other := by
  simp only [inv.feeds_iff_out got, outs, mem_singleton, exists_eq_left] at feeds feedsToo
  exact mem_unique feeds feedsToo

end

theorem exists_source (feeds : net.Feeds src dst) : ∃ proc, net.process? src = some proc := by
  obtain ⟨key, port, other, peer, has, -, -, -, rfl, -⟩ := feeds
  obtain ⟨proc, got, -⟩ := inv.owned has
  exact ⟨proc, got⟩

theorem exists_target (feeds : net.Feeds src dst) : ∃ proc, net.process? dst = some proc := by
  obtain ⟨key, port, other, peer, -, -, -, has, -, rfl⟩ := feeds
  obtain ⟨proc, got, -⟩ := inv.owned has
  exact ⟨proc, got⟩

theorem outputProcesses_eq :
    ∃ ids, net.outputProcesses = .ok ids ∧ ids.length = net.outputs.length ∧
      ∀ id, id ∈ ids ↔ net.Emits id := by
  have answered : ∀ key ∈ net.outputs, net.owner key = .ok ((net.port? key).elim "" (·.owner)) := by
    intro key mem
    have live := inv.boundary (show net.isBoundary key by simp [isBoundary, mem])
    obtain ⟨port, has⟩ := isSome_iff_exists.mp live
    simp [owner, port_eq_ok.mpr has, has, bind, Except.bind, pure, Except.pure]
  refine ⟨_, mapM_eq_ok answered, length_map _, fun id => ?_⟩
  rw [List.mem_map]
  refine exists_congr fun key => and_congr_right fun mem => ?_
  have live := inv.boundary (show net.isBoundary key by simp [isBoundary, mem])
  obtain ⟨port, has⟩ := isSome_iff_exists.mp live
  simp [has]

end Consistent

/-- A closed chain of processes, each of which feeds the next one and the last of which feeds the
first. -/
def IsLoop (net : Network) (loop : List ProcessId) : Prop :=
  Graph.IsLoop net.Feeds loop

end Network

end Dataflow
