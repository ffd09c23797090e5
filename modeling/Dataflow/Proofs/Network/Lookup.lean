import Dataflow.Network.Edit

/-! What is found in a network after each of the changes that edits are made of. -/

open List

namespace Dataflow

namespace Port

/-- The port as it was declared, without its connection. -/
def unlinked (port : Port) : Port :=
  { port with connection := none }

/-- The port without a connection to any of the given ones. -/
def without (keys : List PortKey) (port : Port) : Port :=
  { port with connection := port.connection.filter (· ∉ keys) }

variable {keys : List PortKey} {port other : Port}

@[simp] theorem connection_unlinked : port.unlinked.connection = none := rfl

@[simp] theorem connection_without :
    (port.without keys).connection = port.connection.filter (· ∉ keys) := rfl

@[simp] theorem unlinked_without : (port.without keys).unlinked = port.unlinked := rfl

@[simp] theorem unlinked_unlinked : port.unlinked.unlinked = port.unlinked := rfl

theorem unlinked_eq : port.unlinked = other.unlinked ↔
    port.name = other.name ∧ port.owner = other.owner ∧ port.direction = other.direction ∧
      port.dataType = other.dataType := by
  simp [unlinked]

theorem eq_of_unlinked (same : port.unlinked = other.unlinked)
    (link : port.connection = other.connection) : port = other := by
  cases port
  simp_all [unlinked]

theorem without_eq_self (apart : ∀ key ∈ keys, port.connection ≠ some key) :
    port.without keys = port := by
  have kept : port.connection.filter (· ∉ keys) = port.connection := by
    cases conn : port.connection with
    | none => rfl
    | some key => grind
  rw [without, kept]

theorem without_eq_unlinked {key : PortKey} (mem : key ∈ keys) (conn : port.connection = some key) :
    port.without keys = port.unlinked := by
  rw [without, unlinked, conn]
  simp [mem]

end Port

/-- What holds of something that is found there holds of what was found there. -/
theorem of_found {α : Type} {place : Option α} {entry : α} {property : α → Prop}
    (has : place = some entry) (known : ∃ other, place = some other ∧ property other) :
    property entry := by
  obtain ⟨other, hasOther, holds⟩ := known
  exact Option.mem_unique has hasOther ▸ holds

/-- There are two directions. -/
theorem Direction.exists_iff {property : Direction → Prop} :
    (∃ dir, property dir) ↔ property .input ∨ property .output := by
  constructor
  · rintro ⟨dir, holds⟩
    cases dir with
    | input => exact .inl holds
    | output => exact .inr holds
  · rintro (holds | holds)
    · exact ⟨.input, holds⟩
    · exact ⟨.output, holds⟩

theorem Process.mem_allPorts {proc : Process} {key : PortKey} :
    key ∈ proc.allPorts ↔ ∃ dir, key ∈ proc.ports dir := by
  rw [Direction.exists_iff]
  exact mem_append

theorem Process.ports_addPort (proc : Process) (dir other : Direction) (key : PortKey) :
    (proc.addPort dir key).ports other =
      if dir = other then proc.ports other ++ [key] else proc.ports other := by
  cases dir <;> cases other <;> rfl

namespace Network

variable {net : Network} {id : ProcessId} {key : PortKey} {proc : Process}

/-- The network in which a port is connected to something else, or to nothing. -/
def relink (net : Network) (key : PortKey) (connection : Option PortKey) : Network :=
  { net with ports := net.ports.modify key fun port => { port with connection } }

/-- The network in which a port and its peer have no connection. -/
def unlink (net : Network) (key : PortKey) : Network :=
  match (net.port? key).bind (·.connection) with
  | some other => (net.relink key none).relink other none
  | none => net.relink key none

/-- The network in which a name stands for a given process. -/
def setProcess (net : Network) (id : ProcessId) (process : Process) : Network :=
  { net with processes := net.processes.insert id process }

/-- The network without a process, whose ports are left behind. -/
def eraseProcess (net : Network) (id : ProcessId) : Network :=
  { net with processes := net.processes.erase id }

/-- The network with one more port in the arena. -/
def pushPort (net : Network) (port : Port) : Network :=
  { net with ports := net.ports.push port }

/-- The network without a port, which lists may still name. -/
def freeKey (net : Network) (key : PortKey) : Network :=
  { net with ports := net.ports.free key }

theorem contains_eq (net : Network) (id : ProcessId) :
    net.contains id = (net.process? id).isSome := by
  simp [contains, process?]

theorem mem_ids : id ∈ net.ids ↔ ∃ proc, net.process? id = some proc := by
  rw [ids, Std.TreeMap.mem_keys, ← Std.TreeMap.contains_iff_mem, ← Option.isSome_iff_exists,
    ← contains_eq, contains]

theorem nodup_ids (net : Network) : net.ids.Nodup :=
  Std.TreeMap.nodup_keys

theorem nodup_toList (net : Network) : (net.processes.toList.map Prod.fst).Nodup := by
  rw [Std.TreeMap.map_fst_toList_eq_keys]
  exact net.nodup_ids

theorem length_ids (net : Network) : net.ids.length = net.size :=
  Std.TreeMap.length_keys

theorem mem_toList : (id, proc) ∈ net.processes.toList ↔ net.process? id = some proc := by
  simp [process?, Std.TreeMap.mem_toList_iff_getElem?_eq_some]

theorem process_eq_ok : net.process id = .ok proc ↔ net.process? id = some proc := by
  unfold Network.process
  cases net.process? id <;> simp

theorem port_eq_ok {port : Port} : net.port key = .ok port ↔ net.port? key = some port := by
  unfold Network.port
  cases net.port? key <;> simp

theorem lt_nextKey {port : Port} (has : net.port? key = some port) : key < net.ports.nextKey := by
  unfold port? Arena.get? at has
  refine Nat.lt_of_not_le fun outside => ?_
  simp [Array.getElem?_eq_none outside] at has

section Lookups

variable (net)

theorem port?_relink (key other : PortKey) (link : Option PortKey) :
    (net.relink key link).port? other =
      if key = other then (net.port? other).map fun port => { port with connection := link }
      else net.port? other :=
  Arena.get?_modify ..

theorem port?_pushPort (port : Port) (key : PortKey) :
    (net.pushPort port).port? key = if key = net.ports.nextKey then some port else net.port? key :=
  Arena.get?_push ..

theorem port?_freeKey (key other : PortKey) :
    (net.freeKey key).port? other = if key = other then none else net.port? other :=
  Arena.get?_free ..

theorem process?_setProcess (id other : ProcessId) (proc : Process) :
    (net.setProcess id proc).process? other =
      if id = other then some proc else net.process? other := by
  simp [setProcess, process?, Std.TreeMap.getElem?_insert]

theorem process?_eraseProcess (id other : ProcessId) :
    (net.eraseProcess id).process? other = if id = other then none else net.process? other := by
  simp [eraseProcess, process?, Std.TreeMap.getElem?_erase]

@[simp] theorem process?_relink (link : Option PortKey) :
    (net.relink key link).process? id = net.process? id := rfl

@[simp] theorem process?_unlink : (net.unlink key).process? id = net.process? id := by
  unfold unlink
  split <;> rfl

@[simp] theorem inputs_unlink : (net.unlink key).inputs = net.inputs := by
  unfold unlink
  split <;> rfl

@[simp] theorem outputs_unlink : (net.unlink key).outputs = net.outputs := by
  unfold unlink
  split <;> rfl

@[simp] theorem names_unlink : (net.unlink key).names = net.names := by
  unfold unlink
  split <;> rfl

@[simp] theorem process?_pushPort (port : Port) :
    (net.pushPort port).process? id = net.process? id := rfl

@[simp] theorem process?_freeKey : (net.freeKey key).process? id = net.process? id := rfl

@[simp] theorem port?_setProcess (proc : Process) :
    (net.setProcess id proc).port? key = net.port? key := rfl

@[simp] theorem port?_eraseProcess : (net.eraseProcess id).port? key = net.port? key := rfl

@[simp] theorem nextKey_relink (link : Option PortKey) :
    (net.relink key link).ports.nextKey = net.ports.nextKey := by
  simp [relink, Arena.nextKey, Arena.modify]

@[simp] theorem nextKey_unlink : (net.unlink key).ports.nextKey = net.ports.nextKey := by
  unfold unlink
  split <;> simp

@[simp] theorem nextKey_pushPort (port : Port) :
    (net.pushPort port).ports.nextKey = net.ports.nextKey + 1 := by
  simp [pushPort, Arena.nextKey, Arena.push]

@[simp] theorem nextKey_freeKey : (net.freeKey key).ports.nextKey = net.ports.nextKey := by
  simp [freeKey, Arena.nextKey, Arena.free]

@[simp] theorem nextKey_setProcess (proc : Process) :
    (net.setProcess id proc).ports.nextKey = net.ports.nextKey := rfl

@[simp] theorem nextKey_eraseProcess : (net.eraseProcess id).ports.nextKey = net.ports.nextKey :=
      rfl

end Lookups

end Network

end Dataflow
