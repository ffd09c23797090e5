import Dataflow.Proofs.Network.Lookup

/-! Consistent networks: ports and processes know each other, connections lead both ways, and
nothing dangles. -/

open List Option

namespace Dataflow.Network

variable {net next : Network} {id : ProcessId} {key other src dst : PortKey}
  {port peer first second : Port}
  {proc : Process}

/-- Every connection leads to a live port of the other direction, and back. -/
def Linked (net : Network) : Prop :=
  ∀ ⦃key other : PortKey⦄ ⦃port : Port⦄, net.port? key = some port → port.connection = some other →
    ∃ peer, net.port? other = some peer ∧ peer.connection = some key ∧
      peer.direction ≠ port.direction

/-- What every edit keeps true of a network. -/
structure Consistent (net : Network) : Prop where
  /-- A listed port is live, and knows the process and the direction it is listed in. -/
  listed : ∀ {id process direction key}, net.process? id = some process →
    key ∈ process.ports direction →
    ∃ port, net.port? key = some port ∧ port.owner = id ∧ port.direction = direction
  /-- No process lists a port twice. -/
  once : ∀ {id process direction}, net.process? id = some process → (process.ports direction).Nodup
  /-- A live port is listed by its owner, which exists. -/
  owned : ∀ {key port}, net.port? key = some port →
    ∃ process, net.process? port.owner = some process ∧ key ∈ process.ports port.direction
  /-- Connections are symmetric, and join an out-port to an in-port. -/
  linked : net.Linked
  /-- Ports of one process in one direction have different names. -/
  named : ∀ {key other port peer}, net.port? key = some port → net.port? other = some peer →
    port.owner = peer.owner → port.direction = peer.direction → port.name = peer.name → key = other
  /-- The boundary consists of live ports. -/
  boundary : ∀ {key}, net.isBoundary key → (net.port? key).isSome
  /-- The name of every process is taken. -/
  taken : ∀ {id process}, net.process? id = some process → net.names.taken.contains id

/-- A consistent network whose port keys are numbers of 32 bits. -/
structure WellFormed (net : Network) : Prop extends net.Consistent where
  /-- Every key that was ever handed out has 32 bits. -/
  keysFit : net.ports.nextKey ≤ UInt32.size

/-- What edits keep and never take back from one network to a later one. -/
structure Evolves (net next : Network) : Prop where
  /-- The later network is consistent. -/
  inv : next.Consistent
  /-- Keys are never handed out again. -/
  grows : net.ports.nextKey ≤ next.ports.nextKey
  /-- A port that is found under an old key was there before, with the same declaration. -/
  stable : ∀ {key port}, key < net.ports.nextKey → next.port? key = some port →
    ∃ former, net.port? key = some former ∧ former.unlinked = port.unlinked
  /-- A name that was taken stays taken. -/
  keepsTaken : ∀ {id}, net.names.taken.contains id → next.names.taken.contains id

/-- Networks that differ in their connections only. -/
structure Rewired (net next : Network) : Prop where
  evolves : net.Evolves next
  processes : ∀ id, next.process? id = net.process? id
  declared : ∀ key, (next.port? key).map Port.unlinked = (net.port? key).map Port.unlinked
  nextKey : next.ports.nextKey = net.ports.nextKey
  inputs : next.inputs = net.inputs
  outputs : next.outputs = net.outputs

theorem exists_of_declared
    (declared : (next.port? key).map Port.unlinked = (net.port? key).map Port.unlinked)
    (has : net.port? key = some port) :
    ∃ new, next.port? key = some new ∧ new.unlinked = port.unlinked := by
  rw [has] at declared
  exact map_eq_some_iff.mp declared

namespace Consistent

variable (inv : net.Consistent) (got : net.process? id = some proc)

include inv got

theorem listed_in (mem : key ∈ proc.inPorts) :
    ∃ port, net.port? key = some port ∧ port.owner = id ∧ port.direction = .input :=
  inv.listed got mem

theorem listed_out (mem : key ∈ proc.outPorts) :
    ∃ port, net.port? key = some port ∧ port.owner = id ∧ port.direction = .output :=
  inv.listed got mem

theorem mem_ports (has : net.port? key = some port) (owned : port.owner = id) :
    key ∈ proc.ports port.direction := by
  obtain ⟨too, gotToo, mem⟩ := inv.owned has
  rw [owned, got] at gotToo
  exact some.inj gotToo ▸ mem

theorem exists_in (ins : proc.inPorts = [key]) :
    ∃ port, net.port? key = some port ∧ port.owner = id ∧ port.direction = .input :=
  inv.listed_in got (by simp [ins])

theorem exists_out (outs : proc.outPorts = [key]) :
    ∃ port, net.port? key = some port ∧ port.owner = id ∧ port.direction = .output :=
  inv.listed_out got (by simp [outs])

end Consistent

theorem Consistent.process?_eq_none (inv : net.Consistent)
    (unused : ¬ net.names.taken.contains id) : net.process? id = none := by
  cases got : net.process? id with
  | none => rfl
  | some proc => exact absurd (inv.taken got) unused

namespace Evolves

theorem refl (inv : net.Consistent) : net.Evolves net where
  inv := inv
  grows := Nat.le_refl _
  stable _ has := ⟨_, has, rfl⟩
  keepsTaken taken := taken

theorem trans {last : Network} (first : net.Evolves next) (second : next.Evolves last) :
    net.Evolves last where
  inv := second.inv
  grows := Nat.le_trans first.grows second.grows
  stable old has := by
    obtain ⟨between, hasBetween, same⟩ := second.stable (Nat.lt_of_lt_of_le old first.grows) has
    obtain ⟨former, hasPre, samePre⟩ := first.stable old hasBetween
    exact ⟨former, hasPre, samePre.trans same⟩
  keepsTaken taken := second.keepsTaken (first.keepsTaken taken)

end Evolves

theorem Rewired.trans {last : Network} (first : net.Rewired next) (second : next.Rewired last) :
    net.Rewired last where
  evolves := first.evolves.trans second.evolves
  processes id := (second.processes id).trans (first.processes id)
  declared key := (second.declared key).trans (first.declared key)
  nextKey := second.nextKey.trans first.nextKey
  inputs := second.inputs.trans first.inputs
  outputs := second.outputs.trans first.outputs

namespace Linked

section

variable (linked : net.Linked) (has : net.port? key = some port)
  (leads : port.connection = some other)

include linked has leads

section

variable (hasPeer : net.port? other = some peer)

include hasPeer

theorem back : peer.connection = some key := by
  obtain ⟨too, hasToo, leadsBack, -⟩ := linked has leads
  rw [hasPeer] at hasToo
  exact some.inj hasToo ▸ leadsBack

theorem crosses (leaves : port.direction = .output) : peer.direction = .input := by
  obtain ⟨-, differs⟩ := of_found hasPeer (linked has leads)
  cases side : peer.direction with
  | input => rfl
  | output => exact absurd (side.trans leaves.symm) differs

theorem crosses_back (enters : port.direction = .input) : peer.direction = .output := by
  cases side : peer.direction with
  | input =>
    obtain ⟨-, differs⟩ := of_found hasPeer (linked has leads)
    exact absurd (side.trans enters.symm) differs
  | output => rfl

end

end

/-- Two ports that lead to the same one are the same. -/
theorem unique (linked : net.Linked) {first second : PortKey}
    (hasFirst : net.port? first = some port) (hasSecond : net.port? second = some peer)
    (leadsFirst : port.connection = some key) (leadsSecond : peer.connection = some key) :
    first = second := by
  obtain ⟨back, hasBack, leadsBack, -⟩ := linked hasFirst leadsFirst
  obtain ⟨leadsToo, -⟩ := of_found hasBack (linked hasSecond leadsSecond)
  rw [leadsBack] at leadsToo
  exact some.inj leadsToo

/-- A new connection between two free ports of opposite directions leads both ways like all
others. -/
theorem link (linked : net.Linked) (hasFirst : net.port? src = some first)
    (hasSecond : net.port? dst = some second) (leaves : first.direction = .output)
    (enters : second.direction = .input) (freeFirst : first.connection = none)
    (freeSecond : second.connection = none) :
    ((net.relink src (some dst)).relink dst (some src)).Linked := by
  intro key other port has conn
  simp only [port?_relink] at *
  have others := @linked key other
  grind

section

variable (linked : net.Linked) (has : net.port? key = some port)

include linked has

theorem port?_unlink (other : PortKey) :
    (net.unlink key).port? other =
      (net.port? other).map fun peer =>
        if other = key then peer.unlinked else peer.without [key] := by
  unfold unlink
  rw [has]
  cases hasOther : net.port? other with
  | none => cases conn : port.connection <;> simp [conn, port?_relink, hasOther]
  | some peer =>
    by_cases same : key = other
    · cases conn : port.connection <;>
        simp [conn, port?_relink, hasOther, same, Port.unlinked]
    cases conn : port.connection with
    | none =>
      have apart : peer.connection ≠ some key := fun leads => by
        obtain ⟨back, hasBack, leadsBack, -⟩ := linked hasOther leads
        simp_all
      simp [conn, port?_relink, hasOther, same, Ne.symm same, Port.without_eq_self, apart]
    | some far =>
      obtain ⟨back, hasBack, leadsBack, -⟩ := linked has conn
      by_cases atFar : far = other
      · subst atFar
        have leads : peer.connection = some key := by grind
        rw [map_some, Port.without_eq_unlinked (mem_singleton_self key) leads]
        simp [conn, port?_relink, hasOther, same, Port.unlinked]
      · have apart : peer.connection ≠ some key := fun leads =>
          atFar (linked.unique hasBack hasOther leadsBack leads)
        simp [conn, port?_relink, hasOther, same, Ne.symm same, atFar, Port.without_eq_self, apart]

theorem port?_unlink_self : (net.unlink key).port? key = some port.unlinked := by
  rw [linked.port?_unlink has, has, map_some, if_pos rfl]

theorem port?_unlink_peer (conn : port.connection = some other)
    (hasPeer : net.port? other = some peer) :
    (net.unlink key).port? other = some peer.unlinked := by
  obtain ⟨leadsBack, crosses⟩ := of_found hasPeer (linked has conn)
  have apart : other ≠ key := by
    rintro rfl
    rw [has] at hasPeer
    cases hasPeer
    exact crosses rfl
  rw [linked.port?_unlink has, hasPeer, map_some, if_neg apart,
    Port.without_eq_unlinked (mem_singleton_self key) leadsBack]

/-- Breaking a connection at both ends leaves no end behind. -/
theorem unlink : (net.unlink key).Linked := by
  intro place other left hasLeft conn
  rw [linked.port?_unlink has, map_eq_some_iff] at hasLeft
  obtain ⟨old, hasOld, rfl⟩ := hasLeft
  have apart : place ≠ key ∧ old.connection = some other ∧ other ≠ key := by
    by_cases same : place = key
    · simp [same] at conn
    · simp_all
  obtain ⟨notHere, leads, notThere⟩ := apart
  obtain ⟨peer, hasPeer, leadsBack, crosses⟩ := linked hasOld leads
  refine ⟨peer.without [key], by simp [linked.port?_unlink has, hasPeer, notThere], ?_, ?_⟩
  · simp [leadsBack, notHere]
  · rwa [if_neg notHere]

end

end Linked

namespace Consistent

theorem empty : ({} : Network).Consistent where
  listed got := by simp [process?] at got
  once got := by simp [process?] at got
  owned has := by simp [port?, Arena.get?] at has
  linked _ _ _ has := by simp [port?, Arena.get?] at has
  named has := by simp [port?, Arena.get?] at has
  boundary onBdry := by simp [isBoundary] at onBdry
  taken got := by simp [process?] at got

section

variable (inv : net.Consistent)

include inv

/-- A port on the list of a process is found, and belongs to that process. -/
theorem mem_allPorts (got : net.process? id = some proc) :
    key ∈ proc.allPorts ↔ ∃ port, net.port? key = some port ∧ port.owner = id := by
  constructor
  · intro mem
    obtain ⟨dir, mem⟩ := Process.mem_allPorts.mp mem
    obtain ⟨port, has, owner, -⟩ := inv.listed got mem
    exact ⟨port, has, owner⟩
  · rintro ⟨port, has, rfl⟩
    exact Process.mem_allPorts.mpr ⟨_, inv.mem_ports got has rfl⟩

theorem nodup_allPorts (got : net.process? id = some proc) : proc.allPorts.Nodup := by
  have onceInside : proc.inPorts.Nodup := @inv.once _ _ .input got
  have onceOutside : proc.outPorts.Nodup := @inv.once _ _ .output got
  refine nodup_append.mpr ⟨onceInside, onceOutside, ?_⟩
  rintro inside memInside outside memOutside rfl
  obtain ⟨port, has, -, enters⟩ := @inv.listed _ _ .input _ got memInside
  obtain ⟨too, hasToo, -, leaves⟩ := @inv.listed _ _ .output _ got memOutside
  simp_all

theorem relinked (procs : ∀ id, next.process? id = net.process? id)
    (ports : ∀ key, (next.port? key).map Port.unlinked = (net.port? key).map Port.unlinked)
    (inputs : next.inputs = net.inputs) (outs : next.outputs = net.outputs)
    (names : next.names = net.names) (nextKey : next.ports.nextKey = net.ports.nextKey)
    (linked : next.Linked) : net.Rewired next := by
  -- Ports are found under the same keys with the same declarations.
  have old {key port} (has : next.port? key = some port) := exists_of_declared (ports key).symm has
  have new {key port} (has : net.port? key = some port) := exists_of_declared (ports key) has
  refine ⟨⟨⟨?listed, ?once, ?owned, linked, ?named, ?boundary, ?taken⟩, Nat.le_of_eq nextKey.symm,
    fun _ has => old has, fun taken => names ▸ taken⟩, procs, ports, nextKey, inputs, outs⟩
  case listed =>
    intro id proc dir key got mem
    obtain ⟨port, has, owner, side⟩ := inv.listed (procs id ▸ got) mem
    obtain ⟨port, hasNew, same⟩ := new has
    obtain ⟨-, sameOwner, sameSide, -⟩ := Port.unlinked_eq.mp same
    exact ⟨port, hasNew, sameOwner.trans owner, sameSide.trans side⟩
  case once =>
    intro id proc dir got
    exact inv.once (procs id ▸ got)
  case owned =>
    intro key port has
    obtain ⟨pre, hasPre, same⟩ := old has
    obtain ⟨-, sameOwner, sameSide, -⟩ := Port.unlinked_eq.mp same
    obtain ⟨proc, got, mem⟩ := inv.owned hasPre
    exact ⟨proc, by rw [procs, ← sameOwner, got], sameSide ▸ mem⟩
  case named =>
    intro key other port peer has hasOther owner side name
    obtain ⟨pre, hasPre, same⟩ := old has
    obtain ⟨otherPre, hasOtherPre, sameOther⟩ := old hasOther
    rw [Port.unlinked_eq] at same sameOther
    exact inv.named hasPre hasOtherPre (by simp_all) (by simp_all) (by simp_all)
  case boundary =>
    intro key onBdry
    have pre : net.isBoundary key := by simpa [isBoundary, inputs, outs] using onBdry
    obtain ⟨port, has⟩ := isSome_iff_exists.mp (inv.boundary pre)
    obtain ⟨port, hasNew, -⟩ := new has
    simp [hasNew]
  case taken =>
    intro id proc got
    rw [names]
    exact inv.taken (procs id ▸ got)

/-- Connecting two free ports of opposite directions changes connections only. -/
theorem link (hasFirst : net.port? src = some first) (hasSecond : net.port? dst = some second)
    (leaves : first.direction = .output) (enters : second.direction = .input)
    (freeFirst : first.connection = none) (freeSecond : second.connection = none) :
    net.Rewired ((net.relink src (some dst)).relink dst (some src)) := by
  refine inv.relinked (fun _ => rfl) (fun key => ?_) rfl rfl rfl (by simp)
    (inv.linked.link hasFirst hasSecond leaves enters freeFirst freeSecond)
  simp only [port?_relink]
  cases net.port? key <;> split <;> split <;> rfl

theorem unlink (has : net.port? key = some port) : net.Rewired (net.unlink key) := by
  refine inv.relinked (fun _ => process?_unlink ..) (fun other => ?_) (by simp) (by simp)
    (by simp) (by simp)
    (inv.linked.unlink has)
  rw [inv.linked.port?_unlink has]
  cases net.port? other with
  | none => rfl
  | some peer => split <;> rfl

/-- Changing what a process does, where it is placed and how its ports are ordered keeps a network
consistent. -/
theorem setProcess {changed : Process} (got : net.process? id = some proc)
    (same : ∀ dir, (changed.ports dir).Perm (proc.ports dir)) :
    net.Evolves (net.setProcess id changed) := by
  have old {other new} (has : (net.setProcess id changed).process? other = some new) :
      ∃ old, net.process? other = some old ∧ ∀ dir, (new.ports dir).Perm (old.ports dir) := by
    rw [process?_setProcess] at has
    split at has
    · grind
    · exact ⟨new, has, fun _ => .refl _⟩
  refine ⟨⟨?listed, ?once, ?owned, inv.linked, inv.named, inv.boundary, ?taken⟩, Nat.le_refl _,
    fun _ has => ⟨_, has, rfl⟩, fun taken => taken⟩
  case listed =>
    intro other new dir key hasNew mem
    obtain ⟨pre, has, ports⟩ := old hasNew
    exact inv.listed has ((ports dir).mem_iff.mp mem)
  case once =>
    intro other new dir hasNew
    obtain ⟨pre, has, ports⟩ := old hasNew
    exact (ports dir).nodup_iff.mpr (inv.once has)
  case owned =>
    intro key port has
    by_cases here : id = port.owner
    · exact ⟨changed, by simp [process?_setProcess, here],
        (same _).mem_iff.mpr (inv.mem_ports got has here.symm)⟩
    · obtain ⟨owner, hasOwner, mem⟩ := inv.owned has
      exact ⟨owner, by simpa [process?_setProcess, here] using hasOwner, mem⟩
  case taken =>
    intro other new hasNew
    obtain ⟨pre, has, -⟩ := old hasNew
    exact inv.taken has

/-- A new process without ports keeps a network consistent. -/
theorem addProcess (absent : net.process? id = none) (kind : Kind Composite) (hier : Hierarchy) :
    net.Evolves
      { net.setProcess id { kind, hierarchy := hier } with names := net.names.reserve id } := by
  -- The new process is the only one that was not there before.
  have looked (other : ProcessId) :
      ({ net.setProcess id { kind, hierarchy := hier } with names := net.names.reserve id } :
        Network).process? other = if id =
        other then some { kind, hierarchy := hier } else net.process? other :=
    process?_setProcess ..
  have grows {other} (taken : net.names.taken.contains other) :
      (net.names.reserve id).taken.contains other := by
    simp [NameSupply.reserve, Std.TreeSet.contains_insert, taken]
  refine ⟨⟨?listed, ?once, ?owned, inv.linked, inv.named, inv.boundary, ?taken⟩, Nat.le_refl _,
    fun _ has => ⟨_, has, rfl⟩, grows⟩
  case listed =>
    intro other proc dir key got mem
    rw [looked] at got
    split at got
    · cases got
      cases dir <;> simp [Process.ports] at mem
    · exact inv.listed got mem
  case once =>
    intro other proc dir got
    rw [looked] at got
    split at got
    · cases got
      cases dir <;> exact nodup_nil
    · exact inv.once got
  case owned =>
    intro key port has
    obtain ⟨owner, hasOwner, mem⟩ := inv.owned has
    have elsewhere : id ≠ port.owner := by
      rintro rfl
      simp [absent] at hasOwner
    exact ⟨owner, by simpa [looked, elsewhere] using hasOwner, mem⟩
  case taken =>
    intro other proc got
    rw [looked] at got
    split at got
    · rename_i same
      simp [NameSupply.reserve, Std.TreeSet.contains_insert, same]
    · exact grows (inv.taken got)

theorem supply {names : NameSupply}
    (grows : ∀ {id}, net.names.taken.contains id → names.taken.contains id) :
    net.Evolves { net with names } :=
  ⟨⟨inv.listed, inv.once, inv.owned, inv.linked, inv.named, inv.boundary,
    fun has => grows (inv.taken has)⟩, Nat.le_refl _, fun _ has => ⟨_, has, rfl⟩, grows⟩

theorem setBoundary {inputs outs : List PortKey}
    (live : ∀ key ∈ inputs ++ outs, (net.port? key).isSome) :
    net.Evolves { net with inputs, outputs := outs } :=
  ⟨⟨inv.listed, inv.once, inv.owned, inv.linked, inv.named,
    fun onBdry => live _ (by simpa [isBoundary] using onBdry), inv.taken⟩, Nat.le_refl _,
    fun _ has => ⟨_, has, rfl⟩, fun taken => taken⟩

/-- A new port of a process, with a name that is new there, keeps a network consistent. -/
theorem addPort (got : net.process? port.owner = some proc) (free : port.connection = none)
    (fresh : ∀ key ∈ proc.ports port.direction, ∀ other, net.port? key = some other →
      other.name ≠ port.name) :
    net.Evolves
      ((net.pushPort port).setProcess port.owner
        (proc.addPort port.direction net.ports.nextKey)) := by
  -- The next key is not in use, so no list and no connection can lead to it.
  have unused {key other} (has : net.port? key = some other) : key ≠ net.ports.nextKey :=
    Nat.ne_of_lt (lt_nextKey has)
  have looked (key : PortKey) :
      ((net.pushPort port).setProcess port.owner
        (proc.addPort port.direction net.ports.nextKey)).port? key = if key =
        net.ports.nextKey then some port else net.port? key :=
    port?_pushPort ..
  refine ⟨⟨?listed, ?once, ?owned, ?linked, ?named, ?boundary, ?taken⟩,
    by simp, ?stable, fun taken => taken⟩
  case listed =>
    intro other has dir key hasProc mem
    rw [process?_setProcess] at hasProc
    split at hasProc
    · cases hasProc
      rw [Process.ports_addPort] at mem
      have pre := @inv.listed port.owner proc dir key got
      grind
    · have pre := @inv.listed other has dir key hasProc mem
      grind
  case once =>
    intro other has dir hasProc
    rw [process?_setProcess] at hasProc
    split at hasProc
    · cases hasProc
      rw [Process.ports_addPort]
      split
      · refine nodup_append.mpr ⟨inv.once got, by simp, ?_⟩
        intro mem member new isNew
        obtain ⟨port, hasPort, -⟩ := inv.listed got member
        rw [mem_singleton.mp isNew]
        exact unused hasPort
      · exact inv.once got
    · exact inv.once hasProc
  case owned =>
    intro key has hasPort
    rw [looked] at hasPort
    split at hasPort
    · rename_i new
      cases hasPort
      refine ⟨_, by rw [process?_setProcess, if_pos rfl], ?_⟩
      simp [Process.ports_addPort, new]
    · obtain ⟨owner, hasOwner, mem⟩ := inv.owned hasPort
      by_cases same : port.owner = has.owner
      · refine ⟨_, by rw [process?_setProcess, if_pos same], ?_⟩
        rw [Process.ports_addPort]
        grind
      · exact ⟨owner, by simpa [process?_setProcess, same] using hasOwner, mem⟩
  case linked =>
    intro key other has hasPort conn
    rw [looked] at hasPort
    split at hasPort
    · grind
    · have pre := inv.linked hasPort conn
      grind
  case named =>
    intro key other first second hasFirst hasSecond
    have pre := @inv.named key other first second
    have ownsFirst := @inv.owned key first
    have ownsSecond := @inv.owned other second
    grind
  case boundary =>
    intro key onBdry
    have pre : (net.port? key).isSome := inv.boundary onBdry
    rw [looked]
    split <;> simp_all
  case taken =>
    intro other has hasProc
    rw [process?_setProcess] at hasProc
    split at hasProc
    · rename_i here
      exact inv.taken (here ▸ got)
    · exact inv.taken hasProc
  case stable => grind

end

end Consistent

end Dataflow.Network
