import Dataflow.Proofs.Network.Reachable

/-!
Moving the outer ports of a region to other processes.

The ports move one by one, each to the next free key. A port that is moved later may be connected to
one that was moved before; in the end every connection is the one that a single renaming of all keys
makes of it.
-/

open List

namespace Dataflow

namespace PortKey

/-- The key that takes the place of another one when the listed ones move, in order, to the keys
from the given one on. -/
def relocate (base : PortKey) (keys : List PortKey) (key : PortKey) : PortKey :=
  if key ∈ keys then base + keys.idxOf key else key

variable {base key : PortKey} {front back : List PortKey}

theorem relocate_of_not_mem (other : key ∉ back) : relocate base back key = key :=
  if_neg other

theorem lt_relocate (mem : key ∈ front) :
    base ≤ relocate base front key ∧ relocate base front key < base + front.length := by
  rw [relocate, if_pos mem]
  exact ⟨Nat.le_add_right .., Nat.add_lt_add_left (idxOf_lt_length_of_mem mem) base⟩

theorem relocate_append (fresh : ∀ key ∈ back, key < base) :
    relocate base (front ++ back) key =
      relocate (base + front.length) back (relocate base front key) := by
  by_cases mem : key ∈ front
  · have new : relocate base front key ∉ back := fun inBack =>
      Nat.not_le_of_lt (fresh _ inBack) (lt_relocate mem).1
    rw [relocate_of_not_mem new, relocate, if_pos (mem_append_left _ mem), relocate, if_pos mem,
      idxOf_append_of_mem mem]
  · rw [relocate_of_not_mem mem, relocate, relocate, idxOf_append_of_notMem mem, Nat.add_assoc]
    simp [mem]

end PortKey

namespace Port

variable {port : Port} {change other : PortKey → PortKey}

theorem reroute_reroute : (port.reroute change).reroute other = port.reroute (other ∘ change) := by
  simp [reroute]

end Port

/-- The process with more ports in a direction. -/
def Process.addPorts (process : Process) : Direction → List PortKey → Process
  | .input, keys => { process with inPorts := process.inPorts ++ keys }
  | .output, keys => { process with outPorts := process.outPorts ++ keys }

namespace Network

variable {net next middle last : Network}
  {owner former oldStart oldStop newStart newStop : ProcessId} {direction : Direction}
  {key : PortKey} {keys : List PortKey} {process : Process} {port : Port}

/-- What is left when ports have moved to a process one after the other. -/
structure Relocated (net : Network) (owner : ProcessId) (direction : Direction)
    (keys : List PortKey) (next : Network) : Prop where
  evolves : net.Evolves next
  nextKey : next.ports.nextKey = net.ports.nextKey + keys.length
  processes : ∀ id, next.process? id =
    (net.process? id).map fun process =>
      if id = owner then process.addPorts direction (keys.map (.relocate net.ports.nextKey keys))
      else process
  moved : ∀ key ∈ keys, ∀ port, net.port? key = some port →
    next.port? key = some port.unlinked ∧
    next.port? (.relocate net.ports.nextKey keys key) =
      some { port.reroute (.relocate net.ports.nextKey keys) with owner }
  others : ∀ key ∉ keys, key < net.ports.nextKey →
    next.port? key = (net.port? key).map (Port.reroute (.relocate net.ports.nextKey keys))
  inputs : next.inputs = net.inputs.map (.relocate net.ports.nextKey keys)
  outputs : next.outputs = net.outputs.map (.relocate net.ports.nextKey keys)

theorem Relocated.nil (inv : net.Consistent) : net.Relocated owner direction [] net := by
  have same : PortKey.relocate net.ports.nextKey [] = id :=
    funext fun key => PortKey.relocate_of_not_mem not_mem_nil
  have kept : Port.reroute id = id := funext fun port => by simp [Port.reroute]
  refine ⟨.refl inv, rfl,
    fun id => ?_, by simp, by simp [same, kept], by simp [same], by simp [same]⟩
  have bare (process : Process) : process.addPorts direction [] = process := by
    cases direction <;> simp [Process.addPorts]
  simp [bare]

theorem Moved.relocated (moved : net.Moved owner process direction key port middle)
    (inv : net.Consistent) (evo : net.Evolves middle) (got : net.process? owner = some process)
    (has : net.port? key = some port) (relocated : middle.Relocated owner direction keys next)
    (once : key ∉ keys) (live : net.Live keys) :
    net.Relocated owner direction (key :: keys) next := by
  have old {other} (mem : other ∈ keys) : other < net.ports.nextKey := by
    obtain ⟨port, has⟩ := Option.isSome_iff_exists.mp (live other mem)
    exact lt_nextKey has
  have new : net.ports.nextKey ∉ keys := fun mem => Nat.lt_irrefl _ (old mem)
  -- The renaming of all keys is that of the first one and then that of the others.
  have both (other : PortKey) : PortKey.relocate net.ports.nextKey (key :: keys) other =
      PortKey.relocate middle.ports.nextKey keys
      (PortKey.exchange key net.ports.nextKey other) := by
    have single : PortKey.relocate net.ports.nextKey [key] other =
        PortKey.exchange key net.ports.nextKey other := by
      by_cases same : other = key <;> simp [PortKey.relocate, PortKey.exchange, same]
    rw [← singleton_append, PortKey.relocate_append fun _ mem => old mem, single, moved.nextKey,
      length_singleton]
  have joined : PortKey.relocate middle.ports.nextKey keys ∘ PortKey.exchange key
      net.ports.nextKey = PortKey.relocate net.ports.nextKey (key :: keys) :=
      funext fun other => (both other).symm
  have notSelf : port.connection ≠ some key := fun leads => by
    obtain ⟨-, crosses⟩ := of_found has (inv.linked has leads)
    exact crosses rfl
  have first : PortKey.relocate net.ports.nextKey (key :: keys) key = net.ports.nextKey := by
    simp [PortKey.relocate]
  have rest {other} (mem : other ∈ keys) : PortKey.relocate net.ports.nextKey (key :: keys) other =
      PortKey.relocate middle.ports.nextKey keys other := by
    have apart : other ≠ key := fun same => once (same ▸ mem)
    rw [both, PortKey.exchange, if_neg apart]
  have below {other} (less : other ≤ net.ports.nextKey) : other < middle.ports.nextKey := by
    rw [moved.nextKey]
    exact Nat.lt_succ_of_le less
  refine ⟨evo.trans relocated.evolves, ?_, fun id => ?_,
    forall_mem_cons.mpr ⟨?_, fun other mem peer hasPeer => ?_⟩, fun other notMem less => ?_, ?_, ?_⟩
  · rw [relocated.nextKey, moved.nextKey, length_cons, Nat.add_assoc, Nat.add_comm 1]
  · rw [relocated.processes, moved.processes, map_cons, first,
      map_congr_left fun other mem => rest mem]
    by_cases here : id = owner
    · cases direction <;> simp [here, got, Process.addPort, Process.addPorts]
    · simp [here]
  · rintro too hasToo
    obtain rfl := Option.mem_unique has hasToo
    have less := lt_nextKey has
    rw [relocated.others key once (below (Nat.le_of_lt less)), moved.ports,
      if_neg (Nat.ne_of_lt less), if_pos rfl, first, relocated.others _ new (below (Nat.le_refl _)),
      moved.ports, if_pos rfl]
    refine ⟨rfl, congrArg some ?_⟩
    rw [← joined, ← Port.reroute_reroute]
    have kept : port.reroute (PortKey.exchange key net.ports.nextKey) = port :=
      Port.exchange_eq_self notSelf
    rw [kept]
    rfl
  · have less := old mem
    have apart : other ≠ key := fun same => once (same ▸ mem)
    have between : middle.port? other =
        some (peer.reroute (PortKey.exchange key net.ports.nextKey)) := by
      rw [moved.ports, if_neg (Nat.ne_of_lt less), if_neg apart, hasPeer]
      rfl
    obtain ⟨bare, placed⟩ := relocated.moved other mem _ between
    rw [Port.reroute_reroute, joined] at placed
    exact ⟨bare, (rest mem).symm ▸ placed⟩
  · simp only [mem_cons, not_or] at notMem
    rw [relocated.others other notMem.2 (below (Nat.le_of_lt less)), moved.ports,
      if_neg (Nat.ne_of_lt less), if_neg notMem.1, Option.map_map, Port.exchange]
    refine Option.map_congr fun peer _ => ?_
    rw [Function.comp_apply, Port.reroute_reroute, joined]
  · rw [relocated.inputs, moved.inputs, map_map, joined]
  · rw [relocated.outputs, moved.outputs, map_map, joined]

theorem Consistent.run_movePorts (inv : net.Consistent) (got : net.process? owner = some process)
    (apart : former ≠ owner) (once : keys.Nodup)
    (owned : ∀ key ∈ keys, ∃ port, net.port? key = some port ∧ port.owner = former ∧
      port.direction = direction)
    (unnamed : ∀ other ∈ process.ports direction, ∀ peer, net.port? other = some peer →
      ∀ key ∈ keys, ∀ port, net.port? key = some port → peer.name ≠ port.name) :
    ∃ next, (keys.forM (Edit.movePort owner direction)).run net = .ok .unit next ∧
      net.Relocated owner direction keys next := by
  induction keys generalizing net process with
  | nil => exact ⟨net, rfl, .nil inv⟩
  | cons key keys ih =>
    obtain ⟨port, has, isOwner, side⟩ := owned key mem_cons_self
    obtain ⟨first, onceRest⟩ := nodup_cons.mp once
    obtain ⟨middle, moves, moved⟩ := run_movePort inv got
      (fun other mem peer hasPeer => unnamed other mem peer hasPeer key mem_cons_self port has) has
        side
    have evo := (inv.referable.keeps_movePort owner False.elim).evolves moves
    have gotMid : middle.process? owner = some (process.addPort direction net.ports.nextKey) := by
      rw [moved.processes, if_pos rfl]
    -- A port other than the one that moves keeps its declaration.
    have kept {other peer} (hasPeer : net.port? other = some peer) (differs : other ≠ key) :
        middle.port? other = some (peer.exchange key net.ports.nextKey) := by
      rw [moved.ports, if_neg (Nat.ne_of_lt (lt_nextKey hasPeer)), if_neg differs, hasPeer]
      rfl
    have new {other} (mem : other ∈ keys) : other ≠ key ∧ ∃ peer, net.port? other = some peer ∧
        peer.owner = former ∧ peer.direction = direction ∧
        middle.port? other = some (peer.exchange key net.ports.nextKey) := by
      have differs : other ≠ key := fun same => first (same ▸ mem)
      obtain ⟨peer, hasPeer, facts⟩ := owned other (mem_cons_of_mem _ mem)
      exact ⟨differs, peer, hasPeer, facts.1, facts.2, kept hasPeer differs⟩
    obtain ⟨next, movesOn, relocated⟩ := ih evo.inv gotMid onceRest (fun other mem => by
      obtain ⟨-, peer, -, isFormer, faces, hasNew⟩ := new mem
      exact ⟨_, hasNew, isFormer, faces⟩)
      fun other mem peer hasPeer third memThird too hasThird => by
      obtain ⟨differs, third', hasPre, isFormer, faces, hasNew⟩ := new memThird
      obtain rfl := Option.mem_unique hasThird hasNew
      rw [Process.ports_addPort, if_pos rfl, mem_append, mem_singleton] at mem
      rcases mem with pre | rfl
      · obtain ⟨old, hasOld, isOld, -⟩ := inv.listed got pre
        have stays : other ≠ key := by
          rintro rfl
          obtain rfl := Option.mem_unique has hasOld
          exact apart (isOwner.symm.trans isOld)
        obtain rfl := Option.mem_unique hasPeer (kept hasOld stays)
        exact unnamed other pre old hasOld third (mem_cons_of_mem _ memThird) third' hasPre
      · rw [moved.ports, if_pos rfl] at hasPeer
        cases hasPeer
        exact fun same =>
          differs
          (inv.named hasPre has (isFormer.trans isOwner.symm) (faces.trans side.symm) same.symm)
    refine ⟨next, ?_, moved.relocated inv evo got has relocated first fun other mem => ?_⟩
    · show (Edit.movePort owner direction key >>= fun _ =>
        keys.forM (Edit.movePort owner direction) : Edit PUnit).run net = _
      rw [EStateM.run_bind, moves]
      exact movesOn
    · obtain ⟨-, peer, hasPeer, -⟩ := new mem
      simp [hasPeer]

/-- What is left when the outer ports of a region have moved to other processes. -/
structure Rehomed (net : Network) (newStart newStop : ProcessId) (ins outs : List PortKey)
    (next : Network) : Prop where
  /-- The new start has the in-ports under their new keys, and the new stop the out-ports; processes
  stay the same otherwise. -/
  processes : ∀ id, next.process? id = (net.process? id).map fun process =>
    { process with
      inPorts :=
        if id = newStart then ins.map (.relocate net.ports.nextKey (ins ++ outs))
        else process.inPorts
      outPorts :=
        if id = newStop then outs.map (.relocate net.ports.nextKey (ins ++ outs))
        else process.outPorts }
  /-- A port that has moved is left without its connection. -/
  left : ∀ key ∈ ins ++ outs, next.port? key = (net.port? key).map Port.unlinked
  /-- The new port has its name and type, and its connection leads to where its other end has moved
  to. -/
  entries : ∀ key ∈ ins, next.port? (.relocate net.ports.nextKey (ins ++ outs) key) =
    (net.port? key).map fun port =>
      { port.reroute (.relocate net.ports.nextKey (ins ++ outs)) with owner := newStart }
  exits : ∀ key ∈ outs, next.port? (.relocate net.ports.nextKey (ins ++ outs) key) =
    (net.port? key).map fun port =>
      { port.reroute (.relocate net.ports.nextKey (ins ++ outs)) with owner := newStop }
  /-- Every other port stays, and its connection leads to where its other end has moved to. -/
  others : ∀ key ∉ ins ++ outs, key < net.ports.nextKey →
    next.port? key = (net.port? key).map (Port.reroute (.relocate net.ports.nextKey (ins ++ outs)))
  inputs : next.inputs = net.inputs.map (.relocate net.ports.nextKey (ins ++ outs))
  outputs : next.outputs = net.outputs.map (.relocate net.ports.nextKey (ins ++ outs))

theorem Relocated.rehomed {ins outs : List PortKey}
    (entered : net.Relocated newStart .input ins middle)
    (left : middle.Relocated newStop .output outs last) (apart : ∀ key ∈ ins, key ∉ outs)
    (live : net.Live (ins ++ outs))
    (noIns : ∀ process, net.process? newStart = some process → process.inPorts = [])
    (noOuts : ∀ process, net.process? newStop = some process → process.outPorts = []) :
    net.Rehomed newStart newStop ins outs last := by
  have has {key} (mem : key ∈ ins ++ outs) : ∃ port, net.port? key = some port :=
    Option.isSome_iff_exists.mp (live key mem)
  have old {key} (mem : key ∈ ins ++ outs) : key < net.ports.nextKey := by
    obtain ⟨port, isPort⟩ := has mem
    exact lt_nextKey isPort
  have both (key : PortKey) : PortKey.relocate net.ports.nextKey (ins ++ outs) key =
      PortKey.relocate middle.ports.nextKey outs (PortKey.relocate net.ports.nextKey ins key) := by
    rw [entered.nextKey, PortKey.relocate_append fun key mem => old (mem_append_right _ mem)]
  have joined : PortKey.relocate middle.ports.nextKey outs ∘ PortKey.relocate net.ports.nextKey
      ins = PortKey.relocate net.ports.nextKey (ins ++ outs) := funext fun key => (both key).symm
  have below {key} (less : key < net.ports.nextKey) : key < middle.ports.nextKey := by
    rw [entered.nextKey]
    exact Nat.lt_add_right _ less
  -- A new in-port is none of the out-ports that are still to move.
  have new {key} (mem : key ∈ ins) : PortKey.relocate net.ports.nextKey ins key ∉ outs :=
      fun inOuts => Nat.not_le_of_lt (old (mem_append_right _ inOuts)) (PortKey.lt_relocate mem).1
  have ofIns {key} (mem : key ∈ ins) : PortKey.relocate net.ports.nextKey (ins ++ outs) key =
      PortKey.relocate net.ports.nextKey ins key := by
    rw [both, PortKey.relocate_of_not_mem (new mem)]
  have ofOuts {key} (mem : key ∈ outs) : key ∉ ins ∧
      PortKey.relocate net.ports.nextKey (ins ++ outs) key =
      PortKey.relocate middle.ports.nextKey outs key := by
    have notIns : key ∉ ins := fun inIns => apart key inIns mem
    exact ⟨notIns, by rw [both, PortKey.relocate_of_not_mem notIns]⟩
  refine ⟨fun id => ?_, fun key mem => ?_, fun key mem => ?_, fun key mem => ?_,
    fun key notMem less => ?_, ?_, ?_⟩
  · rw [left.processes, entered.processes, Option.map_map, map_congr_left fun key mem => ofIns mem,
      map_congr_left fun key mem => (ofOuts mem).2]
    refine Option.map_congr fun process got => ?_
    by_cases isStart : id = newStart <;> by_cases isStop : id = newStop
    · subst isStart
      simp [← isStop, Process.addPorts, noIns process got, noOuts process (isStop ▸ got)]
    · simp [isStart, isStart ▸ isStop, Process.addPorts, noIns process (isStart ▸ got)]
    · simp [isStop, isStop ▸ isStart, Process.addPorts, noOuts process (isStop ▸ got)]
    · simp [isStart, isStop]
  · obtain ⟨port, isPort⟩ := has mem
    rw [isPort]
    rcases mem_append.mp mem with inIns | inOuts
    · rw [left.others key (apart key inIns) (below (old mem)),
        (entered.moved key inIns port isPort).1]
      rfl
    · have between := entered.others key (ofOuts inOuts).1 (old mem)
      rw [isPort] at between
      exact (left.moved key inOuts _ between).1
  · obtain ⟨port, isPort⟩ := has (mem_append_left outs mem)
    have within : PortKey.relocate net.ports.nextKey ins key < middle.ports.nextKey := by
      rw [entered.nextKey]
      exact (PortKey.lt_relocate mem).2
    rw [isPort, ofIns mem, left.others _ (new mem) within, (entered.moved key mem port isPort).2,
      ← joined, Option.map_some, Option.map_some, ← Port.reroute_reroute]
    rfl
  · obtain ⟨port, isPort⟩ := has (mem_append_right ins mem)
    have between := entered.others key (ofOuts mem).1 (old (mem_append_right _ mem))
    rw [isPort] at between
    rw [isPort, (ofOuts mem).2, (left.moved key mem _ between).2, Port.reroute_reroute, joined]
    rfl
  · simp only [mem_append, not_or] at notMem
    rw [left.others key notMem.2 (below less), entered.others key notMem.1 less, Option.map_map]
    refine Option.map_congr fun port _ => ?_
    rw [Function.comp_apply, Port.reroute_reroute, joined]
  · rw [left.inputs, entered.inputs, map_map, joined]
  · rw [left.outputs, entered.outputs, map_map, joined]

/--
The outer ports of a region move to processes without ports, together with their connections and
places on the boundary.

The start and the stop of the region may be the same, and so may the processes that take their
ports. The new ports come in the order of the old ones under new keys; every connection and every
place on the boundary is renamed from the old keys to the new ones at each end, also where both ends
have moved.
-/
theorem WellFormed.redirect_rehomes (wellFormed : net.WellFormed) {front back first final : Process}
    (start : net.process? oldStart = some front) (stop : net.process? oldStop = some back)
    (storedStart : net.process? newStart = some first)
    (storedStop : net.process? newStop = some final) (bareStart : first.allPorts = [])
    (bareStop : final.allPorts = []) (apartStart : oldStart ≠ newStart ∧ oldStop ≠ newStart)
    (apartStop : oldStart ≠ newStop ∧ oldStop ≠ newStop) :
    ∃ next, (Edit.redirect oldStart oldStop newStart newStop).run net = .ok () next ∧
      net.Rehomed newStart newStop front.inPorts back.outPorts next := by
  have consistent := wellFormed.toConsistent
  obtain ⟨noIns, -⟩ := append_eq_nil_iff.mp bareStart
  obtain ⟨-, noOuts⟩ := append_eq_nil_iff.mp bareStop
  have once (direction : Direction) {id : ProcessId} {process : Process}
      (stored : net.process? id = some process) :
      (process.ports direction).Nodup := consistent.once stored
  -- First the in-ports move.
  obtain ⟨middle, moves, entered⟩ :=
    consistent.run_movePorts storedStart apartStart.1 (once .input start)
      (fun key listed => consistent.listed start listed) (by simp [Process.ports, noIns])
  have storedMiddle (id : ProcessId) := entered.processes id
  have stays : middle.process? oldStop = some back := by simp [storedMiddle, stop, apartStart.2]
  obtain ⟨later, storedLater, noMore⟩ : ∃ later, middle.process? newStop = some later ∧
      later.outPorts = [] := by
    rw [storedMiddle, storedStop]
    refine ⟨_, rfl, ?_⟩
    split <;> simp [Process.addPorts, noOuts]
  -- Then the out-ports move, which belong to the stop as before.
  obtain ⟨next, movesOn, left⟩ := entered.evolves.inv.run_movePorts storedLater apartStop.2
    (once .output stop) (fun key listed => entered.evolves.inv.listed stays listed)
      (by simp [Process.ports, noMore])
  have apart : ∀ key ∈ front.inPorts, key ∉ back.outPorts := fun key listed listedOut => by
    obtain ⟨port, found, -, enters⟩ := consistent.listed_in start listed
    obtain ⟨-, leaves⟩ := of_found found (consistent.listed_out stop listedOut)
    cases enters.symm.trans leaves
  have live : net.Live (front.inPorts ++ back.outPorts) := fun key listed => by
    rcases mem_append.mp listed with listed | listed
    · obtain ⟨port, found, -⟩ := consistent.listed_in start listed
      simp [found]
    · obtain ⟨port, found, -⟩ := consistent.listed_out stop listed
      simp [found]
  refine ⟨next, ?_, entered.rehomed left apart live (fun process stored => ?_)
    fun process stored => ?_⟩
  · have movesIn : (front.inPorts.forM (Edit.movePort newStart .input)).run net =
      .ok .unit middle := moves
    have movesOut : (back.outPorts.forM (Edit.movePort newStop .output)).run middle =
      .ok .unit next := movesOn
    simp only [Edit.redirect, EStateM.run_bind, EStateM.run_get, process_eq_ok.mpr start,
      Edit.run_answer, movesIn, process_eq_ok.mpr stays, movesOut]
  · exact Option.mem_unique storedStart stored ▸ noIns
  · exact Option.mem_unique storedStop stored ▸ noOuts

/-- A process that feeds itself at one of its two in-ports, and one without ports. -/
def selfFeeding : Network :=
  Operation.build
    (Operation.addAll none [("a", .zip, ["in", "back"], ["out"]), ("b", .zip, [], [])] ++
      [.connect 2 1, .addInput 0, .addOutput 2])

/-- All ports of the process move, and its connection to itself becomes one of the new process to
itself. -/
theorem redirect_rehomes_selfFeeding :
    selfFeeding.WellFormed ∧ selfFeeding.process? "a" = some ⟨.zip, {}, [0, 1], [2]⟩ ∧
    selfFeeding.process? "b" = some ⟨.zip, {}, [], []⟩ ∧
    ∃ next, (Edit.redirect "a" "a" "b" "b").run selfFeeding = .ok () next ∧
      selfFeeding.Rehomed "b" "b" [0, 1] [2] next ∧
      (next.port? 5).bind (·.connection) = some 4 := by
  have reachable : selfFeeding.Reachable := Reachable.empty.foldl (by simp [Operation.Allowed])
  have wellFormed : selfFeeding.WellFormed := ⟨reachable.inv, by decide +kernel⟩
  have old : selfFeeding.process? "a" = some ⟨.zip, {}, [0, 1], [2]⟩ := by decide +kernel
  have new : selfFeeding.process? "b" = some ⟨.zip, {}, [], []⟩ := by decide +kernel
  obtain ⟨next, runs, rehomed⟩ :=
    WellFormed.redirect_rehomes wellFormed old old new new rfl rfl (by decide) (by decide)
  refine ⟨wellFormed, old, new, next, runs, rehomed, ?_⟩
  have exit := rehomed.exits 2 (by simp)
  rw [show selfFeeding.ports.nextKey = 3 by
    decide +kernel, show PortKey.relocate 3 ([0, 1] ++ [2]) 2 = 5 by decide] at exit
  rw [exit, show selfFeeding.port? 2 = some ⟨"out", "a", .output, none, some 1⟩ by decide +kernel]
  decide

end Network

end Dataflow
