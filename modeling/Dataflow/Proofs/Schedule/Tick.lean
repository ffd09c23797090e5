import Dataflow.Proofs.Schedule.Verified

/-! One tick: processes run in the order of a schedule, and the values they leave satisfy all their
equations at once. -/

open List

namespace Dataflow

universe u

variable {Value : Type u} {net : Network} {value after : PortKey → Value} {id : ProcessId}
  {key : PortKey} {order : List ProcessId}
  {process : Process}

/-- What processes do within a tick, and what they find at the start of it. -/
structure Reaction (Value : Type u) where
  /-- The value at the out-port at a position, made from the values at all in-ports. -/
  compute : ProcessId → List Value → Nat → Value
  /-- The value that a delay has stored. -/
  stored : ProcessId → Value
  /-- The value that the world supplies at an in-port without a connection. -/
  environment : PortKey → Value

namespace Reaction

/-- The value that is read at an in-port: what the other end of its connection carries now. -/
def read (reaction : Reaction Value) (net : Network) (value : PortKey → Value) (key : PortKey) :
    Value :=
  ((net.port? key).bind (·.connection)).elim (reaction.environment key) value

/-- The value that a process emits at the out-port at a position. -/
def emit (reaction : Reaction Value) (net : Network) (value : PortKey → Value) (id : ProcessId)
    (process : Process) (index : Nat) : Value :=
  if process.kind.isDelay then reaction.stored id
  else reaction.compute id (process.inPorts.map (reaction.read net value)) index

/-- The values after one process has run: its out-ports carry what it emits. -/
def fire (reaction : Reaction Value) (net : Network) (value : PortKey → Value) (id : ProcessId)
    (key : PortKey) : Value :=
  match net.process? id with
  | some process =>
    (process.outPorts.idxOf? key).elim (value key) (reaction.emit net value id process)
  | none => value key

/-- The values after processes have run one after the other. -/
def tick (reaction : Reaction Value) (net : Network) (order : List ProcessId)
    (value : PortKey → Value) : PortKey → Value :=
  order.foldl (reaction.fire net) value

/-- The equation of a process: its out-ports carry what it emits at these very values. -/
def Obeys (reaction : Reaction Value) (net : Network) (value : PortKey → Value) (id : ProcessId) :
    Prop :=
  ∀ ⦃process : Process⦄ ⦃index : Nat⦄ ⦃key : PortKey⦄, net.process? id = some process →
    process.outPorts[index]? = some key → value key = reaction.emit net value id process index

variable {reaction : Reaction Value}

theorem emit_congr
    (same : process.kind.isDelay = false →
      ∀ key ∈ process.inPorts, reaction.read net value key = reaction.read net after key)
    (idx : Nat) :
    reaction.emit net value id process idx = reaction.emit net after id process idx := by
  unfold emit
  cases delays : process.kind.isDelay with
  | true => rfl
  | false => rw [map_congr_left (same delays)]

theorem fire_of_notMem
    (foreign : ∀ process, net.process? id = some process → key ∉ process.outPorts) :
    reaction.fire net value id key = value key := by
  unfold fire
  cases got : net.process? id with
  | none => rfl
  | some process => simp [idxOf?_eq_none_iff.mpr (foreign process got)]

theorem fire_of_getElem? (inv : net.Consistent) {idx : Nat} (got : net.process? id = some process)
    (here : process.outPorts[idx]? = some key) :
    reaction.fire net value id key = reaction.emit net value id process idx := by
  obtain ⟨within, rfl⟩ := List.getElem?_eq_some_iff.mp here
  have pos : process.outPorts.idxOf? process.outPorts[idx] = some idx := by
    rw [idxOf?_eq_some_iff]
    exact ⟨within, by simp, fun earlier pre => by
      simp [(inv.nodup_outPorts got).getElem_inj_iff]; omega⟩
  simp [fire, got, pos]

theorem tick_of_notMem
    (foreign : ∀ id ∈ order, ∀ process, net.process? id = some process → key ∉ process.outPorts) :
    reaction.tick net order value key = value key := by
  induction order generalizing value with
  | nil => rfl
  | cons id order ih =>
    have first : reaction.fire net value id key = value key :=
      fire_of_notMem (foreign id mem_cons_self)
    rw [← first]
    exact ih fun other mem => foreign other (mem_cons_of_mem id mem)

theorem notMem_outPorts (inv : net.Consistent) {port : Port} (has : net.port? key = some port)
    (other : id ≠ port.owner) (process : Process) (got : net.process? id = some process) :
    key ∉ process.outPorts := by
  intro mem
  obtain ⟨owned, -⟩ := of_found has (inv.listed_out got mem)
  exact other owned.symm

theorem read_congr (inv : net.Consistent) (got : net.process? id = some process)
    (mem : key ∈ process.inPorts)
    (same : ∀ src old, net.Feeds src id → net.process? src = some old →
      ∀ other ∈ old.outPorts, value other = after other) :
    reaction.read net value key = reaction.read net after key := by
  obtain ⟨port, has, owned, enters⟩ := inv.listed_in got mem
  unfold read
  rw [has, Option.bind_some]
  cases conn : port.connection with
  | none => rfl
  | some other =>
    obtain ⟨peer, hasPeer, -⟩ := inv.linked has conn
    have leaves := inv.linked.crosses_back has conn hasPeer enters
    obtain ⟨old, gotOld, memThere⟩ := inv.owned hasPeer
    rw [leaves] at memThere
    have feeds := inv.feeds_of_input has enters conn hasPeer
    rw [owned] at feeds
    exact same peer.owner old feeds gotOld other memThere

end Reaction

namespace Schedule

variable {reaction : Reaction Value} {schedule : Schedule}

section

variable (inv : net.Consistent) (passes : (schedule.verify net).allPass)

include inv passes

theorem ordered_of_allPass :
    schedule.order.Nodup ∧ ∀ id ∈ schedule.order, ¬ net.isDelay id → ∀ src, net.Feeds src id →
      [src, id].Sublist schedule.order := by
  simp only [Certificate.allPass, Bool.and_eq_true] at passes
  obtain ⟨unique, ordered⟩ := passes
  simp only [verify, Bool.and_eq_true, all_eq_true, decide_eq_true_eq] at unique
  exact ⟨unique.2, (dependenciesOrdered_iff inv unique.2 unique.1).mp ordered⟩

theorem obeys_tick (mem : id ∈ schedule.order) :
    reaction.Obeys net (reaction.tick net schedule.order value) id := by
  obtain ⟨once, ordered⟩ := ordered_of_allPass inv passes
  -- The process runs once: some run before it, the others after it.
  obtain ⟨front, back, split⟩ := append_of_mem mem
  rw [split] at once ordered ⊢
  intro process idx key got here
  set pre := reaction.tick net front value with isPre
  have final : reaction.tick net (front ++ id :: back) value =
      reaction.tick net back (reaction.fire net pre id) := by
    simp [Reaction.tick, isPre]
  have unrepeated := (nodup_cons.mp (nodup_append.mp once).2.1).1
  have settled {other port} (has : net.port? other = some port) (past : port.owner ∉ back) :
      reaction.tick net (front ++ id :: back) value other = reaction.fire net pre id other := by
    rw [final]
    refine Reaction.tick_of_notMem fun new running => Reaction.notMem_outPorts inv has ?_
    rintro rfl
    exact past running
  obtain ⟨port, has, owned, -⟩ :=
    inv.listed got (show key ∈ process.ports .output from mem_of_getElem? here)
  rw [settled has (owned ▸ unrepeated), Reaction.fire_of_getElem? inv got here]
  refine Reaction.emit_congr (fun instant inKey memIn => ?_) idx
  refine Reaction.read_congr inv got memIn fun src old feeds gotOld other there => ?_
  have sublist := ordered id (by simp) (by simp [Network.isDelay, got, instant]) src feeds
  have placed : (front ++ id :: back)[front.length]? = some id := by simp
  obtain ⟨-, notToo⟩ := (before_iff_sublist once placed).mpr sublist
  rw [drop_left, mem_cons, not_or] at notToo
  obtain ⟨peer, hasPeer, ownedPeer, -⟩ := inv.listed_out gotOld there
  rw [settled hasPeer (ownedPeer ▸ notToo.2)]
  refine (Reaction.fire_of_notMem (Reaction.notMem_outPorts inv hasPeer ?_)).symm
  exact ownedPeer ▸ Ne.symm notToo.1

theorem eq_of_obeys (obeys : ∀ id ∈ schedule.order, reaction.Obeys net value id)
    (obeysToo : ∀ id ∈ schedule.order, reaction.Obeys net after id) (mem : id ∈ schedule.order)
    (got : net.process? id = some process) (there : key ∈ process.outPorts) :
    value key = after key := by
  obtain ⟨once, ordered⟩ := ordered_of_allPass inv passes
  induction pos : schedule.order.idxOf id using Nat.strong_induction_on
    generalizing id process key with
  | _ pos ih =>
    subst pos
    obtain ⟨idx, here⟩ := getElem?_of_mem there
    rw [obeys id mem got here, obeysToo id mem got here]
    refine Reaction.emit_congr (fun instant inKey memIn => ?_) idx
    refine Reaction.read_congr inv got memIn fun src old feeds gotOld other has => ?_
    have sublist := ordered id mem (by simp [Network.isDelay, got, instant]) src feeds
    have earlier := sublist.subset mem_cons_self
    exact ih _ (idxOf_lt_of_sublist once sublist) earlier gotOld has rfl

end

/--
A checked schedule computes the tick, whatever the ports carried before.

All scheduled processes obey their equations at once and no other port changes.
The values at their out-ports are the only ones that do so.
They depend neither on the values at the start nor on the order.
-/
theorem tick_obeys_and_unique (consistent : net.Consistent) (passes : (schedule.verify net).allPass)
    (reaction : Reaction Value) (leftover : PortKey → Value) :
    (∀ id ∈ schedule.order, reaction.Obeys net (reaction.tick net schedule.order leftover) id) ∧
    (∀ key,
      (∀ id ∈ schedule.order, ∀ process, net.process? id = some process → key ∉ process.outPorts) →
      reaction.tick net schedule.order leftover key = leftover key) ∧
    (∀ value, (∀ id ∈ schedule.order, reaction.Obeys net value id) →
      ∀ id ∈ schedule.order, ∀ process, net.process? id = some process → ∀ key ∈ process.outPorts,
        reaction.tick net schedule.order leftover key = value key) ∧
    (∀ other : Schedule, (other.verify net).allPass →
      (∀ id, id ∈ other.order ↔ id ∈ schedule.order) →
      ∀ start, ∀ id ∈ schedule.order, ∀ process, net.process? id = some process →
        ∀ key ∈ process.outPorts, reaction.tick net schedule.order leftover key =
          reaction.tick net other.order start key) := by
  have obeys : ∀ id ∈ schedule.order,
      reaction.Obeys net (reaction.tick net schedule.order leftover) id :=
    fun id listed => obeys_tick consistent passes listed
  refine ⟨obeys, fun key foreign => Reaction.tick_of_notMem foreign, ?_, ?_⟩
  · intro value obeysToo id listed process stored key there
    exact eq_of_obeys consistent passes obeys obeysToo listed stored there
  · -- The other order makes the same processes obey.
    intro other passesToo same start id listed process stored key there
    refine eq_of_obeys consistent passes obeys (fun running placed => ?_) listed stored there
    exact obeys_tick consistent passesToo ((same running).mpr placed)

/-- An input paired with a stored value; the pair is copied to an output and back into the store. -/
def feedback : Network :=
  Operation.build
    (Operation.addAll none [("enter", .fanout, ["in"], ["out"]),
        ("pair", .zip, ["first", "second"], ["out"]), ("copy", .fanout, ["in"], ["exit", "back"]),
        ("store", .delay "0", ["in"], ["out"])] ++
      [.connect 1 2, .connect 9 3, .connect 4 5, .connect 7 8, .addInput 0, .addOutput 6])

/-- The feedback through the store has two orders, and they leave the same value at the output. -/
theorem tick_obeys_and_unique_feedback :
    feedback.Consistent ∧ (verify ⟨["enter", "store", "pair", "copy"]⟩ feedback).allPass ∧
    (verify ⟨["store", "enter", "pair", "copy"]⟩ feedback).allPass ∧
    ∀ (reaction : Reaction Nat) (leftover start : PortKey → Nat),
      (∀ id ∈ ["enter", "store", "pair", "copy"],
        reaction.Obeys feedback
          (reaction.tick feedback ["enter", "store", "pair", "copy"] leftover) id) ∧
      reaction.tick feedback ["enter", "store", "pair", "copy"] leftover 6 =
        reaction.tick feedback ["store", "enter", "pair", "copy"] start 6 := by
  have consistent : feedback.Consistent :=
    (Network.Reachable.empty.foldl (by simp [Operation.Allowed])).inv
  have passes : (verify ⟨["enter", "store", "pair", "copy"]⟩ feedback).allPass := by decide +kernel
  have passesToo : (verify ⟨["store", "enter", "pair", "copy"]⟩ feedback).allPass := by
    decide +kernel
  have copies : feedback.process? "copy" = some ⟨.fanout, {}, [5], [6, 7]⟩ := by decide +kernel
  refine ⟨consistent, passes, passesToo, fun reaction leftover start => ?_⟩
  obtain ⟨obeys, -, -, same⟩ := tick_obeys_and_unique consistent passes reaction leftover
  exact ⟨obeys, same _ passesToo (fun id => (List.Perm.swap "enter" "store" _).mem_iff) start "copy"
    (by simp) _ copies 6 (by simp)⟩

end Schedule

end Dataflow
