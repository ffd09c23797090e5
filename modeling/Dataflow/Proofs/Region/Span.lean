import Dataflow.Proofs.Network.Reachable
import Dataflow.Proofs.Region.Rework
import Dataflow.Proofs.Schedule.Plan

/-! The processes of a region: what is reached from its start without going past its stop, and the
other way round. -/

open List

namespace Dataflow.Network

open Relation

variable {net : Network} {id src dst start stop : ProcessId} {dir : Direction}
  {reg inner outer : Section}

/-- A process is reached from another one in one direction without going past the target. -/
def Reaches (net : Network) (direction : Direction) (target : ProcessId) :
    ProcessId → ProcessId → Prop :=
  ReflTransGen fun near far => near ≠ target ∧ far ∈ net.across near direction

/-- The process is reached from the start of a region without going past its stop. -/
def Spans (net : Network) (region : Section) (id : ProcessId) : Prop :=
  net.Reaches .output region.stop region.start id

/-- The stop of a region is reached from the process, and the start is not passed on the way. -/
def Draws (net : Network) (region : Section) (id : ProcessId) : Prop :=
  net.Reaches .input region.start region.stop id

/-- All processes of one region belong to the other. -/
def LiesIn (net : Network) (inner outer : Section) : Prop :=
  ∀ id, net.Spans inner id → net.Spans outer id

/-- An unzip and a zip that leads to an output, with a contained region between them. -/
structure Encloses (net : Network) (region : Section) : Prop where
  starts : net.isUnzip region.start
  stops : net.isZip region.stop
  leads : net.ReachesOutput region.stop
  contained : net.isContained region = .ok true

theorem mem_ids_of_any {shape : Process → Bool} (shaped : (net.process? id).any shape) :
    id ∈ net.ids := by
  obtain ⟨proc, got, -⟩ := (Option.any_eq_true _ _).mp shaped
  exact mem_ids.mpr ⟨proc, got⟩

theorem Consistent.isContained_eq_true (inv : net.Consistent) (starts : net.isUnzip reg.start)
    (stops : net.isZip reg.stop) : net.isContained reg = .ok true ↔ net.Contained reg := by
  obtain ⟨contained, asked, right⟩ :=
    inv.isContained_eq reg (mem_ids_of_any starts) (mem_ids_of_any stops)
  rw [asked, ← right, Except.ok.injEq]

theorem Encloses.confined (encloses : net.Encloses reg) (inv : net.Consistent) :
    net.Contained reg :=
  (inv.isContained_eq_true encloses.starts encloses.stops).mp encloses.contained

/-- What is reached from the start is what the stop is reached from, and it does not lead back to
the start. -/
structure Tight (net : Network) (region : Section) : Prop where
  spans_iff : ∀ id, net.Spans region id ↔ net.Draws region id
  /-- What feeds the start lies outside. -/
  fresh : ∀ {id}, net.Feeds id region.start → ¬ net.Spans region id

theorem Confined.leadsInto (confined : net.Confined start dst dir)
    (reaches : net.Reaches dir dst start id) (elsewhere : id ≠ dst) :
    net.LeadsInto dir (net.Reaches dir dst start) id := by
  obtain ⟨set, closed, starts⟩ := confined
  have inside : set id := by
    induction reaches with
    | refl => exact starts
    | tail _ step ih => exact (closed _ (ih step.1) step.1).of_mem_across step.2
  obtain ⟨proc, got, ports, onwards⟩ := closed id inside elsewhere
  refine ⟨proc, got, ports, fun key mem => ?_⟩
  obtain ⟨next, leads, -⟩ := onwards key mem
  refine ⟨next, leads, reaches.tail ⟨elsewhere, (mem_across_of_stored got).mpr ⟨key, mem, leads⟩⟩⟩

/-- A process has ports in one direction, and all of them are connected. -/
def Joined (net : Network) (direction : Direction) (id : ProcessId) : Prop :=
  ∃ process, net.process? id = some process ∧ process.ports direction ≠ [] ∧
    ∀ key ∈ process.ports direction, ∃ port, net.port? key = some port ∧ port.connection ≠ none

theorem Consistent.confined_iff (inv : net.Consistent) : net.Confined start dst dir ↔
    ∀ id, net.Reaches dir dst start id → id ≠ dst → net.Joined dir id := by
  constructor
  · intro confined id reaches elsewhere
    obtain ⟨proc, got, ports, onwards⟩ := confined.leadsInto reaches elsewhere
    refine ⟨proc, got, ports, fun key mem => ?_⟩
    obtain ⟨next, leads, -⟩ := onwards key mem
    obtain ⟨port, other, -, has, conn, -⟩ := remote_eq_some.mp leads
    exact ⟨port, has, by simp [conn]⟩
  · intro joined
    refine ⟨net.Reaches dir dst start, fun id reaches elsewhere => ?_, .refl⟩
    obtain ⟨proc, got, ports, connects⟩ := joined id reaches elsewhere
    refine ⟨proc, got, ports, fun key mem => ?_⟩
    obtain ⟨port, has, leads⟩ := connects key mem
    obtain ⟨other, conn⟩ := Option.ne_none_iff_exists'.mp leads
    obtain ⟨peer, hasPeer, -⟩ := inv.linked has conn
    have leads := remote_eq_some.mpr ⟨port, other, peer, has, conn, hasPeer, rfl⟩
    refine ⟨peer.owner, leads,
      reaches.tail ⟨elsewhere, (mem_across_of_stored got).mpr ⟨key, mem, leads⟩⟩⟩

/-- Whether a region is contained can always be asked. It is just if all processes that are reached
from its start, without going past its stop, have out-ports, all of them connected, and all
processes from which its stop is reached, without going past its start, have in-ports, all of them
connected. Loops on the way do not matter. -/
theorem WellFormed.isContained_iff (wellFormed : net.WellFormed) (starts : start ∈ net.ids)
    (stops : stop ∈ net.ids) :
    (∃ answer, net.isContained ⟨start, stop⟩ = .ok answer) ∧
    (net.isContained ⟨start, stop⟩ = .ok true ↔
      (∀ id, net.Reaches .output stop start id → id ≠ stop → net.Joined .output id) ∧
      ∀ id, net.Reaches .input start stop id → id ≠ start → net.Joined .input id) := by
  -- The walk answers whether the region is confined on both sides, where every way stays joined.
  have sound := wellFormed.toConsistent
  obtain ⟨answer, asked, right⟩ := sound.isContained_eq ⟨start, stop⟩ starts stops
  refine ⟨⟨answer, asked⟩, ?_⟩
  rw [← sound.confined_iff, ← sound.confined_iff, asked, Except.ok.injEq]
  exact right

/-- A region between an unzip and a zip in which a copier feeds, past a delay, the zip in front of
it. -/
def looped : Network :=
  Operation.build
    (Operation.addAll none [("U", .unzip, ["in"], ["out"]), ("z", .zip, ["in0", "in1"], ["out"]),
        ("c", .fanout, ["in"], ["out0", "out1"]), ("d", .delay "0", ["in"], ["out"]),
        ("Z", .zip, ["in"], ["out"])] ++
      [.connect 1 2, .connect 4 5, .connect 6 8, .connect 9 3, .connect 7 10, .addInput 0,
        .addOutput 11])

/-- The region with the loop is contained, so all processes on the way are joined. It is not if it
starts at the delay, since then the unzip, whose in-port leads nowhere, is on a way back from its
stop. -/
theorem isContained_iff_looped :
    looped.WellFormed ∧ looped.isContained ⟨"U", "Z"⟩ = .ok true ∧
    looped.isContained ⟨"d", "Z"⟩ = .ok false ∧
    (∀ id, looped.Reaches .output "Z" "U" id → id ≠ "Z" → looped.Joined .output id) ∧
    (∀ id, looped.Reaches .input "U" "Z" id → id ≠ "U" → looped.Joined .input id) ∧
    ¬ ((∀ id, looped.Reaches .output "Z" "d" id → id ≠ "Z" → looped.Joined .output id) ∧
      ∀ id, looped.Reaches .input "d" "Z" id → id ≠ "d" → looped.Joined .input id) := by
  have wellFormed : looped.WellFormed :=
    ⟨(Reachable.empty.foldl (by simp [Operation.Allowed])).inv, by decide +kernel⟩
  have closed : looped.isContained ⟨"U", "Z"⟩ = .ok true := by decide +kernel
  have stored : "U" ∈ looped.ids ∧ "d" ∈ looped.ids ∧ "Z" ∈ looped.ids := by decide +kernel
  obtain ⟨forth, back⟩ := (wellFormed.isContained_iff stored.1 stored.2.2).2.mp closed
  have leaks : looped.isContained ⟨"d", "Z"⟩ = .ok false := by decide +kernel
  refine ⟨wellFormed, closed, leaks, forth, back, fun joined => ?_⟩
  have contained := (wellFormed.isContained_iff stored.2.1 stored.2.2).2.mpr joined
  simp [leaks] at contained

theorem Consistent.mem_across_opposite (inv : net.Consistent) :
    src ∈ net.across dst dir.opposite ↔ dst ∈ net.across src dir := by
  cases dir with
  | input => exact inv.mem_across_output.trans inv.mem_across_input.symm
  | output => exact inv.mem_across_input.trans inv.mem_across_output.symm

theorem LeadsInto.connection_ne_none {inner : ProcessId → Prop} (leads : net.LeadsInto dir inner id)
    (inv : net.Consistent) {key : PortKey} {port : Port} (has : net.port? key = some port)
    (owned : port.owner = id) (facing : port.direction = dir) : port.connection ≠ none := by
  obtain ⟨proc, got, -, onwards⟩ := leads
  obtain ⟨next, leadsTo, -⟩ := onwards key (facing ▸ inv.mem_ports got has owned)
  obtain ⟨same, other, -, hasSame, conn, -⟩ := remote_eq_some.mp leadsTo
  obtain rfl := Option.mem_unique has hasSame
  simp [conn]

theorem Reaches.across (reaches : net.Reaches dir dst start id) :
    ReflTransGen (fun near far => far ∈ net.across near dir) start id := by
  induction reaches with
  | refl => exact .refl
  | tail _ step ih => exact ih.tail step.2

theorem Confined.reaches_opposite (confined : net.Confined start dst dir) (inv : net.Consistent)
    (acyclic : ∀ id, ¬ TransGen (fun near far => far ∈ net.across near dir) id id)
    (reaches : net.Reaches dir dst start id) : net.Reaches dir.opposite start dst id := by
  by_contra nowhere
  let Stray (id : ProcessId) : Prop := net.Reaches dir dst start id ∧
    ¬ net.Reaches dir.opposite start dst id
  have leads {id} (stray : Stray id) : net.LeadsInto dir (net.Reaches dir dst start) id :=
    confined.leadsInto stray.1 fun same => stray.2 (same ▸ .refl)
  have known (id : ProcessId) (stray : Stray id) : id ∈ net.ids := by
    obtain ⟨proc, got, -⟩ := leads stray
    exact mem_ids.mpr ⟨proc, got⟩
  have onwards (id : ProcessId) (stray : Stray id) : ∃ next, Stray next ∧
      next ∈ net.across id dir := by
    obtain ⟨next, across, reachesNext, -⟩ := (leads stray).exists_both (leads stray)
    refine ⟨next,
      ⟨reachesNext, fun back => stray.2 (back.tail ⟨?_, inv.mem_across_opposite.mpr across⟩)⟩,
      across⟩
    rintro rfl
    exact acyclic _ (.tail' stray.1.across across)
  obtain ⟨loop, isLoop, -⟩ := Graph.exists_isLoop_of_forall_next known onwards ⟨reaches, nowhere⟩
  obtain ⟨first, mem⟩ := exists_mem_of_ne_nil _ isLoop.ne_nil
  exact acyclic first (isLoop.transGen mem mem)

theorem Contained.tight (contained : net.Contained reg) (inv : net.Consistent)
    (acyclic : ∀ id, ¬ TransGen net.Feeds id id) : net.Tight reg := by
  have forth (id : ProcessId) : ¬ TransGen (fun near far => far ∈ net.across near .output) id id :=
      fun loop =>
    acyclic id (TransGen.mono (fun _ _ across => inv.mem_across_output.mp across) _ _ loop)
  have back (id : ProcessId) : ¬ TransGen (fun near far => far ∈ net.across near .input) id id :=
      fun loop => acyclic id
      (transGen_swap.mp (TransGen.mono (fun _ _ across => inv.mem_across_input.mp across) _ _ loop))
  refine ⟨fun id => ⟨contained.1.reaches_opposite inv forth, contained.2.reaches_opposite inv back⟩,
    fun feeds spans => ?_⟩
  exact forth _ (.tail' spans.across (inv.mem_across_output.mpr feeds))

theorem Legal.acyclic (legal : net.Legal) (inv : net.Consistent)
    (instant : ∀ id ∈ net.ids, ¬ net.isDelay id) (id : ProcessId) : ¬ TransGen net.Feeds id id := by
  intro around
  have known (id : ProcessId) (around : TransGen net.Feeds id id) : id ∈ net.ids := by
    obtain ⟨next, feeds, -⟩ := TransGen.head'_iff.mp around
    exact mem_ids.mpr (inv.exists_source feeds)
  have onwards (id : ProcessId) (around : TransGen net.Feeds id id) : ∃ next,
      TransGen net.Feeds next next ∧ net.Feeds id next := by
    obtain ⟨next, feeds, leads⟩ := TransGen.head'_iff.mp around
    exact ⟨next, .tail' leads feeds, feeds⟩
  obtain ⟨loop, isLoop, inside⟩ := Graph.exists_isLoop_of_forall_next known onwards around
  obtain ⟨delay, mem, delays⟩ := legal.delayed isLoop
  exact instant delay (known delay (inside delay mem)) delays

theorem Spans.tail (spans : net.Spans reg src) (inv : net.Consistent) (elsewhere : src ≠ reg.stop)
    (feeds : net.Feeds src dst) : net.Spans reg dst :=
  ReflTransGen.tail spans ⟨elsewhere, inv.mem_across_output.mpr feeds⟩

theorem Draws.tail (draws : net.Draws reg dst) (inv : net.Consistent) (elsewhere : dst ≠ reg.start)
    (feeds : net.Feeds src dst) : net.Draws reg src :=
  ReflTransGen.tail draws ⟨elsewhere, inv.mem_across_input.mpr feeds⟩

theorem Reaches.leads_back (reaches : net.Reaches .input dst start id) (inv : net.Consistent) :
    ReflTransGen net.Feeds id start := by
  induction reaches with
  | refl => exact .refl
  | tail _ step ih => exact ih.head (inv.mem_across_input.mp step.2)

theorem LiesIn.of_start (inside : net.Spans outer inner.start)
    (apart : ¬ net.Spans inner outer.stop) : net.LiesIn inner outer := by
  intro id spans
  induction spans with
  | refl => exact inside
  | tail pre step ih =>
    refine ReflTransGen.tail ih ⟨?_, step.2⟩
    rintro rfl
    exact apart pre

theorem Spans.mem_of_closed (spans : net.Spans reg id) (members : List ProcessId)
    (starts : reg.start ∈ members)
    (closed : ∀ mem ∈ members, mem ≠ reg.stop → ∀ next ∈ net.across mem .output, next ∈ members) :
    id ∈ members := by
  induction spans with
  | refl => exact starts
  | tail _ step ih => exact closed _ ih step.1 _ step.2

/-- A step back from a process that is no unzip. -/
def Backs (net : Network) (id source : ProcessId) : Prop :=
  ¬ net.isUnzip id ∧ net.Feeds source id

theorem Finds.exists_backs {work visited : List ProcessId}
    (finds : net.Finds work visited (some id)) (inv : net.Consistent) :
    ∃ first ∈ work, ReflTransGen net.Backs first id := by
  generalize has : some id = ans at finds
  induction finds with
  | none => cases has
  | skip _ _ ih => grind
  | hit =>
    cases has
    exact ⟨id, mem_cons_self, .refl⟩
  | expand _ passes _ ih =>
    obtain ⟨first, mem, backs⟩ := ih has
    rcases mem_append.mp mem with across | behind
    · exact ⟨_, mem_cons_self, backs.head ⟨passes, inv.mem_across_input.mp across⟩⟩
    · exact ⟨first, mem_cons_of_mem _ behind, backs⟩

theorem Reports.backs (reports : net.Reports reg) (inv : net.Consistent) :
    ReflTransGen net.Backs reg.stop reg.start := by
  obtain ⟨first, isStop, backs⟩ := reports.2.1.exists_backs inv
  rwa [mem_singleton.mp isStop] at backs

theorem reaches_of_backs (backs : ReflTransGen net.Backs src id) (inv : net.Consistent)
    (unzips : net.isUnzip dst) : net.Reaches .input dst src id := by
  induction backs with
  | refl => exact .refl
  | tail _ step ih =>
    refine ReflTransGen.tail ih ⟨?_, inv.mem_across_input.mpr step.2⟩
    rintro rfl
    exact step.1 unzips

theorem exists_step_into {α : Type} {r : α → α → Prop} {first last : α} (inside : α → Prop)
    (leads : ReflTransGen r first last) (outside : ¬ inside first) (ends : inside last) :
    ∃ near far, ReflTransGen r first near ∧ r near far ∧ ¬ inside near ∧ inside far := by
  induction leads with
  | refl => exact absurd ends outside
  | @tail near far pre step ih =>
    by_cases already : inside near
    · exact ih already
    · exact ⟨near, far, pre, step, already, ends⟩

end Dataflow.Network
