import Dataflow.Proofs.Network.Reachable
import Dataflow.Proofs.Transform.Contract
import Dataflow.Proofs.Transform.Passage

/-!
Dropping all idle processes of a flat network.

What is connected afterwards was connected before through processes that are gone, and the boundary
moved past those.
-/

open List Option

namespace Dataflow

namespace Graph

variable {κ ι : Type} {joins : κ → κ → Prop} {crosses more : ι → κ → κ → Prop} {mark : ι}
  {entry exit : κ}
  {source target near far : κ} {trail others : List ι}

theorem Lands.append (lands : Lands joins crosses source trail near)
    (crossed : crosses mark near far) (onwards : Route joins crosses far others target) :
    Lands joins crosses source (trail ++ mark :: others) target := by
  cases lands with
  | stay => exact .cross crossed onwards
  | cross crossedFirst between => exact .cross crossedFirst (between.append crossed onwards)

/-- With one more crossing to take, a route does without it, or it leads there for the first time
and on from there after the last. -/
theorem Route.split (route : Route joins more source trail target)
    (either : ∀ {mark near far}, more mark near far →
      crosses mark near far ∨ near = entry ∧ far = exit) :
    (∃ kept, Route joins crosses source kept target) ∨
    (∃ kept, Route joins crosses source kept entry) ∧
    ∃ kept, Route joins crosses exit kept target := by
  induction route with
  | join joined => exact .inl ⟨[], .join joined⟩
  | cross joined crossed _ ih =>
    rcases either crossed with old | ⟨rfl, rfl⟩
    · rcases ih with ⟨kept, onwards⟩ | ⟨⟨kept, leads⟩, behind⟩
      · exact .inl ⟨_, .cross joined old onwards⟩
      · exact .inr ⟨⟨_, .cross joined old leads⟩, behind⟩
    · rcases ih with behind | ⟨-, behind⟩
      · exact .inr ⟨⟨[], .join joined⟩, behind⟩
      · exact .inr ⟨⟨[], .join joined⟩, behind⟩

end Graph

open Dataflow.Graph

namespace Network

variable {net next last : Network} {id other : ProcessId} {process : Process}
  {entry exit key old new source target : PortKey}
  {gone : List ProcessId} {dir : Direction} {port : Port}

/-- A step through a process that is gone, from its only port in a direction to its only port on the
other side. -/
def Crosses (net : Network) (gone : List ProcessId) (direction : Direction) (id : ProcessId)
    (near far : PortKey) : Prop :=
  id ∈ gone ∧
  ∃ process, net.process? id = some process ∧ process.ports direction = [near] ∧
    process.ports direction.opposite = [far]

/-- A way along connections and through processes that are gone. -/
abbrev LeadsThrough (net : Network) (gone : List ProcessId) (direction : Direction) :
    PortKey → List ProcessId → PortKey → Prop :=
  Route (net.Follows direction) (net.Crosses gone direction)

/-- The port belongs to a process that is not gone. -/
def Survives (net : Network) (gone : List ProcessId) (key : PortKey) : Prop :=
  ∃ port, net.port? key = some port ∧ port.owner ∉ gone

theorem Survives.of_cons (survives : net.Survives (id :: gone) key) : net.Survives gone key := by
  obtain ⟨port, has, remains⟩ := survives
  exact ⟨port, has, fun isGone => remains (mem_cons_of_mem _ isGone)⟩

/-- From one port one gets to the other through processes that are gone, onwards from an in-port and
back from an out-port. -/
def Shifts (net : Network) (gone : List ProcessId) (old new : PortKey) : Prop :=
  ∃ port trail, net.port? old = some port ∧
    Lands (net.Follows port.direction) (net.Crosses gone port.direction) old trail new

/-- Idle processes are gone, and connections and the boundary lead past them. -/
structure Shortened (net : Network) (gone : List ProcessId) (next : Network) : Prop where
  evolves : net.Evolves next
  exposed : next.Exposed
  idle : ∀ id ∈ gone, ∃ process, net.process? id = some process ∧ isRedundant process
  processes : ∀ id, next.process? id = if id ∈ gone then none else net.process? id
  connects : ∀ {source target}, next.Connects source target ↔
    net.Survives gone source ∧ net.Survives gone target ∧
    ∃ trail, net.LeadsThrough gone .input source trail target
  boundary : ∀ side, List.Forall₂ (net.Shifts gone) (net.boundary side) (next.boundary side)

theorem Crosses.cons (crosses : net.Crosses gone dir id entry exit) (other : ProcessId) :
    net.Crosses (other :: gone) dir id entry exit :=
  ⟨mem_cons_of_mem _ crosses.1, crosses.2⟩

theorem cons_leadsThrough {trail : List ProcessId}
    (leads : net.LeadsThrough gone dir source trail target) (other : ProcessId) :
    net.LeadsThrough (other :: gone) dir source trail target :=
  leads.imp (fun follows => follows) fun crosses => crosses.cons other

theorem cons_lands {trail : List ProcessId}
    (lands : Lands (net.Follows dir) (net.Crosses gone dir) source trail target)
    (other : ProcessId) :
    Lands (net.Follows dir) (net.Crosses (other :: gone) dir) source trail target :=
  lands.imp (fun follows => follows) fun crosses => crosses.cons other

theorem Crosses.flip (crosses : net.Crosses gone dir id entry exit) :
    net.Crosses gone dir.opposite id exit entry := by
  obtain ⟨isGone, process, got, near, far⟩ := crosses
  exact ⟨isGone, process, got, far, by rw [Direction.opposite_opposite]; exact near⟩

theorem flip_leadsThrough {trail : List ProcessId}
    (leads : net.LeadsThrough gone dir source trail target) :
    net.LeadsThrough gone dir.opposite target trail.reverse source :=
  leads.reverse.imp follows_opposite.mpr Crosses.flip

theorem Consistent.direction_of_lands (inv : net.Consistent) {peer : Port} {trail : List ProcessId}
    (has : net.port? old = some port)
    (lands : Lands (net.Follows port.direction) (net.Crosses gone port.direction) old trail new)
    (hasPeer : net.port? new = some peer) : peer.direction = port.direction := by
  cases lands with
  | stay => rw [mem_unique has hasPeer]
  | cross _ onwards =>
    obtain ⟨near, follows, -⟩ := route_iff_lands.mp onwards.reverse
    obtain ⟨-, too, hasToo, facing⟩ := inv.exists_follows follows
    rwa [mem_unique hasToo hasPeer] at facing

namespace Shortened

/-- Nothing is gone at the start. -/
theorem refl (inv : net.Consistent) (exposed : net.Exposed) : net.Shortened [] net where
  evolves := .refl inv
  exposed := exposed
  idle := by simp
  processes := by simp
  connects {source target} := by
    constructor
    · intro connects
      obtain ⟨peer, hasPeer, -⟩ := connects.exists_target inv.linked
      have ⟨port, has, _⟩ := connects
      exact ⟨⟨port, has, not_mem_nil⟩, ⟨peer, hasPeer, not_mem_nil⟩, [], .join connects⟩
    · rintro ⟨-, -, trail, leads⟩
      cases leads with
      | join connects => exact connects
      | cross _ crosses _ => exact absurd crosses.1 not_mem_nil
  boundary side := by
    refine forall₂_same.mpr fun key mem => ?_
    obtain ⟨port, has⟩ := isSome_iff_exists.mp (inv.boundary (isBoundary_iff.mpr ⟨side, mem⟩))
    exact ⟨port, [], has, .stay⟩

theorem excise (shortened : net.Shortened gone next) (inv : net.Consistent)
    (got : next.process? id = some process) (redundant : isRedundant process)
    (entered : process.inPorts = [entry]) (left : process.outPorts = [exit])
    (excised : next.Excised id entry exit last) : net.Shortened (id :: gone) last := by
  have evo := shortened.evolves.trans excised.evolves
  have remains : id ∉ gone := fun isGone => by
    rw [shortened.processes, if_pos isGone] at got
    cases got
  have gotFirst : net.process? id = some process := by
    rw [← got, shortened.processes, if_neg remains]
  have procs (other : ProcessId) : last.process? other =
      if other ∈ id :: gone then none else net.process? other := by
    rw [excised.processes, shortened.processes]
    by_cases here : other = id <;> simp [here]
  have crosses : net.Crosses (id :: gone) .input id entry exit :=
    ⟨mem_cons_self, process, gotFirst, entered, left⟩
  have goesWith {key} (mem : key ∈ process.allPorts) : ¬ net.Survives (id :: gone) key := by
    rintro ⟨port, has, remains⟩
    obtain rfl := of_found has ((inv.mem_allPorts gotFirst).mp mem)
    exact remains mem_cons_self
  have survivesPre {key} (mem : key ∈ process.allPorts) : net.Survives gone key := by
    obtain ⟨port, has, rfl⟩ := (inv.mem_allPorts gotFirst).mp mem
    exact ⟨port, has, remains⟩
  -- What is found in the end belongs to a process that is not gone.
  have survives {key port} (has : last.port? key = some port) (pre : net.Survives gone key) :
      net.Survives (id :: gone) key := by
    obtain ⟨former, hasOld, notGone⟩ := pre
    have same := of_found hasOld (evo.stable (lt_nextKey hasOld) has)
    obtain ⟨owner, gotOwner, -⟩ := evo.inv.owned has
    rw [procs, ← (Port.unlinked_eq.mp same).2.1] at gotOwner
    refine ⟨former, hasOld, fun isGone => ?_⟩
    rw [if_pos isGone] at gotOwner
    cases gotOwner
  refine ⟨evo, excised.exposed, ?_, procs, ?_, fun side => ?_⟩
  · intro other isGone
    rcases mem_cons.mp isGone with rfl | pre
    · exact ⟨process, gotFirst, redundant⟩
    · exact shortened.idle other pre
  · intro source target
    constructor
    · intro connects
      have ⟨port, has, _⟩ := connects
      obtain ⟨peer, hasPeer, -⟩ := connects.exists_target evo.inv.linked
      obtain ⟨-, -, direct | ⟨enters, leaves⟩⟩ := excised.connects.mp connects
      · obtain ⟨isSrc, isDst, trail, leads⟩ := shortened.connects.mp direct
        exact ⟨survives has isSrc, survives hasPeer isDst, trail, cons_leadsThrough leads id⟩
      · obtain ⟨isSrc, -, trail, leads⟩ := shortened.connects.mp enters
        obtain ⟨-, isDst, others, leadsOn⟩ := shortened.connects.mp leaves
        exact ⟨survives has isSrc, survives hasPeer isDst, _,
          (cons_leadsThrough leads id).append crosses (cons_leadsThrough leadsOn id)⟩
    · rintro ⟨isSrc, isDst, trail, leads⟩
      have notExit : source ≠ exit := by
        rintro rfl
        exact goesWith (by simp [Process.allPorts, left]) isSrc
      have notEntry : target ≠ entry := by
        rintro rfl
        exact goesWith (by simp [Process.allPorts, entered]) isDst
      have either {mark near far} (crosses : net.Crosses (id :: gone) .input mark near far) :
          net.Crosses gone .input mark near far ∨ near = entry ∧ far = exit := by
        obtain ⟨isGone, crossed, gotCrossed, isNear, isFar⟩ := crosses
        rcases mem_cons.mp isGone with rfl | pre
        · obtain rfl := mem_unique gotFirst gotCrossed
          exact .inr
            ⟨singleton_inj.mp (isNear.symm.trans entered), singleton_inj.mp (isFar.symm.trans left)⟩
        · exact .inl ⟨pre, crossed, gotCrossed, isNear, isFar⟩
      refine excised.connects.mpr ⟨notExit, notEntry, ?_⟩
      have enters := survivesPre (show entry ∈ process.allPorts by simp [Process.allPorts, entered])
      have leaves := survivesPre (show exit ∈ process.allPorts by simp [Process.allPorts, left])
      rcases leads.split either with direct | ⟨pre, behind⟩
      · exact .inl (shortened.connects.mpr ⟨isSrc.of_cons, isDst.of_cons, direct⟩)
      · exact .inr
          ⟨shortened.connects.mpr ⟨isSrc.of_cons, enters, pre⟩,
            shortened.connects.mpr ⟨leaves, isDst.of_cons, behind⟩⟩
  · refine forall₂_trans (fun {first between second} earlier later => ?_) (shortened.boundary side)
      (excised.boundary side)
    obtain ⟨port, trail, has, lands⟩ := earlier
    rcases later with rfl | ⟨rfl, connects⟩ | ⟨rfl, connects⟩
    · exact ⟨port, trail, has, cons_lands lands id⟩
    · obtain ⟨-, -, others, leads⟩ := shortened.connects.mp connects
      obtain ⟨peer, hasPeer, -, enters⟩ :=
        inv.listed gotFirst (entered ▸ mem_singleton_self _ : _ ∈ process.ports .input)
      have facing := (inv.direction_of_lands has lands hasPeer).symm.trans enters
      refine ⟨port, trail ++ id :: others, has, ?_⟩
      rw [facing] at lands ⊢
      exact (cons_lands lands id).append crosses (cons_leadsThrough leads id)
    · obtain ⟨-, -, others, leads⟩ := shortened.connects.mp connects
      obtain ⟨peer, hasPeer, -, leaves⟩ :=
        inv.listed gotFirst (left ▸ mem_singleton_self _ : _ ∈ process.ports .output)
      have facing := (inv.direction_of_lands has lands hasPeer).symm.trans leaves
      refine ⟨port, trail ++ id :: others.reverse, has, ?_⟩
      rw [facing] at lands ⊢
      exact (cons_lands lands id).append crosses.flip
        (cons_leadsThrough (flip_leadsThrough leads) id)

end Shortened

theorem exposed_of_check (flat : net.ensureFlat = .ok ())
    (free : ∀ key ∈ net.inputs ++ net.outputs, ((net.port? key).bind (·.connection)).isNone) :
    net.Exposed where
  leaves := ensureFlat_eq_ok.mp flat
  unconnected {key port} onBdry has := by
    have mem : key ∈ net.inputs ++ net.outputs := by simpa [isBoundary] using onBdry
    simpa [has] using free key mem

theorem Immovable.unconnected (immovable : net.Immovable process) (inv : net.Consistent)
    (got : net.process? id = some process) (mem : key ∈ process.allPorts) :
    ∃ port, net.port? key = some port ∧ port.connection = none := by
  obtain ⟨dir, inside⟩ := Process.mem_allPorts.mp mem
  obtain ⟨port, has, -, facing⟩ := inv.listed got inside
  refine ⟨port, has, eq_none_iff_forall_ne_some.mpr fun other conn => ?_⟩
  cases dir with
  | input =>
    exact immovable.unfed key inside other ((inv.linked.connection_eq_some has facing).mp conn)
  | output => exact immovable.ended key inside other ⟨port, has, facing, conn⟩

theorem Shortened.exists_later (shortened : net.Shortened gone next) (inv : net.Consistent)
    (has : net.port? key = some port) (remains : port.owner ∉ gone) :
    ∃ later, next.port? key = some later ∧ later.unlinked = port.unlinked := by
  obtain ⟨owner, got, mem⟩ := inv.owned has
  have gotNew : next.process? port.owner = some owner := by
    rw [shortened.processes, if_neg remains, got]
  obtain ⟨later, hasNew, -⟩ := shortened.evolves.inv.listed gotNew mem
  have same := of_found has (shortened.evolves.stable (lt_nextKey has) hasNew)
  exact ⟨later, hasNew, same.symm⟩

theorem Exposed.ends_removeRedundant (exposed : net.Exposed) (inv : net.Consistent) :
    Edit.removeRedundant.Ends net
      (fun report next => ∃ gone kept : List ProcessId, report = ⟨gone.length, kept.map idleNote⟩ ∧
        net.Shortened gone next ∧
        ∀ {id process}, next.process? id = some process → isRedundant process →
          id ∈ kept ∧ next.Immovable process)
      fun _ => False :=
  Network.ends_removeRedundant (net.Shortened · ·)
    (fun shortened => ⟨shortened.evolves.inv, shortened.exposed⟩)
    (fun shortened got redundant entered left _ => shortened.excise inv got redundant entered left)
    (.refl inv exposed)

theorem Exposed.ends_removeRedundant_tidy (exposed : net.Exposed) (inv : net.Consistent)
    (tidy : net.Tidy) :
    Edit.removeRedundant.Ends net (fun report next => report.applied = 0 ∧ next = net) fun _ =>
      False := by
  refine (Network.ends_removeRedundant (fun gone cur => gone = [] ∧ cur = net) ?_ ?_ ⟨rfl, rfl⟩).imp
    ?_
  · rintro _ _ ⟨-, rfl⟩
    exact ⟨inv, exposed⟩
  · rintro _ _ _ _ _ _ _ ⟨-, rfl⟩ got redundant _ _ movable
    exact absurd (tidy got redundant) movable
  · grind

/-- Zips and unzips with one port on each side are spliced out of a flat network whose boundary is
not connected. This always succeeds. All other processes and their ports stay as they are. Of the
idle processes only those are left that have no neighbours and are on the boundary, and there is a
note about each of them. Ports of what is left are connected exactly if there was a way from one to
the other through processes that are gone, and each port on the boundary moves along such processes.
Doing this again changes nothing. -/
theorem removeRedundant_splices (wellFormed : net.WellFormed) (exposed : net.Exposed) :
    ∃ report next gone, Edit.removeRedundant.run net = .ok report next ∧
      report.applied = gone.length ∧
      (∀ id ∈ gone, ∃ process, net.process? id = some process ∧ isRedundant process) ∧
      (∀ id, next.process? id = if id ∈ gone then none else net.process? id) ∧
      (∀ key port, net.port? key = some port → port.owner ∉ gone →
        ∃ later, next.port? key = some later ∧ later.unlinked = port.unlinked) ∧
      (∀ id process, next.process? id = some process → isRedundant process →
        (∀ key ∈ process.allPorts, ∃ port, next.port? key = some port ∧ port.connection = none) ∧
        (∃ key ∈ process.allPorts, next.isBoundary key) ∧
        idleNote id ∈ report.notes) ∧
      (∀ source target, net.Survives gone source → net.Survives gone target →
        (next.Connects source target ↔ ∃ trail, net.LeadsThrough gone .input source trail target)) ∧
      (∀ side, List.Forall₂ (net.Shifts gone) (net.boundary side) (next.boundary side)) ∧
      ∃ again, Edit.removeRedundant.run next = .ok again next ∧ again.applied = 0 := by
  -- The run is followed once for what it does, and once more from its own result.
  have consistent := wellFormed.toConsistent
  obtain ⟨report, next, runs, gone, kept, rfl, shortened, idle⟩ :=
    (exposed.ends_removeRedundant consistent).exists_run
  obtain ⟨again, _, runsAgain, none, rfl⟩ :=
    (shortened.exposed.ends_removeRedundant_tidy shortened.evolves.inv
      fun stored redundant => (idle stored redundant).2).exists_run
  refine ⟨_, _, gone, runs, rfl, shortened.idle, shortened.processes, fun key port =>
    shortened.exists_later consistent, ?_, ?_, shortened.boundary, again, runsAgain, none⟩
  · intro id process stored redundant
    obtain ⟨isKept, immovable⟩ := idle stored redundant
    exact ⟨fun key listed => immovable.unconnected shortened.evolves.inv stored listed,
      immovable.boundary, mem_map_of_mem isKept⟩
  · intro source target survives survivesToo
    rw [shortened.connects]
    exact ⟨fun ⟨_, _, leads⟩ => leads, fun leads => ⟨survives, survivesToo, leads⟩⟩

/-- Two copiers with two idle processes between them, one before them on the boundary, one on its
own there, and one that feeds itself. -/
def idling : Network :=
  Operation.build
    (Operation.addAll none [("m", .fanout, ["in"], ["out"]), ("n", .fanout, ["in"], ["out"]),
        ("b", .zip, ["in"], ["out"]), ("a", .unzip, ["in"], ["out"]),
        ("f", .unzip, ["in"], ["out"]), ("k", .zip, ["in"], ["out"]),
        ("l", .zip, ["in"], ["out"])] ++
      [.connect 1 4, .connect 5 6, .connect 7 2, .connect 9 0, .connect 13 12, .addInput 8,
        .addInput 10, .addOutput 3])

/-- Of the five idle processes, the one on its own is kept. -/
theorem removeRedundant_splices_idling :
    idling.WellFormed ∧ idling.Exposed ∧
    ∃ report next, ∃ gone : List ProcessId, Edit.removeRedundant.run idling = .ok report next ∧
      report.applied = gone.length ∧
      ∃ again, Edit.removeRedundant.run next = .ok again next ∧ again.applied = 0 := by
  have reachable : idling.Reachable := Reachable.empty.foldl (by simp [Operation.Allowed])
  have wellFormed := reachable.wellFormed (by decide +kernel)
  have exposed : idling.Exposed := exposed_of_check (by decide +kernel) (by decide +kernel)
  obtain ⟨report, next, gone, runs, counted, -, -, -, -, -, -, again⟩ :=
    removeRedundant_splices wellFormed exposed
  exact ⟨wellFormed, exposed, report, next, gone, runs, counted, again⟩

end Network

end Dataflow
