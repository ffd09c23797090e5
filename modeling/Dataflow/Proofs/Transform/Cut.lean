import Dataflow.Proofs.Edit.Fresh
import Dataflow.Proofs.Transform.Referable

/-! Cutting connections: each of them leads through its own index of a new zip and a new unzip. -/

open List

namespace Dataflow

theorem getElem?_concat_eq_some {α : Type} {entries : List α} {last entry : α} {idx : Nat} :
    (entries ++ [last])[idx]? = some entry ↔
      entries[idx]? = some entry ∨ idx = entries.length ∧ entry = last := by
  rcases Nat.lt_trichotomy idx entries.length with earlier | rfl | new
  · grind
  · simp [eq_comm]
  · grind

namespace Network

variable {net next : Network} {id zip unzip : ProcessId} {src dst : PortKey}
  {proc zipper unzipper : Process} {branch : Nat}

/-- What is left when a connection leads through one more port of a zip and of an unzip. -/
structure Threaded (net : Network) (zip unzip : ProcessId) (zipper unzipper : Process)
    (branch : Nat) (source target : PortKey) (next : Network) : Prop where
  evolves : net.Evolves next
  zipped : next.process? zip = some (zipper.addPort .input net.ports.nextKey)
  unzipped : next.process? unzip = some (unzipper.addPort .output (net.ports.nextKey + 1))
  processes : ∀ {id}, id ≠ zip → id ≠ unzip → next.process? id = net.process? id
  declared : ∀ {key}, key < net.ports.nextKey →
    (next.port? key).map Port.unlinked = (net.port? key).map Port.unlinked
  entry : ∃ port, next.port? net.ports.nextKey = some port ∧ port.name = "in" ++ toString branch
  exit : ∃ port, next.port? (net.ports.nextKey + 1) = some port ∧
    port.name = "out" ++ toString branch
  connects : ∀ {first second}, next.Connects first second ↔
    net.Connects first second ∧ first ≠ source ∨ first = source ∧ second = net.ports.nextKey ∨
    first = net.ports.nextKey + 1 ∧ second = target
  nextKey : next.ports.nextKey = net.ports.nextKey + 2
  inputs : next.inputs = net.inputs
  outputs : next.outputs = net.outputs

theorem run_threadBranch (inv : net.Consistent) (got : net.process? id = some proc)
    (first : proc.outPorts[0]? = some src) (connects : net.Connects src dst)
    (gotZip : net.process? zip = some zipper) (gotUnzip : net.process? unzip = some unzipper)
    (apart : zip ≠ unzip)
    (freeZip : ∀ key ∈ zipper.inPorts, ∀ port, net.port? key = some port →
      port.name ≠ "in" ++ toString branch)
    (freeUnzip : ∀ key ∈ unzipper.outPorts, ∀ port, net.port? key = some port →
      port.name ≠ "out" ++ toString branch) :
    ∃ next, (Edit.threadBranch zip unzip id branch).run net = .ok () next ∧
      net.Threaded zip unzip zipper unzipper branch src dst next := by
  have linked := inv.linked
  obtain ⟨peer, hasPeer, enters, -⟩ := connects.exists_target linked
  have ⟨port, has, leaves, conn⟩ := connects
  have differ : src ≠ dst := fun same => connects.not_source linked (same ▸ connects)
  have old : src < net.ports.nextKey := lt_nextKey has
  have oldDst : dst < net.ports.nextKey := lt_nextKey hasPeer
  -- The connection is broken first.
  obtain ⟨broken, isBroken⟩ : ∃ broken, broken = net.unlink src := ⟨_, rfl⟩
  have disconnects : (Edit.disconnect src).run net = .ok (some dst) broken := by
    rw [Edit.run_disconnect linked has, conn, isBroken]
  have rewired : net.Rewired broken := isBroken ▸ inv.unlink has
  have atSrc : broken.port? src = some port.unlinked := isBroken ▸ linked.port?_unlink_self has
  have atDst : broken.port? dst = some peer.unlinked :=
    isBroken ▸ linked.port?_unlink_peer has conn hasPeer
  have names {key new} (hasNew : broken.port? key = some new) :
      ∃ former, net.port? key = some former ∧ former.name = new.name := by
    obtain ⟨former, hasOld, same⟩ := exists_of_declared (rewired.declared key).symm hasNew
    exact ⟨former, hasOld, (Port.unlinked_eq.mp same).1⟩
  obtain ⟨entered, addsEntry, hasEntry⟩ :=
    rewired.evolves.inv.run_addPort ((rewired.processes zip).trans gotZip)
      ("in" ++ toString branch) .input port.dataType fun key mem new hasNew sameName => by
        obtain ⟨former, hasOld, name⟩ := names hasNew
        exact freeZip key mem former hasOld (name.trans sameName)
  have gotEntered : entered.process? unzip = some unzipper := by
    rw [hasEntry.processes, if_neg (Ne.symm apart), rewired.processes, gotUnzip]
  obtain ⟨ported, addsExit, hasExit⟩ := hasEntry.evolves.inv.run_addPort gotEntered
    ("out" ++ toString branch) .output peer.dataType fun key mem new hasNew sameName => by
      obtain ⟨former, hasOld, -⟩ :=
        rewired.evolves.inv.listed_out ((rewired.processes unzip).trans gotUnzip) mem
      rw [hasEntry.port_of_lt (lt_nextKey hasOld)] at hasNew
      obtain ⟨former, hasOld, name⟩ := names hasNew
      exact freeUnzip key mem former hasOld (name.trans sameName)
  have keyEntry := rewired.nextKey
  have keyExit : entered.ports.nextKey = net.ports.nextKey + 1 := by rw [hasEntry.nextKey, keyEntry]
  rw [keyEntry] at addsEntry
  rw [keyExit] at addsExit
  have kept {key} (isOld : key < net.ports.nextKey) : ported.port? key = broken.port? key := by
    rw [hasExit.port_of_lt (by lia), hasEntry.port_of_lt (by lia)]
  have atEntry : ported.port? net.ports.nextKey =
      some ⟨"in" ++ toString branch, zip, .input, port.dataType, none⟩ := by
    rw [hasExit.port_of_lt (by lia), hasEntry.ports, if_pos keyEntry.symm]
  have atExit : ported.port? (net.ports.nextKey + 1) =
      some ⟨"out" ++ toString branch, unzip, .output, peer.dataType, none⟩ := by
    rw [hasExit.ports, if_pos keyExit.symm]
  have hasSrc := (kept old).trans atSrc
  have connectsEntry := Edit.run_connect_free hasSrc atEntry leaves rfl rfl rfl
  obtain ⟨half, isHalf⟩ : ∃ half, half = ported.join src net.ports.nextKey := ⟨_, rfl⟩
  have rewiredHalf : ported.Rewired half :=
    isHalf ▸ hasExit.evolves.inv.link hasSrc atEntry leaves rfl rfl rfl
  rw [← isHalf] at connectsEntry
  have portHalf {key} (notSrc : key ≠ src) (notEntry : key ≠ net.ports.nextKey) :
      half.port? key = ported.port? key := isHalf ▸ port?_join_of_ne notSrc notEntry
  have exitHalf := (portHalf (by lia) (by lia)).trans atExit
  have dstHalf := (portHalf (Ne.symm differ) (by lia)).trans ((kept oldDst).trans atDst)
  have connectsExit := Edit.run_connect_free exitHalf dstHalf rfl enters rfl rfl
  have rewiredAll : ported.Rewired (half.join (net.ports.nextKey + 1) dst) :=
    rewiredHalf.trans (rewiredHalf.evolves.inv.link exitHalf dstHalf rfl enters rfl rfl)
  have runs : (Edit.threadBranch zip unzip id branch).run net =
      .ok () (half.join (net.ports.nextKey + 1) dst) := by
    have asked : net.portAt id .output 0 = .ok src := portAt_eq got first
    have types : port.unlinked.dataType = port.dataType ∧ peer.unlinked.dataType = peer.dataType :=
      ⟨rfl, rfl⟩
    simp only [Edit.threadBranch, EStateM.run_bind, EStateM.run_get, asked, Edit.run_answer,
      disconnects, port_eq_ok.mpr atSrc, port_eq_ok.mpr atDst, types, addsEntry, addsExit,
      connectsEntry, connectsExit]
  have procs (id : ProcessId) : (half.join (net.ports.nextKey + 1) dst).process? id =
      if id = unzip then some (unzipper.addPort .output (net.ports.nextKey + 1))
      else if id =
        zip then some (zipper.addPort .input net.ports.nextKey) else net.process? id := by
    rw [rewiredAll.processes, hasExit.processes, hasEntry.processes, rewired.processes,
      keyExit, keyEntry]
  refine ⟨_, runs, (inv.referable.keeps_threadBranch ..).evolves runs, ?zipped, ?unzipped,
    ?processes, ?declared, ?entry, ?exit, ?connects, ?nextKey, ?inputs, ?outputs⟩
  case zipped => rw [procs, if_neg apart, if_pos rfl]
  case unzipped => rw [procs, if_pos rfl]
  case processes => grind
  case declared =>
    intro key isOld
    rw [rewiredAll.declared, kept isOld, rewired.declared]
  case entry =>
    obtain ⟨new, hasNew, same⟩ := exists_of_declared (rewiredAll.declared _) atEntry
    exact ⟨new, hasNew, (Port.unlinked_eq.mp same).1⟩
  case exit =>
    obtain ⟨new, hasNew, same⟩ := exists_of_declared (rewiredAll.declared _) atExit
    exact ⟨new, hasNew, (Port.unlinked_eq.mp same).1⟩
  case connects =>
    intro first second
    rw [connects_join exitHalf dstHalf rfl enters rfl, isHalf,
      connects_join hasSrc atEntry leaves rfl rfl, hasExit.connects rfl, hasEntry.connects rfl,
      isBroken, linked.connects_unlink has]
    constructor
    · rintro ((⟨stays, notSrc, -⟩ | isEntry) | isExit)
      · exact .inl ⟨stays, notSrc⟩
      · exact .inr (.inl isEntry)
      · exact .inr (.inr isExit)
    · rintro (⟨stays, notSrc⟩ | isEntry | isExit)
      · exact .inl (.inl ⟨stays, notSrc, fun same => (same ▸ stays).not_source linked connects⟩)
      · exact .inl (.inr isEntry)
      · exact .inr isExit
  case nextKey => rw [rewiredAll.nextKey, hasExit.nextKey, keyExit]
  case inputs => rw [rewiredAll.inputs, hasExit.inputs, hasEntry.inputs, rewired.inputs]
  case outputs => rw [rewiredAll.outputs, hasExit.outputs, hasEntry.outputs, rewired.outputs]

end Network

/-- A zip and an unzip behind it, with the ends of the connections that lead through them. -/
structure Cut where
  /-- The name of the zip. -/
  zip : ProcessId
  /-- The name of the unzip. -/
  unzip : ProcessId
  /-- The place of both. -/
  hierarchy : Hierarchy
  /-- The first of the keys of their ports, which follow each other. -/
  base : PortKey
  /-- The ends of the connections, in the order of the indices that they lead through. -/
  lanes : List (PortKey × PortKey)

namespace Cut

variable (cut : Cut)

/-- The in-port of the zip with the given index. -/
def inAt (branch : Nat) : PortKey :=
  cut.base + 2 + 2 * branch

/-- The out-port of the unzip with the given index. -/
def outAt (branch : Nat) : PortKey :=
  cut.base + 3 + 2 * branch

/-- The zip of a cut. -/
def zipper : Process where
  kind := .zip
  hierarchy := cut.hierarchy
  inPorts := (List.range cut.lanes.length).map cut.inAt
  outPorts := [cut.base]

/-- The unzip of a cut. -/
def unzipper : Process where
  kind := .unzip
  hierarchy := cut.hierarchy
  inPorts := [cut.base + 1]
  outPorts := (List.range cut.lanes.length).map cut.outAt

/-- The cut that one more connection leads through. -/
def push (lane : PortKey × PortKey) : Cut :=
  { cut with lanes := cut.lanes ++ [lane] }

theorem zipper_push (lane : PortKey × PortKey) :
    (cut.push lane).zipper = cut.zipper.addPort .input (cut.base + 2 + 2 * cut.lanes.length) := by
  simp [zipper, push, Process.addPort, range_succ, inAt]

theorem unzipper_push (lane : PortKey × PortKey) :
    (cut.push lane).unzipper =
      cut.unzipper.addPort .output (cut.base + 2 + 2 * cut.lanes.length + 1) := by
  have key : cut.outAt cut.lanes.length = cut.base + 2 + 2 * cut.lanes.length + 1 := by
    unfold outAt
    lia
  simp [unzipper, push, Process.addPort, range_succ, ← key, outAt]

end Cut

namespace Network

variable {net next : Network} {cut : Cut} {lane : PortKey × PortKey} {hier : Hierarchy}
  {column : List ProcessId} {branch : Nat}

/-- What is left when connections lead through a cut. -/
structure Cuts (net : Network) (cut : Cut) (next : Network) : Prop where
  evolves : net.Evolves next
  base : cut.base = net.ports.nextKey
  nextKey : next.ports.nextKey = cut.base + 2 + 2 * cut.lanes.length
  unusedZip : ¬ net.names.taken.contains cut.zip
  unusedUnzip : ¬ net.names.taken.contains cut.unzip
  apart : cut.zip ≠ cut.unzip
  zipped : next.process? cut.zip = some cut.zipper
  unzipped : next.process? cut.unzip = some cut.unzipper
  processes : ∀ {id}, id ≠ cut.zip → id ≠ cut.unzip → next.process? id = net.process? id
  declared : ∀ {key}, key < net.ports.nextKey →
    (next.port? key).map Port.unlinked = (net.port? key).map Port.unlinked
  entry : ∀ {branch}, branch < cut.lanes.length →
    ∃ port, next.port? (cut.inAt branch) = some port ∧ port.name = "in" ++ toString branch
  exit : ∀ {branch}, branch < cut.lanes.length →
    ∃ port, next.port? (cut.outAt branch) = some port ∧ port.name = "out" ++ toString branch
  connects_of_mem : ∀ {lane}, lane ∈ cut.lanes → net.Connects lane.1 lane.2
  connects : ∀ {source target}, next.Connects source target ↔
    net.Connects source target ∧ (source, target) ∉ cut.lanes ∨
    source = cut.base ∧ target = cut.base + 1 ∨
    ∃ branch lane, cut.lanes[branch]? = some lane ∧
      (source = lane.1 ∧ target = cut.inAt branch ∨ source = cut.outAt branch ∧ target = lane.2)
  inputs : next.inputs = net.inputs
  outputs : next.outputs = net.outputs

theorem Connects.lt_nextKey {src dst : PortKey} (connects : net.Connects src dst)
    (linked : net.Linked) : src < net.ports.nextKey ∧ dst < net.ports.nextKey := by
  obtain ⟨peer, hasPeer, -⟩ := connects.exists_target linked
  obtain ⟨port, has, -⟩ := connects
  exact ⟨Network.lt_nextKey has, Network.lt_nextKey hasPeer⟩

/-- One more connection is led through a cut. -/
theorem Cuts.push {last : Network} {src dst : PortKey} (cuts : net.Cuts cut next)
    (linked : net.Linked) (connects : net.Connects src dst)
    (fresh : ∀ lane ∈ cut.lanes, src ≠ lane.1)
    (threaded : next.Threaded cut.zip cut.unzip cut.zipper cut.unzipper cut.lanes.length src dst
      last) : net.Cuts (cut.push (src, dst)) last := by
  have old := (connects.lt_nextKey linked).1
  have base := cuts.base
  have nextKey := cuts.nextKey
  have inKey : next.ports.nextKey = cut.inAt cut.lanes.length := nextKey
  have outKey : next.ports.nextKey + 1 = cut.outAt cut.lanes.length := by
    unfold Cut.outAt
    lia
  have counts {branch} (bound : branch < (cut.push (src, dst)).lanes.length) :
      branch < cut.lanes.length ∨ branch = cut.lanes.length := by
    simp only [Cut.push, length_append, length_singleton] at bound
    omega
  -- A port that was named before keeps its name.
  have named {key name} (pre : ∃ port, next.port? key = some port ∧ port.name = name) :
      ∃ port, last.port? key = some port ∧ port.name = name := by
    obtain ⟨port, has, rfl⟩ := pre
    obtain ⟨new, hasNew, same⟩ := exists_of_declared (threaded.declared (lt_nextKey has)) has
    exact ⟨new, hasNew, (Port.unlinked_eq.mp same).1⟩
  refine ⟨cuts.evolves.trans threaded.evolves, base, ?nextKey, cuts.unusedZip, cuts.unusedUnzip,
    cuts.apart, ?zipped, ?unzipped,
    fun notZip notUnzip =>
      (threaded.processes notZip notUnzip).trans (cuts.processes notZip notUnzip),
    fun isOld => (threaded.declared (by lia)).trans (cuts.declared isOld), fun bound => ?entry,
    fun bound => ?exit, fun {lane} mem => ?connects_of_mem, ?connects,
    threaded.inputs.trans cuts.inputs, threaded.outputs.trans cuts.outputs⟩
  case nextKey =>
    rw [threaded.nextKey]
    simp only [Cut.push, length_append, length_singleton]
    lia
  case zipped =>
    rw [Cut.zipper_push, ← nextKey]
    exact threaded.zipped
  case unzipped =>
    rw [Cut.unzipper_push, ← nextKey]
    exact threaded.unzipped
  case entry =>
    rcases counts bound with earlier | rfl
    · exact named (cuts.entry earlier)
    · exact inKey ▸ threaded.entry
  case exit =>
    rcases counts bound with earlier | rfl
    · exact named (cuts.exit earlier)
    · exact outKey ▸ threaded.exit
  case connects_of_mem =>
    rcases mem_append.mp mem with earlier | isLast
    · exact cuts.connects_of_mem earlier
    · rwa [mem_singleton.mp isLast]
  case connects =>
    intro first second
    rw [threaded.connects, cuts.connects]
    constructor
    · rintro (⟨⟨stays, uncut⟩ | isBase | ⟨branch, lane, isLane, ends⟩, notSrc⟩ | ⟨rfl,
        rfl⟩ | ⟨rfl, rfl⟩)
      · refine .inl ⟨stays, fun mem => ?_⟩
        rcases mem_append.mp mem with earlier | isLast
        · exact uncut earlier
        · grind
      · exact .inr (.inl isBase)
      · exact .inr (.inr ⟨branch, lane, getElem?_concat_eq_some.mpr (.inl isLane), ends⟩)
      · exact .inr (.inr ⟨_, _, getElem?_concat_eq_some.mpr (.inr ⟨rfl, rfl⟩), .inl ⟨rfl, inKey⟩⟩)
      · exact .inr (.inr ⟨_, _, getElem?_concat_eq_some.mpr (.inr ⟨rfl, rfl⟩), .inr ⟨outKey, rfl⟩⟩)
    · rintro (⟨stays, uncut⟩ | ⟨rfl, rfl⟩ | ⟨branch, lane, isLane, ends⟩)
      · refine .inl ⟨.inl ⟨stays, fun mem => uncut (mem_append_left _ mem)⟩, ?_⟩
        rintro rfl
        rw [stays.target_unique connects] at uncut
        exact uncut (by simp [Cut.push])
      · exact .inl ⟨.inr (.inl ⟨rfl, rfl⟩), Nat.ne_of_gt (base ▸ old)⟩
      · rcases getElem?_concat_eq_some.mp isLane with earlier | ⟨rfl, rfl⟩
        · refine .inl ⟨.inr (.inr ⟨branch, lane, earlier, ends⟩), ?_⟩
          rcases ends with ⟨rfl, -⟩ | ⟨rfl, -⟩
          · exact Ne.symm (fresh lane (mem_of_getElem? earlier))
          · show cut.base + 3 + 2 * branch ≠ src
            lia
        · rcases ends with ⟨rfl, rfl⟩ | ⟨rfl, rfl⟩
          · exact .inr (.inl ⟨rfl, inKey.symm⟩)
          · exact .inr (.inr ⟨outKey.symm, rfl⟩)

theorem exists_cuts_nil (inv : net.Consistent) (top : hier.parent? = none)
    (type : Option DataType) :
    ∃ cut zipped unzipped ported portedToo next,
      (Edit.addFresh "_zip" .zip hier).run net = .ok cut.zip zipped ∧
      (Edit.addFresh "_unzip" .unzip hier).run zipped = .ok cut.unzip unzipped ∧
      (Edit.addPort cut.zip "out" .output type).run unzipped = .ok cut.base ported ∧
      (Edit.addPort cut.unzip "in" .input type).run ported = .ok (cut.base + 1) portedToo ∧
      (Edit.connect cut.base (cut.base + 1)).run portedToo = .ok () next ∧ cut.hierarchy = hier ∧
      cut.lanes = [] ∧ net.Cuts cut next := by
  obtain ⟨zip, zipped, addsZip, added⟩ := run_addFresh inv "_zip" .zip top
  obtain ⟨unzip, unzipped, addsUnzip, addedToo⟩ := run_addFresh added.inv "_unzip" .unzip top
  have evoZip := (Edit.safe_addFresh ..).evolves inv addsZip
  have evoUnzip := (Edit.safe_addFresh ..).evolves added.inv addsUnzip
  have gotFirst : zipped.process? zip = some ⟨.zip, hier, [], []⟩ := by
    rw [added.processes, if_pos rfl]
  have apart : zip ≠ unzip := by
    rintro rfl
    simp [addedToo.absent] at gotFirst
  have gotZip : unzipped.process? zip = some ⟨.zip, hier, [], []⟩ := by
    rw [addedToo.processes, if_neg apart, gotFirst]
  have samePorts : unzipped.ports = net.ports := addedToo.ports.trans added.ports
  -- Both processes get a port, and have none before.
  obtain ⟨ported, addsExit, hasExit⟩ :=
    addedToo.inv.run_addPort gotZip "out" .output type (by simp [Process.ports])
  have gotUnzip : ported.process? unzip = some ⟨.unzip, hier, [], []⟩ := by
    rw [hasExit.processes, if_neg (Ne.symm apart), addedToo.processes, if_pos rfl]
  obtain ⟨portedToo, addsEntry, hasEntry⟩ :=
    hasExit.evolves.inv.run_addPort gotUnzip "in" .input type (by simp [Process.ports])
  have keyExit : unzipped.ports.nextKey = net.ports.nextKey := by rw [samePorts]
  have keyEntry : ported.ports.nextKey = net.ports.nextKey + 1 := by rw [hasExit.nextKey, keyExit]
  rw [keyExit] at addsExit
  rw [keyEntry] at addsEntry
  have atExit : portedToo.port? net.ports.nextKey = some ⟨"out", zip, .output, type, none⟩ := by
    rw [hasEntry.port_of_lt (by lia), hasExit.ports, if_pos keyExit.symm]
  have atEntry : portedToo.port? (net.ports.nextKey + 1) =
      some ⟨"in", unzip, .input, type, none⟩ := by
    rw [hasEntry.ports, if_pos keyEntry.symm]
  have connects := Edit.run_connect_free atExit atEntry rfl rfl rfl rfl
  have rewired : portedToo.Rewired (portedToo.join net.ports.nextKey (net.ports.nextKey + 1)) :=
    hasEntry.evolves.inv.link atExit atEntry rfl rfl rfl rfl
  have evo :=
    (((evoZip.trans evoUnzip).trans hasExit.evolves).trans hasEntry.evolves).trans rewired.evolves
  have procs (id : ProcessId) : (portedToo.join net.ports.nextKey (net.ports.nextKey + 1)).process?
      id = if id = unzip then some ⟨.unzip, hier, [net.ports.nextKey + 1], []⟩
      else if id =
        zip then some ⟨.zip, hier, [], [net.ports.nextKey]⟩ else unzipped.process? id := by
    rw [rewired.processes, hasEntry.processes, hasExit.processes, keyEntry, keyExit]
    rfl
  refine ⟨⟨zip, unzip, hier, net.ports.nextKey, []⟩, zipped, unzipped, ported, portedToo, _,
    addsZip, addsUnzip, addsExit, addsEntry, connects, rfl, rfl, evo, rfl, ?_, added.unused, ?_,
    apart, ?_, ?_, ?_, ?_, by simp, by simp, by simp, ?_, ?_, ?_⟩
  · rw [rewired.nextKey, hasEntry.nextKey, keyEntry]
    rfl
  · exact fun taken => addedToo.unused (evoZip.keepsTaken taken)
  · rw [procs, if_neg apart, if_pos rfl]
    rfl
  · rw [procs, if_pos rfl]
    rfl
  · intro id notZip notUnzip
    rw [procs, if_neg notUnzip, if_neg notZip, addedToo.processes, if_neg notUnzip, added.processes,
      if_neg notZip]
  · intro key isOld
    rw [rewired.declared, hasEntry.port_of_lt (by lia), hasExit.port_of_lt (by lia),
      port?, samePorts]
    rfl
  · intro src dst
    have same : unzipped.Connects src dst ↔
      net.Connects src dst := by simp [Connects, port?, samePorts]
    rw [connects_join atExit atEntry rfl rfl rfl, hasEntry.connects rfl, hasExit.connects rfl, same]
    simp
  · rw [rewired.inputs, hasEntry.inputs, hasExit.inputs, addedToo.inputs, added.inputs]
  · rw [rewired.outputs, hasEntry.outputs, hasExit.outputs, addedToo.outputs, added.outputs]

/-- The only out-port of a process and the port that it is connected to. -/
def Exits (net : Network) (id : ProcessId) (lane : PortKey × PortKey) : Prop :=
  ∃ process, net.process? id = some process ∧ process.outPorts = [lane.1] ∧
    net.Connects lane.1 lane.2

/-- The name of a port of an index is that of no other index. -/
theorem Cuts.names (cuts : net.Cuts cut next) :
    (∀ key ∈ cut.zipper.inPorts, ∀ port, next.port? key = some port →
      port.name ≠ "in" ++ toString cut.lanes.length) ∧
    ∀ key ∈ cut.unzipper.outPorts, ∀ port, next.port? key = some port →
      port.name ≠ "out" ++ toString cut.lanes.length := by
  have differ {branch} (bound : branch < cut.lanes.length) (stem : String) :
      stem ++ toString branch ≠ stem ++ toString cut.lanes.length := fun same => by
    have digits : toString branch = toString cut.lanes.length :=
      (String.append_right_inj stem).mp same
    exact Nat.ne_of_lt bound (Nat.repr_inj.mp digits)
  constructor
  · intro key mem port has
    obtain ⟨branch, inRange, rfl⟩ := mem_map.mp mem
    have bound := mem_range.mp inRange
    have named := of_found has (cuts.entry bound)
    exact named ▸ differ bound "in"
  · intro key mem port has
    obtain ⟨branch, inRange, rfl⟩ := mem_map.mp mem
    have bound := mem_range.mp inRange
    have named := of_found has (cuts.exit bound)
    exact named ▸ differ bound "out"

namespace Cuts

variable (cuts : net.Cuts cut next)

include cuts

theorem ne_of_stored (inv : net.Consistent) {id : ProcessId} {proc : Process}
    (got : net.process? id = some proc) : id ≠ cut.zip ∧ id ≠ cut.unzip := by
  have taken := inv.taken got
  constructor
  · rintro rfl
    exact cuts.unusedZip taken
  · rintro rfl
    exact cuts.unusedUnzip taken

theorem process_of (inv : net.Consistent) {id : ProcessId} {proc : Process}
    (got : net.process? id = some proc) : next.process? id = some proc := by
  obtain ⟨notZip, notUnzip⟩ := cuts.ne_of_stored inv got
  rw [cuts.processes notZip notUnzip, got]

theorem process_cases {id : ProcessId} {proc : Process} (got : next.process? id = some proc) :
    id = cut.zip ∧ proc = cut.zipper ∨ id = cut.unzip ∧ proc = cut.unzipper ∨
    net.process? id = some proc := by
  by_cases isZip : id = cut.zip
  · subst isZip
    exact .inl ⟨rfl, Option.mem_unique got cuts.zipped⟩
  by_cases isUnzip : id = cut.unzip
  · subst isUnzip
    exact .inr (.inl ⟨rfl, Option.mem_unique got cuts.unzipped⟩)
  · exact .inr (.inr ((cuts.processes isZip isUnzip).symm.trans got))

theorem connects_inAt (isLane : cut.lanes[branch]? = some lane) :
    next.Connects lane.1 (cut.inAt branch) :=
  cuts.connects.mpr (.inr (.inr ⟨branch, lane, isLane, .inl ⟨rfl, rfl⟩⟩))

theorem connects_outAt (isLane : cut.lanes[branch]? = some lane) :
    next.Connects (cut.outAt branch) lane.2 :=
  cuts.connects.mpr (.inr (.inr ⟨branch, lane, isLane, .inr ⟨rfl, rfl⟩⟩))

theorem connects_base : next.Connects cut.base (cut.base + 1) :=
  cuts.connects.mpr (.inr (.inl ⟨rfl, rfl⟩))

/-- A port that is no end of a connection that was cut stays as it is. -/
theorem port_of (linked : net.Linked) {key : PortKey} {port : Port}
    (has : net.port? key = some port)
    (elsewhere : ∀ lane ∈ cut.lanes, key ≠ lane.1 ∧ key ≠ lane.2) : next.port? key = some port := by
  obtain ⟨new, hasNew, same⟩ := exists_of_declared (cuts.declared (lt_nextKey has)) has
  have facing := (Port.unlinked_eq.mp same).2.2.1
  have old : key < cut.base := cuts.base ▸ lt_nextKey has
  -- No connection of the cut starts or ends at an old port.
  have leaves (other : PortKey) : next.Connects key other ↔ net.Connects key other := by
    rw [cuts.connects]
    constructor
    · rintro (⟨stays, -⟩ | ⟨rfl, -⟩ | ⟨branch, lane, isLane, ⟨isEnd, -⟩ | ⟨rfl, -⟩⟩)
      · exact stays
      · exact absurd old (Nat.lt_irrefl _)
      · exact absurd isEnd (elsewhere lane (mem_of_getElem? isLane)).1
      · exact absurd (show cut.base + 3 + 2 * branch < cut.base from old) (by lia)
    · grind
  have enters (other : PortKey) : next.Connects other key ↔ net.Connects other key := by
    rw [cuts.connects]
    constructor
    · rintro (⟨stays, -⟩ | ⟨-, rfl⟩ | ⟨branch, lane, isLane, ⟨-, rfl⟩ | ⟨-, isEnd⟩⟩)
      · exact stays
      · exact absurd old (by lia)
      · exact absurd (show cut.base + 2 + 2 * branch < cut.base from old) (by lia)
      · grind
    · grind
  have link : new.connection = port.connection := Option.ext fun other => by
    cases side : port.direction with
    | input =>
      exact (cuts.evolves.inv.linked.connection_eq_some hasNew (facing.trans side)).trans
        ((enters other).trans (linked.connection_eq_some has side).symm)
    | output =>
      exact (connects_iff_connection hasNew (facing.trans side)).symm.trans
        ((leaves other).trans (connects_iff_connection has side))
  rw [hasNew, Port.eq_of_unlinked same link]

theorem exists_port {key : PortKey} {port : Port} (has : net.port? key = some port) :
    ∃ new, next.port? key = some new ∧ new.owner = port.owner := by
  obtain ⟨new, hasNew, same⟩ := exists_of_declared (cuts.declared (lt_nextKey has)) has
  exact ⟨new, hasNew, (Port.unlinked_eq.mp same).2.1⟩

theorem run_threadBranches {lanes : List (PortKey × PortKey)} (inv : net.Consistent)
    (exits : List.Forall₂ net.Exits column lanes)
    (once : ((cut.lanes ++ lanes).map Prod.fst).Nodup) :
    ∃ last, ((column.zipIdx cut.lanes.length).forM fun (id, branch) =>
        Edit.threadBranch cut.zip cut.unzip id branch).run next = .ok () last ∧
      net.Cuts { cut with lanes := cut.lanes ++ lanes } last := by
  -- Induction on the branches that are left; each one becomes a lane of the cut.
  induction exits generalizing cut next with
  | nil =>
    refine ⟨next, rfl, ?_⟩
    rwa [append_nil]
  | @cons id lane column lanes exit _ ih =>
    obtain ⟨proc, got, ports, connects⟩ := exit
    have fresh : ∀ earlier ∈ cut.lanes, lane.1 ≠ earlier.1 := fun earlier mem same => by
      rw [map_append, nodup_append] at once
      exact once.2.2 _ (mem_map_of_mem mem) _ (mem_cons_self) same.symm
    have stays : next.Connects lane.1 lane.2 :=
      cuts.connects.mpr (.inl ⟨connects, fun mem => fresh _ mem rfl⟩)
    obtain ⟨freeZip, freeUnzip⟩ := cuts.names
    obtain ⟨between, threads, threaded⟩ :=
      run_threadBranch cuts.evolves.inv (cuts.process_of inv got)
        (show proc.outPorts[0]? = some lane.1 by simp [ports]) stays cuts.zipped cuts.unzipped
          cuts.apart freeZip freeUnzip
    have pushed := cuts.push inv.linked connects fresh threaded
    have lanesPushed : (cut.push lane).lanes ++ lanes = cut.lanes ++ lane :: lanes := by
      simp [Cut.push]
    obtain ⟨last, threadsRest, cutsRest⟩ := ih pushed (by rw [lanesPushed]; exact once)
    refine ⟨last, ?_, lanesPushed ▸ cutsRest⟩
    rw [show (cut.push lane).lanes.length = cut.lanes.length + 1 by simp [Cut.push]] at threadsRest
    show (Edit.threadBranch cut.zip cut.unzip id cut.lanes.length >>= fun _ =>
      (column.zipIdx (cut.lanes.length + 1)).forM _).run
      next = _
    rw [EStateM.run_bind, threads]
    exact threadsRest

end Cuts

theorem run_cutAt (inv : net.Consistent) {lanes : List (PortKey × PortKey)}
    (exits : List.Forall₂ net.Exits column lanes) (once : (lanes.map Prod.fst).Nodup)
    (nonempty : column ≠ []) (top : hier.parent? = none) (branches : Nat) :
    ∃ cut next, (Edit.cutAt hier branches column).run net = .ok () next ∧ cut.hierarchy = hier ∧
      cut.lanes = lanes ∧ net.Cuts cut next := by
  cases exits with
  | nil => exact absurd rfl nonempty
  | @cons sample lane column lanes exit others =>
    obtain ⟨proc, got, ports, port, has, -⟩ := id exit
    obtain ⟨cut, zipped, unzipped, ported, portedToo, between, addsZip, addsUnzip, addsExit,
      addsEntry, connects, place, bare, cuts⟩ :=
      exists_cuts_nil inv top (arrayOf port.dataType branches)
    have onceAll : ((cut.lanes ++ lane :: lanes).map Prod.fst).Nodup := by rwa [bare]
    obtain ⟨next, threads, cutsAll⟩ := cuts.run_threadBranches inv (.cons exit others) onceAll
    refine ⟨{ cut with lanes := cut.lanes ++ lane :: lanes }, next, ?_,
      place, by simp [bare], cutsAll⟩
    have asked : net.portAt sample .output 0 = .ok lane.1 :=
      portAt_eq got (by simp [Process.ports, ports])
    rw [bare] at threads
    simp only [Edit.cutAt, EStateM.run_bind, EStateM.run_get, asked, Edit.run_answer,
      port_eq_ok.mpr has, addsZip, addsUnzip, addsExit, addsEntry, connects]
    exact threads

end Network

end Dataflow
