import Dataflow.Proofs.Edit.Move
import Dataflow.Proofs.Network.Flow

/-! Taking two ports out of their connections: what fed the first one feeds what the second one
fed. -/

open List Option

namespace Dataflow.Network

variable {net next : Network} {id : ProcessId} {proc : Process}
  {key src dst entry exit old new : PortKey} {port : Port}

theorem Linked.connects_unlink (linked : net.Linked) (has : net.port? key = some port) :
    (net.unlink key).Connects src dst ↔ net.Connects src dst ∧ src ≠ key ∧ dst ≠ key := by
  constructor
  · rintro ⟨later, hasNew, leaves, conn⟩
    rw [linked.port?_unlink has] at hasNew
    obtain ⟨former, hasOld, rfl⟩ := map_eq_some_iff.mp hasNew
    split at conn
    · cases conn
    · rename_i notSrc
      rw [Port.connection_without, filter_eq_some_iff] at conn
      rw [if_neg notSrc] at leaves
      exact ⟨⟨former, hasOld, leaves, conn.1⟩, notSrc, by simpa using conn.2⟩
  · rintro ⟨⟨former, hasOld, leaves, conn⟩, notSrc, notDst⟩
    refine ⟨former.without [key], ?_, leaves, ?_⟩
    · rw [linked.port?_unlink has, hasOld, map_some, if_neg notSrc]
    · simp_all

theorem connects_join {first second : PortKey} {peer : Port} (has : net.port? first = some port)
    (hasPeer : net.port? second = some peer) (leaves : port.direction = .output)
    (enters : peer.direction = .input) (free : port.connection = none) :
    (net.join first second).Connects src dst ↔
      net.Connects src dst ∨ src = first ∧ dst = second := by
  have apart : first ≠ second := by
    rintro rfl
    simp_all
  constructor
  · rintro ⟨later, hasNew, isOut, conn⟩
    rw [port?_join apart] at hasNew
    obtain ⟨former, hasOld, rfl⟩ := map_eq_some_iff.mp hasNew
    split at conn
    · grind
    rename_i notFirst
    split at conn
    · -- The second port is no out-port.
      grind
    · rename_i notSecond
      rw [if_neg notFirst, if_neg notSecond] at isOut
      exact .inl ⟨former, hasOld, isOut, conn⟩
  · rintro (⟨former, hasOld, isOut, conn⟩ | ⟨rfl, rfl⟩)
    · have notFirst : src ≠ first := by
        rintro rfl
        simp_all
      have notSecond : src ≠ second := by
        rintro rfl
        simp_all
      exact ⟨former, by rw [port?_join_of_ne notFirst notSecond, hasOld], isOut, conn⟩
    · exact ⟨{ port with connection := some dst }, by simp [port?_join apart, has], leaves, rfl⟩

theorem Ported.connects (ported : net.Ported proc port next) (free : port.connection = none) :
    next.Connects src dst ↔ net.Connects src dst := by
  constructor
  · rintro ⟨later, has, leaves, conn⟩
    rw [ported.ports] at has
    split at has
    · cases has
      simp [free] at conn
    · exact ⟨later, has, leaves, conn⟩
  · rintro ⟨former, has, leaves, conn⟩
    exact ⟨former, (ported.port_of_lt (lt_nextKey has)).trans has, leaves, conn⟩

/-- What is left when an in-port and an out-port are taken out of their connections. -/
structure Spliced (net : Network) (entry exit : PortKey) (next : Network) :
    Prop extends net.Rewired next where
  connects : ∀ {source target}, next.Connects source target ↔
    source ≠ exit ∧ target ≠ entry ∧
    (net.Connects source target ∨ net.Connects source entry ∧ net.Connects exit target)

theorem Consistent.run_splice (inv : net.Consistent) {first last : Port}
    (hasEntry : net.port? entry = some first) (enters : first.direction = .input)
    (hasExit : net.port? exit = some last) (leaves : last.direction = .output) :
    ∃ pre behind mid cut next, (Edit.disconnect entry).run net = .ok pre mid ∧
      (Edit.disconnect exit).run mid = .ok behind cut ∧
      (∀ src, pre = some src ↔ net.Connects src entry) ∧
      (∀ dst, behind = some dst ↔ net.Connects exit dst ∧ dst ≠ entry) ∧
      (∀ src dst, pre = some src → behind = some dst →
        (Edit.connect src dst).run cut = .ok () next) ∧
      (pre = none ∨ behind = none → next = cut) ∧
      net.Spliced entry exit next := by
  have linked := inv.linked
  have apart : exit ≠ entry := by
    rintro rfl
    simp_all
  have isInput {src} : ¬ net.Connects entry src := by
    rintro ⟨port, has, isOut, -⟩
    simp_all
  have isOutput {src} : ¬ net.Connects src exit := fun connects => by
    obtain ⟨peer, has, isIn, -⟩ := connects.exists_target linked
    simp_all
  -- First the in-port loses its connection, then the out-port does.
  obtain ⟨mid, isMid⟩ : ∃ mid, mid = net.unlink entry := ⟨_, rfl⟩
  have rewired : net.Rewired mid := isMid ▸ inv.unlink hasEntry
  have linkedMid := rewired.evolves.inv.linked
  have connectsMid {src dst} :
      mid.Connects src dst ↔ net.Connects src dst ∧ src ≠ entry ∧ dst ≠ entry :=
    isMid ▸ linked.connects_unlink hasEntry
  obtain ⟨lastMid, hasMid, same⟩ := exists_of_declared (rewired.declared exit) hasExit
  have leavesMid : lastMid.direction = .output := (Port.unlinked_eq.mp same).2.2.1.trans leaves
  obtain ⟨cut, isCut⟩ : ∃ cut, cut = mid.unlink exit := ⟨_, rfl⟩
  have whole : net.Rewired cut := rewired.trans (isCut ▸ rewired.evolves.inv.unlink hasMid)
  have connectsCut {src dst} : cut.Connects src dst ↔
      net.Connects src dst ∧ src ≠ exit ∧ dst ≠ entry := by
    rw [isCut, linkedMid.connects_unlink hasMid, connectsMid]
    constructor <;> grind
  have pre (src : PortKey) : first.connection = some src ↔ net.Connects src entry :=
    linked.connection_eq_some hasEntry enters
  have behind (dst : PortKey) : lastMid.connection = some dst ↔ net.Connects exit dst ∧
      dst ≠ entry := by
    constructor
    · intro conn
      obtain ⟨connects, -, notEntry⟩ := connectsMid.mp ⟨lastMid, hasMid, leavesMid, conn⟩
      exact ⟨connects, notEntry⟩
    · rintro ⟨connects, notEntry⟩
      obtain ⟨-, conn⟩ := of_found hasMid (connectsMid.mpr ⟨connects, apart, notEntry⟩)
      exact conn
  have disconnects := Edit.run_disconnect linked hasEntry
  have disconnectsToo := Edit.run_disconnect linkedMid hasMid
  rw [← isMid] at disconnects
  rw [← isCut] at disconnectsToo
  by_cases both : (∃ src, first.connection = some src) ∧ ∃ dst, lastMid.connection = some dst
  · obtain ⟨⟨src, isSrc⟩, dst, isDst⟩ := both
    have connectsSrc := (pre src).mp isSrc
    obtain ⟨connectsDst, notEntry⟩ := (behind dst).mp isDst
    have notExit : src ≠ exit :=
      fun same => notEntry ((same ▸ connectsSrc).target_unique connectsDst).symm
    obtain ⟨port, has, isOut, -⟩ := connectsSrc
    obtain ⟨peer, hasPeer, isIn, -⟩ := connectsDst.exists_target linked
    obtain ⟨portCut, hasCut, samePort⟩ := exists_of_declared (whole.declared src) has
    obtain ⟨peerCut, hasPeerCut, samePeer⟩ := exists_of_declared (whole.declared dst) hasPeer
    have isOutCut := (Port.unlinked_eq.mp samePort).2.2.1.trans isOut
    have isInCut := (Port.unlinked_eq.mp samePeer).2.2.1.trans isIn
    have free : portCut.connection = none := eq_none_iff_forall_ne_some.mpr fun other conn => by
      obtain ⟨connects, -, notEntry⟩ := connectsCut.mp ⟨portCut, hasCut, isOutCut, conn⟩
      exact notEntry (connects.target_unique ((pre src).mp isSrc))
    have freePeer : peerCut.connection = none := eq_none_iff_forall_ne_some.mpr fun other conn => by
      have connectsOther :=
        (whole.evolves.inv.linked.connection_eq_some hasPeerCut isInCut).mp conn
      obtain ⟨connects, notExit, -⟩ := connectsCut.mp connectsOther
      exact notExit (Connects.source_unique linked connects connectsDst)
    have joined := whole.evolves.inv.link hasCut hasPeerCut isOutCut isInCut free freePeer
    refine ⟨first.connection, lastMid.connection, mid, cut, cut.join src dst, disconnects,
      disconnectsToo, pre, behind, fun src' dst' same sameToo => ?_,
      fun none => by simp_all, whole.trans joined, ?_⟩
    · obtain rfl := mem_unique isSrc same
      obtain rfl := mem_unique isDst sameToo
      exact Edit.run_connect_free hasCut hasPeerCut isOutCut isInCut free freePeer
    · intro other far
      rw [connects_join hasCut hasPeerCut isOutCut isInCut free, connectsCut]
      constructor
      · rintro (⟨connects, notExit, notEntry⟩ | ⟨rfl, rfl⟩)
        · exact ⟨notExit, notEntry, .inl connects⟩
        · exact ⟨notExit, notEntry, .inr ⟨(pre _).mp isSrc, connectsDst⟩⟩
      · rintro ⟨notExit, notEntry, connects | ⟨connects, connectsToo⟩⟩
        · exact .inl ⟨connects, notExit, notEntry⟩
        · exact .inr ⟨Connects.source_unique linked connects ((pre _).mp isSrc),
            connectsToo.target_unique connectsDst⟩
  · refine ⟨first.connection, lastMid.connection, mid, cut, cut, disconnects, disconnectsToo, pre,
      behind, fun src dst same sameToo => absurd ⟨⟨src, same⟩, dst, sameToo⟩ both,
      fun _ => rfl, whole, ?_⟩
    intro src dst
    rw [connectsCut]
    constructor <;> grind

theorem Linked.unconnected_iff (linked : net.Linked) :
    (∀ port, net.port? key = some port → port.connection = none) ↔
      (∀ dst, ¬ net.Connects key dst) ∧ ∀ src, ¬ net.Connects src key := by
  constructor
  · intro free
    constructor
    · rintro dst ⟨port, has, -, conn⟩
      simp [free port has] at conn
    · intro src connects
      obtain ⟨peer, has, -, conn⟩ := connects.exists_target linked
      simp [free peer has] at conn
  · rintro ⟨noDst, noSrc⟩ port has
    refine eq_none_iff_forall_ne_some.mpr fun other conn => ?_
    cases side : port.direction with
    | input => exact noSrc other ((linked.connection_eq_some has side).mp conn)
    | output => exact noDst other ⟨port, has, side, conn⟩

theorem Connects.not_source (connects : net.Connects entry exit) (linked : net.Linked) :
    ¬ net.Connects exit key := by
  rintro ⟨port, has, leaves, -⟩
  obtain ⟨enters, -⟩ := of_found has (connects.exists_target linked)
  exact absurd (leaves.symm.trans enters) (by decide)

/-- Taking ports out of their connections leaves free ports free. -/
theorem Spliced.free (spliced : net.Spliced entry exit next) (linked : net.Linked)
    (free : ∀ port, net.port? key = some port → port.connection = none) :
    ∀ port, next.port? key = some port → port.connection = none := by
  rw [linked.unconnected_iff] at free
  rw [spliced.evolves.inv.linked.unconnected_iff]
  constructor
  · intro dst connects
    obtain ⟨-, -, kept | ⟨enters, -⟩⟩ := spliced.connects.mp connects
    · exact free.1 dst kept
    · exact free.1 entry enters
  · intro src connects
    obtain ⟨-, -, kept | ⟨-, leaves⟩⟩ := spliced.connects.mp connects
    · exact free.2 src kept
    · exact free.2 exit leaves

theorem isBoundary_exchange (onBdry : (net.exchangeBoundary old new).isBoundary key) :
    net.isBoundary old ∧ key = new ∨ net.isBoundary key ∧ key ≠ old := by
  simp only [isBoundary, exchangeBoundary, Bool.or_eq_true, contains_iff_mem, List.mem_map]
    at onBdry ⊢
  unfold PortKey.exchange at onBdry
  rcases onBdry with ⟨former, isInput, same⟩ | ⟨former, isOut, same⟩
  all_goals
    split at same <;> grind

theorem Consistent.exchangeBoundary (inv : net.Consistent)
    (live : old ≠ new → (net.port? new).isSome) : net.Evolves (net.exchangeBoundary old new) := by
  refine inv.setBoundary fun key mem => ?_
  have onBdry : (net.exchangeBoundary old new).isBoundary key := by
    rw [isBoundary, Bool.or_eq_true, contains_iff_mem, contains_iff_mem]
    exact mem_append.mp mem
  rcases isBoundary_exchange onBdry with ⟨wasThere, rfl⟩ | ⟨still, -⟩
  · by_cases same : old = key
    · exact inv.boundary (same ▸ wasThere)
    · exact live same
  · exact inv.boundary still

theorem exchangeBoundary_self (net : Network) (key : PortKey) :
    net.exchangeBoundary key key = net := by
  have same (keys : List PortKey) : keys.map (PortKey.exchange key key) = keys := by
    refine map_id'' (fun other => ?_) keys
    rw [PortKey.exchange]
    split
    · rename_i here
      exact here.symm
    · rfl
  rw [exchangeBoundary, same, same]

/-- Removing a process takes its connections away. -/
theorem Removed.connects (removed : net.Removed id proc next) :
    next.Connects src dst ↔ src ∉ proc.allPorts ∧ dst ∉ proc.allPorts ∧ net.Connects src dst := by
  constructor
  · rintro ⟨port, has, leaves, conn⟩
    rw [removed.ports] at has
    split at has
    · cases has
    rename_i outside
    obtain ⟨former, hasOld, rfl⟩ := map_eq_some_iff.mp has
    obtain ⟨connOld, outsideToo⟩ := filter_eq_some_iff.mp conn
    exact ⟨outside, by simpa using outsideToo, former, hasOld, leaves, connOld⟩
  · rintro ⟨outside, outsideToo, former, hasOld, leaves, conn⟩
    refine ⟨former.without proc.allPorts, by rw [removed.ports, if_neg outside, hasOld]; rfl,
      leaves, ?_⟩
    exact filter_eq_some_iff.mpr ⟨conn, by simpa using outsideToo⟩

theorem Spliced.free_target (spliced : net.Spliced entry exit next) (linked : net.Linked)
    (leads : net.Connects exit dst) (unfed : ∀ src, ¬ net.Connects src entry) :
    ∀ port, next.port? dst = some port → port.connection = none := by
  rw [spliced.evolves.inv.linked.unconnected_iff]
  constructor
  · -- The port is an in-port.
    intro other connects
    obtain ⟨-, -, kept | ⟨enters, -⟩⟩ := spliced.connects.mp connects
    · exact leads.not_source linked kept
    · exact unfed dst enters
  · intro src connects
    obtain ⟨notExit, -, kept | ⟨enters, -⟩⟩ := spliced.connects.mp connects
    · exact notExit (Connects.source_unique linked kept leads)
    · exact unfed src enters

theorem Spliced.free_source (spliced : net.Spliced entry exit next) (linked : net.Linked)
    (leads : net.Connects src entry) (ended : ∀ dst, net.Connects exit dst → dst = entry) :
    ∀ port, next.port? src = some port → port.connection = none := by
  rw [spliced.evolves.inv.linked.unconnected_iff]
  constructor
  · intro dst connects
    obtain ⟨-, notEntry, kept | ⟨-, leaves⟩⟩ := spliced.connects.mp connects
    · exact notEntry (kept.target_unique leads)
    · exact notEntry (ended dst leaves)
  · -- The port is an out-port.
    intro other connects
    obtain ⟨-, notEntry, kept | ⟨-, leaves⟩⟩ := spliced.connects.mp connects
    · exact kept.not_source linked leads
    · exact leaves.not_source linked leads

end Dataflow.Network
