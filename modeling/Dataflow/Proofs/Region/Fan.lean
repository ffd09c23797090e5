import Dataflow.Proofs.Region.Enclosed
import Dataflow.Proofs.Schedule.Verified

/-!
Networks that are one bundle of equal branches between two maps.

A fan is described by what is stored and by what is connected to what, position by position. Nothing
else is connected, so it has no loops and is legal, and the search for sections comes upon its
bundle.
-/

open List Option

namespace Dataflow.Network

variable {net : Network} {id src sink dst : ProcessId} {reg : Section}
  {chains : List (List ProcessId)}
  {fns : List Func} {kind : Kind Composite} {ins outs idx place : Nat} {key other : PortKey}
  {chain : List ProcessId}

/-- A process of that kind is stored at the top level, with so many in-ports and out-ports. -/
def Stores (net : Network) (id : ProcessId) (kind : Kind Composite) (ins outs : Nat) : Prop :=
  ∃ process ∈ net.process? id, process.kind = kind ∧ process.hierarchy = {} ∧
    process.inPorts.length = ins ∧ process.outPorts.length = outs

/-- An out-port of one process is connected to an in-port of another one, each at its position. -/
def Joins (net : Network) (source : ProcessId) (exit : Nat) (target : ProcessId) (entry : Nat) :
    Prop :=
  ∃ key ∈ net.portAt? source .output exit, ∃ other ∈ net.portAt? target .input entry,
    (net.port? key).bind (·.connection) = some other

instance : Decidable (net.Stores id kind ins outs) :=
  inferInstanceAs (Decidable (∃ process ∈ net.process? id, _))

instance : Decidable (net.Joins src idx dst place) :=
  inferInstanceAs (Decidable (∃ key ∈ net.portAt? src .output idx, _))

/-- A map feeds an unzip that leads into branches of maps with the same functions, which end at a
zip that feeds a map. -/
structure Fan (net : Network) (source sink : ProcessId) (region : Section)
    (chains : List (List ProcessId)) (functions : List Func) : Prop where
  wellFormed : net.WellFormed
  covers : ∀ id ∈ net.ids, id ∈ source :: sink :: region.members chains
  once : (source :: sink :: region.members chains).Nodup
  first : ∃ function, net.Stores source (.map function) 1 1
  last : ∃ function, net.Stores sink (.map function) 1 1
  start : net.Stores region.start .unzip 1 chains.length
  stop : net.Stores region.stop .zip chains.length 1
  maps : ∀ chain ∈ chains,
    List.Forall₂ (fun id function => net.Stores id (.map function) 1 1) chain functions
  enters : net.Joins source 0 region.start 0
  opens : ∀ branch ∈ chains.zipIdx, ∃ first ∈ branch.1.head?,
    net.Joins region.start branch.2 first 0
  chained : ∀ chain ∈ chains, chain.IsChain fun id next => net.Joins id 0 next 0
  closes : ∀ branch ∈ chains.zipIdx, ∃ last ∈ branch.1.getLast?,
    net.Joins last 0 region.stop branch.2
  leaves : net.Joins region.stop 0 sink 0
  inputs : net.inputs = (net.portAt? source .input 0).toList
  outputs : net.outputs = (net.portAt? sink .output 0).toList
  free : ∀ key ∈ net.inputs ++ net.outputs, (net.port? key).bind (·.connection) = none
  several : 2 ≤ chains.length
  typed : ∃ type, ∀ function ∈ functions, function.inputType? = some type ∧
    function.outputType = type

namespace Stores

theorem exists_process (stores : net.Stores id kind ins outs) :
    ∃ proc, net.process? id = some proc ∧ proc.kind = kind ∧ proc.hierarchy = {} ∧
      proc.inPorts.length = ins ∧ proc.outPorts.length = outs :=
  stores

theorem lt_of_portAt? (stores : net.Stores id kind ins outs)
    (mem : net.portAt? id .output idx = some key) : idx < outs := by
  obtain ⟨proc, got, -, -, -, rfl⟩ := stores.exists_process
  have atIdx := of_found got (portAt?_eq_some.mp mem)
  exact (List.getElem?_eq_some_iff.mp atIdx).1

theorem simple (stores : net.Stores id kind 1 1) : net.Simple id := by
  obtain ⟨proc, got, -, -, ins, outs⟩ := stores.exists_process
  obtain ⟨entry, entered⟩ := length_eq_one_iff.mp ins
  obtain ⟨exit, left⟩ := length_eq_one_iff.mp outs
  exact ⟨proc, entry, exit, got, entered, left⟩

theorem portAt?_eq (stores : net.Stores id kind 1 1) (inv : net.Consistent) {port : Port}
    (has : net.port? key = some port) (owned : port.owner = id) :
    net.portAt? id port.direction 0 = some key := by
  obtain ⟨proc, entry, exit, got, ins, outs⟩ := stores.simple
  have mem := inv.mem_ports got has owned
  refine portAt?_eq_some.mpr ⟨proc, got, ?_⟩
  cases dir : port.direction <;> simp_all [Process.ports]

theorem kindOf_eq (stores : net.Stores id kind ins outs) : net.kindOf id = kind := by
  obtain ⟨proc, got, isKind, -⟩ := stores.exists_process
  rw [kindOf, got, elim_some, isKind]

end Stores

namespace Joins

variable (joins : net.Joins src idx dst place) (inv : net.Consistent)

include joins inv

theorem exists_connects :
    ∃ key other, net.portAt? src .output idx = some key ∧
      net.portAt? dst .input place = some other ∧ net.Connects key other := by
  obtain ⟨key, isKey, other, isOther, leads⟩ := joins
  obtain ⟨port, has, conn⟩ := bind_eq_some_iff.mp leads
  obtain ⟨-, leaves⟩ := of_found has (inv.exists_port isKey)
  exact ⟨key, other, isKey, isOther, port, has, leaves, conn⟩

theorem feeds : net.Feeds src dst := by
  obtain ⟨key, other, isKey, isOther, connects⟩ := joins.exists_connects inv
  obtain ⟨port, has, owned, -⟩ := inv.exists_port isKey
  obtain ⟨peer, hasPeer, ownedPeer, -⟩ := inv.exists_port isOther
  exact feeds_iff_connects.mpr ⟨key, other, connects, ⟨port, has, owned⟩, peer, hasPeer, ownedPeer⟩

theorem remote (mem : net.portAt? src .output idx = some key) : net.remote key = some dst := by
  obtain ⟨too, other, isKey, isOther, port, has, -, conn⟩ := joins.exists_connects inv
  obtain rfl := mem_unique mem isKey
  obtain ⟨peer, hasPeer, ownedPeer, -⟩ := inv.exists_port isOther
  exact remote_eq_some.mpr ⟨port, other, peer, has, conn, hasPeer, ownedPeer⟩

end Joins

theorem Simple.joins (simple : net.Simple src) (simpleDst : net.Simple dst) (inv : net.Consistent)
    (feeds : net.Feeds src dst) : net.Joins src 0 dst 0 := by
  obtain ⟨front, -, exit, got, -, outs⟩ := simple
  obtain ⟨back, entry, -, gotDst, ins, -⟩ := simpleDst
  obtain ⟨port, peer, has, -, -, conn, -⟩ := inv.connection_of_feeds feeds got outs gotDst ins
  refine ⟨exit, portAt?_eq_some.mpr ⟨front, got, ?_⟩, entry,
    portAt?_eq_some.mpr ⟨back, gotDst, ?_⟩, ?_⟩
  · simp [Process.ports, outs]
  · simp [Process.ports, ins]
  · simp [has, conn]

theorem Consistent.exists_portAt? (inv : net.Consistent) (feeds : net.Feeds src dst) :
    ∃ idx key, net.portAt? src .output idx = some key ∧ net.remote key = some dst := by
  obtain ⟨proc, got⟩ := inv.exists_source feeds
  obtain ⟨key, mem, leads⟩ := (inv.feeds_iff_out got).mp feeds
  obtain ⟨idx, atIdx⟩ := getElem?_of_mem mem
  exact ⟨idx, key, portAt?_eq_some.mpr ⟨proc, got, atIdx⟩, leads⟩

theorem Stores.eq_of_feeds (stores : net.Stores src kind ins 1) (inv : net.Consistent)
    (joins : net.Joins src 0 id place) (feeds : net.Feeds src dst) : dst = id := by
  obtain ⟨idx, key, mem, leads⟩ := inv.exists_portAt? feeds
  obtain rfl : idx = 0 := Nat.lt_one_iff.mp (stores.lt_of_portAt? mem)
  exact mem_unique leads (joins.remote inv mem)

namespace Fan

variable (fan : net.Fan src sink reg chains fns)

include fan

theorem exists_map (mem : chain ∈ chains) (onChain : id ∈ chain) :
    ∃ fn ∈ fns, net.Stores id (.map fn) 1 1 := by
  obtain ⟨fn, isFn, stores⟩ := exists_of_forall₂ (fan.maps chain mem).flip onChain
  exact ⟨fn, isFn, stores⟩

theorem feeds_cases (feeds : net.Feeds id dst) :
    id = src ∧ dst = reg.start ∨ id = reg.start ∧ (∃ chain ∈ chains, chain.head? = some dst) ∨
    (∃ chain ∈ chains, ∃ front back, chain = front ++ id :: dst :: back) ∨
    (∃ chain ∈ chains, chain.getLast? = some id) ∧ dst = reg.stop ∨ id = reg.stop ∧ dst = sink := by
  -- The process that feeds is one of the fan, and what each of its out-ports is joined to is known.
  have inv := fan.wellFormed.toConsistent
  obtain ⟨proc, got⟩ := inv.exists_source feeds
  have covered := fan.covers id (mem_ids.mpr ⟨proc, got⟩)
  simp only [mem_cons, Section.mem_members] at covered
  rcases covered with rfl | rfl | rfl | rfl | ⟨chain, mem, onChain⟩
  · obtain ⟨fn, stores⟩ := fan.first
    exact .inl ⟨rfl, stores.eq_of_feeds inv fan.enters feeds⟩
  · obtain ⟨idx, key, atIdx, leads⟩ := inv.exists_portAt? feeds
    obtain ⟨fn, stores⟩ := fan.last
    obtain rfl : idx = 0 := Nat.lt_one_iff.mp (stores.lt_of_portAt? atIdx)
    have free := fan.free key (by simp [fan.outputs, atIdx])
    obtain ⟨port, other, peer, has, conn, -⟩ := remote_eq_some.mp leads
    simp [has, conn] at free
  · obtain ⟨idx, key, atIdx, leads⟩ := inv.exists_portAt? feeds
    have bound := fan.start.lt_of_portAt? atIdx
    obtain ⟨first, starts, joins⟩ :=
      fan.opens (chains[idx], idx) (mem_zipIdx_iff_getElem?.mpr (getElem?_eq_getElem bound))
    obtain rfl := mem_unique leads (joins.remote inv atIdx)
    exact .inr (.inl ⟨rfl, chains[idx], getElem_mem bound, starts⟩)
  · exact .inr (.inr (.inr (.inr ⟨rfl, fan.stop.eq_of_feeds inv fan.leaves feeds⟩)))
  · obtain ⟨fn, -, stores⟩ := fan.exists_map mem onChain
    by_cases isLast : chain.getLast? = some id
    · obtain ⟨idx, atIdx⟩ := getElem?_of_mem mem
      have joins := of_found isLast (fan.closes (chain, idx) (mem_zipIdx_iff_getElem?.mpr atIdx))
      exact .inr (.inr (.inr (.inl ⟨⟨chain, mem, isLast⟩, stores.eq_of_feeds inv joins feeds⟩)))
    · obtain ⟨front, next, back, split, joins⟩ :=
        exists_next_of_isChain (fan.chained chain mem) onChain isLast
      obtain rfl := stores.eq_of_feeds inv joins feeds
      exact .inr (.inr (.inl ⟨chain, mem, front, back, split⟩))

/-- Every process of a fan is a map, its unzip or its zip. -/
theorem process_cases {proc : Process} (got : net.process? id = some proc) : proc.hierarchy = {} ∧
    ((∃ fn, proc.kind = .map fn) ∧ proc.inPorts.length = 1 ∧ proc.outPorts.length = 1 ∨
      proc.kind = .unzip ∧ proc.inPorts.length = 1 ∧ proc.outPorts.length = chains.length ∨
      proc.kind = .zip ∧ proc.inPorts.length = chains.length ∧ proc.outPorts.length = 1) := by
  have known {kind ins outs} (stores : net.Stores id kind ins outs) :
      proc.kind = kind ∧ proc.hierarchy = {} ∧ proc.inPorts.length = ins ∧
      proc.outPorts.length = outs := by
    have facts := of_found got stores.exists_process
    exact facts
  have covered := fan.covers id (mem_ids.mpr ⟨proc, got⟩)
  simp only [mem_cons, Section.mem_members] at covered
  rcases covered with rfl | rfl | rfl | rfl | ⟨chain, mem, onChain⟩
  · obtain ⟨fn, stores⟩ := fan.first
    obtain ⟨kind, top, ports⟩ := known stores
    exact ⟨top, .inl ⟨⟨fn, kind⟩, ports⟩⟩
  · obtain ⟨fn, stores⟩ := fan.last
    obtain ⟨kind, top, ports⟩ := known stores
    exact ⟨top, .inl ⟨⟨fn, kind⟩, ports⟩⟩
  · obtain ⟨kind, top, ports⟩ := known fan.start
    exact ⟨top, .inr (.inl ⟨kind, ports⟩)⟩
  · obtain ⟨kind, top, ports⟩ := known fan.stop
    exact ⟨top, .inr (.inr ⟨kind, ports⟩)⟩
  · obtain ⟨fn, -, stores⟩ := fan.exists_map mem onChain
    obtain ⟨kind, top, ports⟩ := known stores
    exact ⟨top, .inl ⟨⟨fn, kind⟩, ports⟩⟩

/-- The processes of a fan, each behind what feeds it. -/
theorem ordered (feeds : net.Feeds id dst) :
    [id, dst].Sublist (src :: reg.start :: (chains.flatten ++ [reg.stop, sink])) := by
  have onBranch {chain id} (mem : chain ∈ chains) (onChain : id ∈ chain) :
      [id].Sublist chains.flatten :=
    singleton_sublist.mpr (mem_flatten.mpr ⟨chain, mem, onChain⟩)
  rcases fan.feeds_cases feeds
    with ⟨rfl, rfl⟩ | ⟨rfl, chain, mem, starts⟩ | ⟨chain, mem, front, back, rfl⟩ |
    ⟨⟨chain, mem, stops⟩, rfl⟩ | ⟨rfl, rfl⟩
  · exact ((nil_sublist _).cons_cons _).cons_cons _
  · refine List.Sublist.cons _ (List.Sublist.cons_cons _ ?_)
    exact (onBranch mem (mem_of_head? starts)).trans (sublist_append_left ..)
  · have onChain : [id, dst].Sublist (front ++ id :: dst :: back) :=
      (((nil_sublist back).cons_cons dst).cons_cons id).trans (sublist_append_right ..)
    exact ((onChain.trans (sublist_flatten_of_mem mem)).trans (sublist_append_left ..)).cons _
      |>.cons _
  · have last :=
      (onBranch mem (mem_of_getLast? stops)).append ((nil_sublist [sink]).cons_cons reg.stop)
    exact (last.cons _).cons _
  · exact ((sublist_append_right ..).cons _).cons _

theorem not_isLoop {loop : List ProcessId} : ¬ net.IsLoop loop := fun isLoop => by
  have once := fan.once
  simp only [Section.members, nodup_cons, mem_cons, not_or] at once
  refine Schedule.not_ordered_of_isLoop ?_ isLoop (fun id onLoop => ?_) fun id _ _ old feeds =>
    fan.ordered feeds
  · grind
  · obtain ⟨dst, -, feeds⟩ := isLoop.exists_next onLoop
    obtain ⟨proc, got⟩ := fan.wellFormed.exists_source feeds
    obtain ⟨-, cases⟩ := fan.process_cases got
    refine ⟨?_, (fan.ordered feeds).subset mem_cons_self⟩
    rcases cases with ⟨⟨fn, kind⟩, -⟩ | ⟨kind, -⟩ | ⟨kind, -⟩ <;>
      simp [isDelay, got, kind, Kind.isDelay]

/-- A fan is legal. -/
theorem legal : net.Legal where
  leaves got := by
    rcases (fan.process_cases got).2 with ⟨⟨fn, kind⟩, -⟩ | ⟨kind, -⟩ | ⟨kind, -⟩ <;>
      simp [kind, Kind.isLeaf, Kind.inside?]
  fits got := by
    have nonempty : chains ≠ [] :=
      ne_nil_of_length_pos (Nat.lt_of_lt_of_le Nat.zero_lt_two fan.several)
    rcases (fan.process_cases got).2
      with ⟨⟨fn, kind⟩, ins, outs⟩ | ⟨kind, ins, outs⟩ | ⟨kind, ins, outs⟩ <;>
      simp [Process.defect?, Process.arityDefect?, Kind.payloadDefect?, kind, Kind.arity,
      Arity.admits, ins, outs, nonempty]
  unconnected {key port} onBdry has := by
    have free := fan.free key (by simpa [isBoundary] using onBdry)
    simpa [has] using free
  delayed isLoop := absurd isLoop fan.not_isLoop
  single isLoop := absurd isLoop fan.not_isLoop

/-- Each branch of a fan leads from a port of its unzip to its zip. -/
theorem branch (isChain : chains[idx]? = some chain)
    (atIdx : net.portAt? reg.start .output idx = some key) : net.Branch reg.stop key chain := by
  have inv := fan.wellFormed.toConsistent
  have mem := mem_of_getElem? isChain
  have isBranch : (chain, idx) ∈ chains.zipIdx := mem_zipIdx_iff_getElem?.mpr isChain
  obtain ⟨first, starts, joins⟩ := fan.opens _ isBranch
  obtain ⟨last, stops, joinsStop⟩ := fan.closes _ isBranch
  refine ⟨(joins.remote inv atIdx).trans starts.symm, ⟨fun id onChain => ?_, ?_, ?_⟩,
    fun id onChain => ?_, last, stops, joinsStop.feeds inv⟩
  · obtain ⟨fn, -, stores⟩ := fan.exists_map mem onChain
    exact stores.simple
  · exact (fan.chained chain mem).imp fun _ _ joins => joins.feeds inv
  · have once := fan.once
    simp only [Section.members, nodup_cons] at once
    exact (List.nodup_flatten.mp once.2.2.2.2).1 chain mem
  · obtain ⟨fn, -, stores⟩ := fan.exists_map mem onChain
    rw [isMapShaped_eq, stores.kindOf_eq, Kind.isMapShaped]

theorem bundle : net.Bundle reg chains := by
  obtain ⟨proc, got, kind, -, -, outs⟩ := fan.start.exists_process
  refine ⟨⟨proc,
    got, by rw [kind, Kind.isUnzip], forall₂_iff_get.mpr ⟨outs, fun idx bound boundToo => ?_⟩⟩, ?_⟩
  · refine fan.branch (getElem?_eq_getElem boundToo) (portAt?_eq_some.mpr ⟨proc, got, ?_⟩)
    exact getElem?_eq_getElem bound
  · obtain ⟨proc, got, kind, -⟩ := fan.stop.exists_process
    simp [isZip, got, kind, Kind.isZip]

/-- Nothing but its branches leads into the bundle of a fan. -/
theorem enclosed : net.Enclosed reg chains := by
  have inv := fan.wellFormed.toConsistent
  refine ⟨⟨fan.bundle, fun {key port} has owned enters => ?_⟩, fun feeds => ?_⟩
  · -- Every in-port of the zip is at the position of some branch.
    obtain ⟨proc, got, -, -, ins, -⟩ := fan.stop.exists_process
    have mem := inv.mem_ports got has owned
    rw [enters] at mem
    obtain ⟨idx, atIdx⟩ := getElem?_of_mem mem
    have bound : idx < chains.length := ins ▸ (List.getElem?_eq_some_iff.mp atIdx).1
    obtain ⟨last, -, joins⟩ :=
      fan.closes (chains[idx], idx) (mem_zipIdx_iff_getElem?.mpr (getElem?_eq_getElem bound))
    obtain ⟨exit, other, -, isOther, connects⟩ := joins.exists_connects inv
    obtain rfl := mem_unique (portAt?_eq_some.mpr ⟨proc, got, atIdx⟩) isOther
    obtain ⟨-, leads⟩ := of_found has (connects.exists_target inv.linked)
    simp [leads]
  · have once := fan.once
    simp only [Section.members, nodup_cons, mem_cons, not_or] at once
    have onBranch {chain id} (mem : chain ∈ chains) (onChain : id ∈ chain) : id ∈ chains.flatten :=
      mem_flatten.mpr ⟨chain, mem, onChain⟩
    rcases fan.feeds_cases feeds
      with ⟨-, same⟩ | ⟨-, chain, mem, starts⟩ | ⟨chain, mem, front, back, rfl⟩ |
      ⟨⟨chain, mem, stops⟩, -⟩ | ⟨-, same⟩
    · exact absurd same.symm once.2.2.1.1
    · exact absurd (onBranch mem (mem_of_head? starts)) once.2.2.2.1
    · exact absurd (onBranch mem (by simp)) once.2.2.2.1
    · exact onBranch mem (mem_of_getLast? stops)
    · exact absurd same.symm once.2.1.2.1

theorem map_kindOf_eq (mem : chain ∈ chains) : chain.map net.kindOf = fns.map .map := by
  have same : List.Forall₂ (fun id fn => net.kindOf id = .map fn) chain fns :=
    (fan.maps chain mem).imp fun _ _ stores => Stores.kindOf_eq stores
  rw [← forall₂_eq_eq_eq, forall₂_map_left_iff, forall₂_map_right_iff]
  exact same

theorem functionsOf_eq (mem : chain ∈ chains) : net.functionsOf chain = fns := by
  rw [functionsOf_eq_flatMap, fan.map_kindOf_eq mem, flatMap_map]
  exact flatMap_singleton' fns

theorem uniform : net.Uniform chains fns.length where
  some := ne_nil_of_length_pos (Nat.lt_of_lt_of_le Nat.zero_lt_two fan.several)
  positive := by
    have bound : 0 < chains.length := Nat.lt_of_lt_of_le Nat.zero_lt_two fan.several
    obtain ⟨first, starts, -⟩ :=
      fan.opens (chains[0], 0) (mem_zipIdx_iff_getElem?.mpr (getElem?_eq_getElem bound))
    rw [← (fan.maps _ (getElem_mem bound)).length_eq]
    exact length_pos_of_mem (mem_of_head? starts)
  lengths chain mem := (fan.maps chain mem).length_eq
  shaped chain mem id onChain := fan.bundle.isMapShaped mem onChain
  same chain mem other memOther := by rw [fan.map_kindOf_eq mem, fan.map_kindOf_eq memOther]

end Fan

end Dataflow.Network
