import Dataflow.Proofs.Region.Rework
import Dataflow.Proofs.Transform.Split

/-! Cutting the branches of a section behind their first processes: two sections take its place. -/

open List Option

namespace Dataflow

namespace Network

variable {net next : Network} {id src dst : ProcessId} {key : PortKey} {cut : Cut} {reg : Section}
  {chains : List (List ProcessId)} {lane : PortKey × PortKey} {branch : Nat} {port : Port}
  {chain loop : List ProcessId}

namespace Cuts

variable (cuts : net.Cuts cut next)

include cuts

theorem remote_of (inv : net.Consistent) (has : net.port? key = some port)
    (elsewhere : ∀ lane ∈ cut.lanes, key ≠ lane.1 ∧ key ≠ lane.2) :
    next.remote key = net.remote key := by
  have stays := cuts.port_of inv.linked has elsewhere
  cases conn : port.connection with
  | none => simp [remote, stays, has, conn]
  | some other =>
    obtain ⟨peer, hasPeer, -⟩ := inv.linked has conn
    obtain ⟨new, hasNew, owned⟩ := cuts.exists_port hasPeer
    simp [remote, stays, has, conn, hasPeer, hasNew, owned]

theorem remote_source (mem : lane ∈ cut.lanes) : next.remote lane.1 = some cut.zip := by
  obtain ⟨branch, isLane⟩ := getElem?_of_mem mem
  obtain ⟨port, has, owned, -⟩ := cuts.evolves.inv.listed_in cuts.zipped
    (mem_map_of_mem (mem_range.mpr (List.getElem?_eq_some_iff.mp isLane).1))
  rw [(cuts.connects_inAt isLane).remote has, owned]

theorem remote_target (mem : lane ∈ cut.lanes) : next.remote lane.2 = some cut.unzip := by
  obtain ⟨branch, isLane⟩ := getElem?_of_mem mem
  obtain ⟨port, has, owned, -⟩ := cuts.evolves.inv.listed_out cuts.unzipped
    (mem_map_of_mem (mem_range.mpr (List.getElem?_eq_some_iff.mp isLane).1))
  rw [(cuts.connects_outAt isLane).remote_back cuts.evolves.inv.linked has, owned]

theorem remote_inAt (isLane : cut.lanes[branch]? = some lane) (has : net.port? lane.1 = some port) :
    next.remote (cut.inAt branch) = some port.owner := by
  obtain ⟨new, hasNew, owned⟩ := cuts.exists_port has
  rw [(cuts.connects_inAt isLane).remote_back cuts.evolves.inv.linked hasNew, owned]

theorem remote_outAt (isLane : cut.lanes[branch]? = some lane)
    (has : net.port? lane.2 = some port) : next.remote (cut.outAt branch) = some port.owner := by
  obtain ⟨new, hasNew, owned⟩ := cuts.exists_port has
  rw [(cuts.connects_outAt isLane).remote hasNew, owned]

theorem remote_base : next.remote cut.base = some cut.unzip := by
  obtain ⟨port, has, owned, -⟩ := cuts.evolves.inv.exists_in cuts.unzipped rfl
  rw [cuts.connects_base.remote has, owned]

theorem remote_behind : next.remote (cut.base + 1) = some cut.zip := by
  obtain ⟨port, has, owned, -⟩ := cuts.evolves.inv.exists_out cuts.zipped rfl
  rw [cuts.connects_base.remote_back cuts.evolves.inv.linked has, owned]

end Cuts

/-- The branches of a bundle are cut behind their first processes. -/
structure Severs (net : Network) (region : Section) (chains : List (List ProcessId)) (cut : Cut)
    (next : Network) : Prop where
  ready : net.Ready
  bundle : net.Bundle region chains
  stage : net.Stage chains 0 cut.lanes
  cuts : net.Cuts cut next

namespace Severs

theorem exists_chain (severs : net.Severs reg chains cut next)
    (isLane : cut.lanes[branch]? = some lane) :
    ∃ first second rest, chains[branch]? = some (first :: second :: rest) ∧ net.Exits first lane ∧
      net.Enters second lane.2 := by
  obtain ⟨chain, isChain, first, second, atFirst, atSecond, exits, enters⟩ :=
    exists_getElem?_of_forall₂ severs.stage isLane
  match chain, atFirst, atSecond with
  | _ :: _ :: rest, rfl, rfl => exact ⟨_, _, rest, isChain, exits, enters⟩

theorem exists_lane (severs : net.Severs reg chains cut next)
    (isChain : chains[branch]? = some chain) :
    ∃ first second rest lane, chain = first :: second :: rest ∧ cut.lanes[branch]? = some lane ∧
      net.Exits first lane ∧ net.Enters second lane.2 := by
  obtain ⟨lane, isLane, first, second, atFirst, atSecond, exits, enters⟩ :=
    exists_getElem?_of_forall₂ severs.stage.flip isChain
  match chain, atFirst, atSecond with
  | _ :: _ :: rest, rfl, rfl => exact ⟨_, _, rest, lane, rfl, isLane, exits, enters⟩

/-- A process of the branches, or one of the two processes of the cut. -/
def Inside (chains : List (List ProcessId)) (cut : Cut) (id : ProcessId) : Prop :=
  id ∈ chains.flatten ∨ id = cut.zip ∨ id = cut.unzip

section

variable (severs : net.Severs reg chains cut next)

include severs

/-- Ports of other processes are no ends of connections that are cut. -/
theorem elsewhere (has : net.port? key = some port) (outer : port.owner ∉ chains.flatten) :
    ∀ lane ∈ cut.lanes, key ≠ lane.1 ∧ key ≠ lane.2 := by
  intro lane mem
  obtain ⟨branch, isLane⟩ := getElem?_of_mem mem
  obtain ⟨first, second, rest, isChain, ⟨proc, got, outs, -⟩, follower, gotToo, ins⟩ :=
    severs.exists_chain isLane
  have memChain := mem_of_getElem? isChain
  constructor
  · rintro rfl
    obtain ⟨owned, -⟩ := of_found has (severs.ready.inv.exists_out got outs)
    exact outer (mem_flatten.mpr ⟨_, memChain, by simp [owned]⟩)
  · rintro rfl
    obtain ⟨owned, -⟩ := of_found has (severs.ready.inv.exists_in gotToo ins)
    exact outer (mem_flatten.mpr ⟨_, memChain, by simp [owned]⟩)

theorem mem_of_inside {proc : Process} (got : net.process? id = some proc)
    (inside : Inside chains cut id) : id ∈ chains.flatten := by
  obtain ⟨notZip, notUnzip⟩ := severs.cuts.ne_of_stored severs.ready.inv got
  rcases inside with isMem | isZip | isUnzip
  · exact isMem
  · exact absurd isZip notZip
  · exact absurd isUnzip notUnzip

theorem gate_outer (dir : Direction) : ¬ Inside chains cut (reg.gate dir) := by
  have bundle := severs.bundle
  intro inside
  cases dir with
  | input =>
    obtain ⟨proc, got, -⟩ := bundle.opens
    exact bundle.start_outer (severs.mem_of_inside got inside)
  | output =>
    obtain ⟨proc, got, -⟩ := (any_eq_true _ _).mp bundle.closes
    exact bundle.stop_outer (severs.mem_of_inside got inside)

theorem lanes_ne_nil : cut.lanes ≠ [] := by
  obtain ⟨chain, mem⟩ := severs.bundle.exists_chain severs.ready.legal
  obtain ⟨branch, isChain⟩ := getElem?_of_mem mem
  obtain ⟨first, second, rest, lane, -, isLane, -⟩ := severs.exists_lane isChain
  exact ne_nil_of_mem (mem_of_getElem? isLane)

theorem leadsInto (dir : Direction) (inside : Inside chains cut id) :
    next.LeadsInto dir (fun other => Inside chains cut other ∨ other = reg.gate dir) id := by
  have inv := severs.ready.inv
  have nonempty := length_pos_of_ne_nil severs.lanes_ne_nil
  -- The ends of a connection that is cut belong to the branches.
  have owner {branch} (bound : branch < cut.lanes.length) : ∃ port peer,
      net.port? cut.lanes[branch].1 = some port ∧ net.port? cut.lanes[branch].2 = some peer ∧
      port.owner ∈ chains.flatten ∧ peer.owner ∈ chains.flatten := by
    obtain ⟨first, second, rest, isChain, ⟨proc, got, outs, -⟩, follower, gotToo, ins⟩ :=
      severs.exists_chain (getElem?_eq_getElem bound)
    obtain ⟨port, has, owned, -⟩ := inv.exists_out got outs
    obtain ⟨peer, hasPeer, ownedPeer, -⟩ := inv.exists_in gotToo ins
    have memChain := mem_of_getElem? isChain
    exact ⟨port, peer, has, hasPeer, mem_flatten.mpr ⟨_, memChain, by simp [owned]⟩,
      mem_flatten.mpr ⟨_, memChain, by simp [ownedPeer]⟩⟩
  rcases inside with isMem | rfl | rfl
  · obtain ⟨proc, got, ports, onwards⟩ := severs.bundle.leadsInto inv isMem dir
    refine ⟨proc, severs.cuts.process_of inv got, ports, fun key mem => ?_⟩
    by_cases cutHere : ∃ lane ∈ cut.lanes, key = lane.1 ∨ key = lane.2
    · obtain ⟨lane, isLane, rfl | rfl⟩ := cutHere
      · exact ⟨_, severs.cuts.remote_source isLane, .inl (.inr (.inl rfl))⟩
      · exact ⟨_, severs.cuts.remote_target isLane, .inl (.inr (.inr rfl))⟩
    · obtain ⟨port, has, -⟩ := inv.listed got mem
      obtain ⟨other, leads, isInside⟩ := onwards key mem
      refine ⟨other, (severs.cuts.remote_of inv has fun lane isLane => ?_).trans leads,
        isInside.imp_left .inl⟩
      exact ⟨fun same => cutHere ⟨lane, isLane, .inl same⟩,
        fun same => cutHere ⟨lane, isLane, .inr same⟩⟩
  · refine ⟨cut.zipper, severs.cuts.zipped, ?_, fun key mem => ?_⟩
    · cases dir <;> simp [Process.ports, Cut.zipper, length_pos_iff.mp nonempty]
    · cases dir with
      | input =>
        obtain ⟨branch, inRange, rfl⟩ := mem_map.mp (show key ∈ cut.zipper.inPorts from mem)
        obtain ⟨port, peer, has, -, isOwner, -⟩ := owner (mem_range.mp inRange)
        exact ⟨_, severs.cuts.remote_inAt (getElem?_eq_getElem _) has, .inl (.inl isOwner)⟩
      | output =>
        obtain rfl := mem_singleton.mp (show key ∈ [cut.base] from mem)
        exact ⟨_, severs.cuts.remote_base, .inl (.inr (.inr rfl))⟩
  · refine ⟨cut.unzipper, severs.cuts.unzipped, ?_, fun key mem => ?_⟩
    · cases dir <;> simp [Process.ports, Cut.unzipper, length_pos_iff.mp nonempty]
    · cases dir with
      | input =>
        obtain rfl := mem_singleton.mp (show key ∈ [cut.base + 1] from mem)
        exact ⟨_, severs.cuts.remote_behind, .inl (.inr (.inl rfl))⟩
      | output =>
        obtain ⟨branch, inRange, rfl⟩ := mem_map.mp (show key ∈ cut.unzipper.outPorts from mem)
        obtain ⟨port, peer, -, hasPeer, -, isOwner⟩ := owner (mem_range.mp inRange)
        exact ⟨_, severs.cuts.remote_outAt (getElem?_eq_getElem _) hasPeer, .inl (.inl isOwner)⟩

theorem untouched (notFirst : ∀ first rest, first :: rest ∈ chains → id ≠ first) :
    net.Untouched [cut] id := by
  intro other isCut lane isLane port has owned
  obtain rfl := mem_singleton.mp isCut
  obtain ⟨branch, atBranch⟩ := getElem?_of_mem isLane
  obtain ⟨first, second, rest, isChain, ⟨proc, got, outs, -⟩, -⟩ := severs.exists_chain atBranch
  obtain ⟨ownedToo, -⟩ := of_found has (severs.ready.inv.exists_out got outs)
  exact notFirst first _ (mem_of_getElem? isChain) (owned.symm.trans ownedToo)

theorem untouched_of_mem_tail (mem : chain ∈ chains) (behind : id ∈ chain.tail) :
    net.Untouched [cut] id := by
  have inv := severs.ready.inv
  have bundle := severs.bundle
  refine severs.untouched fun first rest isChain same => ?_
  obtain rfl := bundle.eq_of_mem inv mem isChain (mem_of_mem_tail behind) (same ▸ mem_cons_self)
  obtain ⟨proc, key, -, -, -, branch⟩ := bundle.exists_branch mem
  exact (nodup_cons.mp branch.line.once).1 (same ▸ behind)

theorem untouched_of_not_mem (outer : id ∉ chains.flatten) : net.Untouched [cut] id :=
  severs.untouched fun _ _ isChain same =>
    outer (same ▸ mem_flatten.mpr ⟨_, isChain, mem_cons_self⟩)

theorem keeps : net.Keeps next (net.Untouched [cut]) := by
  have cutting : net.Cutting ([] ++ [cut]) next := .snoc .nil severs.cuts
  have split := cutting.split severs.ready.inv fun other isCut lane isLane => by
    obtain rfl := mem_singleton.mp isCut
    exact severs.cuts.connects_of_mem isLane
  exact split.keeps severs.ready.inv

theorem bundle_front : next.Bundle ⟨reg.start, cut.zip⟩ (chains.map (List.take 1)) := by
  have inv := severs.ready.inv
  have new := severs.cuts.evolves.inv
  obtain ⟨proc, got, unzips, branches⟩ := severs.bundle.opens
  refine ⟨⟨proc, severs.cuts.process_of inv got, unzips, ?_⟩, ?_⟩
  · refine forall₂_map_right_iff.mpr
      (forall₂_iff_zip.mpr ⟨branches.length_eq, fun {key chain} paired => ?_⟩)
    obtain ⟨isKey, mem⟩ := of_mem_zip paired
    have branch := (forall₂_iff_zip.mp branches).2 paired
    obtain ⟨idx, atIdx⟩ := getElem?_of_mem mem
    obtain ⟨first, second, rest, lane, rfl, isLane, ⟨head, gotHead, outs, -⟩, -⟩ :=
      severs.exists_lane atIdx
    have gotNext := severs.cuts.process_of inv gotHead
    refine ⟨?_, ⟨fun id isFirst => ?_, .singleton _, nodup_singleton _⟩, fun id isFirst => ?_,
      first, rfl, ?_⟩
    · -- The out-ports of the start are not cut.
      obtain ⟨port, has, owned, -⟩ := inv.listed_out got isKey
      have outer : port.owner ∉ chains.flatten := fun isMem => by
        obtain ⟨chain, isChain, onChain⟩ := mem_flatten.mp isMem
        exact severs.bundle.start_not_mem isChain (owned ▸ onChain)
      exact (severs.cuts.remote_of inv has (severs.elsewhere has outer)).trans branch.enters
    · obtain rfl := mem_singleton.mp isFirst
      obtain ⟨too, entry, exit, gotToo, ports⟩ := branch.line.simple id mem_cons_self
      exact ⟨too, entry, exit, severs.cuts.process_of inv gotToo, ports⟩
    · obtain rfl := mem_singleton.mp isFirst
      obtain ⟨too, gotToo, isMap⟩ := (any_eq_true _ _).mp (branch.shaped id mem_cons_self)
      simp [Network.isMapShaped, severs.cuts.process_of inv gotToo, isMap]
    · exact new.feeds_of_remote gotNext (by simp [outs])
        (severs.cuts.remote_source (mem_of_getElem? isLane))
  · simp [isZip, severs.cuts.zipped, Cut.zipper, Kind.isZip]

theorem bundle_behind : next.Bundle ⟨cut.unzip, reg.stop⟩ (chains.map List.tail) := by
  have inv := severs.ready.inv
  have new := severs.cuts.evolves.inv
  have counts := severs.stage.length_eq
  obtain ⟨closer, gotStop, zips⟩ := (any_eq_true _ _).mp severs.bundle.closes
  have stopOuter : reg.stop ∉ chains.flatten := fun isMem => severs.gate_outer .output (.inl isMem)
  refine ⟨⟨cut.unzipper, severs.cuts.unzipped, rfl, ?_⟩, ?_⟩
  · refine forall₂_iff_get.mpr ⟨by simp [Cut.unzipper, counts], fun idx bound boundToo => ?_⟩
    have inside : idx < chains.length := by simpa using boundToo
    obtain ⟨first, second, rest, lane, isChain, isLane, -, follower, gotSecond, ins⟩ :=
      severs.exists_lane (getElem?_eq_getElem inside)
    have mem : first :: second :: rest ∈ chains := isChain ▸ getElem_mem inside
    simp only [Cut.unzipper, get_eq_getElem, getElem_map, getElem_range, isChain, tail_cons]
    obtain ⟨proc, key, -, -, -, branch⟩ := severs.bundle.exists_branch mem
    have kept : ∀ id ∈ second :: rest, net.Untouched [cut] id :=
      fun id behind => severs.untouched_of_mem_tail mem behind
    obtain ⟨last, isLast, feeds⟩ := branch.leaves
    refine ⟨?_, severs.keeps.line inv new kept branch.line.tail,
      fun id isMem =>
      severs.keeps.isMapShaped (kept id isMem) (branch.shaped id (mem_cons_of_mem _ isMem)), last,
      isLast, severs.keeps.feeds inv new (kept last (mem_of_getLast? isLast))
        (severs.untouched_of_not_mem stopOuter) feeds⟩
    -- The unzip leads to where the connection led that was cut.
    obtain ⟨peer, hasPeer, rfl, -⟩ := inv.exists_in gotSecond ins
    exact severs.cuts.remote_outAt isLane hasPeer
  · simp [isZip, severs.cuts.process_of inv gotStop, zips]

theorem feeds_of_untouched (exists_source : ∃ proc, net.process? src = some proc)
    (untouched : net.Untouched [cut] src) (feeds : next.Feeds src dst) : net.Feeds src dst := by
  have inv := severs.ready.inv
  have new := severs.cuts.evolves.inv
  obtain ⟨proc, got⟩ := exists_source
  obtain ⟨key, mem, leads⟩ := (new.feeds_iff_out (severs.cuts.process_of inv got)).mp feeds
  obtain ⟨port, has, owned, leaves⟩ := inv.listed_out got mem
  rw [severs.cuts.remote_of inv has fun lane isLane => ⟨?_, ?_⟩] at leads
  · exact inv.feeds_of_remote got mem leads
  · rintro rfl
    exact untouched cut mem_cons_self lane isLane port has owned
  · rintro rfl
    obtain ⟨enters, -⟩ :=
      of_found has ((severs.cuts.connects_of_mem isLane).exists_target inv.linked)
    simp [leaves] at enters

theorem feeds_cases (feeds : next.Feeds src dst) :
    ¬ Inside chains cut src ∧ ¬ Inside chains cut dst ∧ net.Feeds src dst ∨
      src = reg.start ∧ Inside chains cut dst ∨
      Inside chains cut src ∧ (Inside chains cut dst ∨ dst = reg.stop) := by
  have new := severs.cuts.evolves.inv
  by_cases insideSrc : Inside chains cut src
  · exact .inr
      (.inr
        ⟨insideSrc,
        (severs.leadsInto .output insideSrc).of_mem_across (new.mem_across_output.mpr feeds)⟩)
  by_cases insideDst : Inside chains cut dst
  · rcases (severs.leadsInto .input insideDst).of_mem_across (new.mem_across_input.mpr feeds)
      with too | isStart
    · exact absurd too insideSrc
    · exact .inr (.inl ⟨isStart, insideDst⟩)
  · refine .inl ⟨insideSrc, insideDst, severs.feeds_of_untouched ?_ ?_ feeds⟩
    · obtain ⟨proc, got⟩ := new.exists_source feeds
      exact ⟨proc, (severs.cuts.processes (fun same => insideSrc (.inr (.inl same)))
        fun same => insideSrc (.inr (.inr same))).symm.trans got⟩
    · exact severs.untouched_of_not_mem fun isMem => insideSrc (.inl isMem)

theorem source_zip (feeds : next.Feeds src cut.zip) : ∃ rest, src :: rest ∈ chains := by
  obtain ⟨key, mem, leads⟩ :=
    (severs.cuts.evolves.inv.feeds_iff_in severs.cuts.zipped).mp feeds
  obtain ⟨branch, inRange, rfl⟩ := mem_map.mp (show key ∈ cut.zipper.inPorts from mem)
  obtain ⟨lane, isLane⟩ : ∃ lane, cut.lanes[branch]? = some lane :=
    ⟨_, getElem?_eq_getElem (mem_range.mp inRange)⟩
  obtain ⟨first, second, rest, isChain, ⟨head, gotHead, outs, -⟩, -⟩ := severs.exists_chain isLane
  obtain ⟨port, has, owned, -⟩ := severs.ready.inv.exists_out gotHead outs
  rw [severs.cuts.remote_inAt isLane has, owned] at leads
  exact ⟨second :: rest, some.inj leads ▸ mem_of_getElem? isChain⟩

theorem exists_outside (isLoop : next.IsLoop loop) : ∃ id ∈ loop, ¬ Inside chains cut id := by
  have new := severs.cuts.evolves.inv
  by_contra none
  have inside : ∀ id ∈ loop, Inside chains cut id := fun id onLoop => by grind
  have noFirst : ∀ first rest, first :: rest ∈ chains → first ∉ loop := by
    intro first rest mem onLoop
    obtain ⟨previous, onLoopToo, feeds⟩ := isLoop.exists_previous onLoop
    obtain ⟨proc, key, got, -, isKey, branch⟩ :=
      severs.bundle_front.exists_branch (mem_map_of_mem (f := List.take 1) mem)
    have feedsFirst := new.feeds_of_remote got isKey branch.enters
    obtain rfl := (branch.line.simple first (by simp)).source_unique new feeds feedsFirst
    exact severs.gate_outer .input (inside _ onLoopToo)
  have noZip : cut.zip ∉ loop := fun onLoop => by
    obtain ⟨previous, onLoopToo, feeds⟩ := isLoop.exists_previous onLoop
    obtain ⟨rest, mem⟩ := severs.source_zip feeds
    exact noFirst previous rest mem onLoopToo
  have noUnzip : cut.unzip ∉ loop := fun onLoop => by
    obtain ⟨previous, onLoopToo, feeds⟩ := isLoop.exists_previous onLoop
    obtain ⟨key, mem, leads⟩ := (new.feeds_iff_in severs.cuts.unzipped).mp feeds
    obtain rfl := mem_singleton.mp (show key ∈ [cut.base + 1] from mem)
    rw [severs.cuts.remote_behind] at leads
    cases leads
    exact noZip onLoopToo
  have member {id} (onLoop : id ∈ loop) : ∃ chain ∈ chains, id ∈ chain.tail := by
    rcases inside id onLoop with isMem | rfl | rfl
    · obtain ⟨chain, mem, onChain⟩ := mem_flatten.mp isMem
      cases chain with
      | nil => cases onChain
      | cons first rest => grind
    · exact absurd onLoop noZip
    · exact absurd onLoop noUnzip
  have pre : net.IsLoop loop := isLoop.imp_of_mem fun a onLoop b _ feeds => by
    obtain ⟨chain, mem, behind⟩ := member onLoop
    refine severs.feeds_of_untouched ?_ (severs.untouched_of_mem_tail mem behind) feeds
    exact mem_ids.mp (severs.bundle.exist mem (mem_of_mem_tail behind))
  obtain ⟨delay, onLoop, delays⟩ := severs.ready.legal.delayed pre
  obtain ⟨chain, mem, behind⟩ := member onLoop
  exact not_isDelay_of_isMapShaped (severs.bundle.isMapShaped mem (mem_of_mem_tail behind)) delays

theorem not_isDelay (inside : Inside chains cut id) : ¬ next.isDelay id := by
  rcases inside with isMem | rfl | rfl
  · obtain ⟨chain, mem, onChain⟩ := mem_flatten.mp isMem
    obtain ⟨proc, got, isMap⟩ := (any_eq_true _ _).mp (severs.bundle.isMapShaped mem onChain)
    refine not_isDelay_of_isMapShaped ?_
    simp [Network.isMapShaped, severs.cuts.process_of severs.ready.inv got, isMap]
  · simp [isDelay, severs.cuts.zipped, Cut.zipper, Kind.isDelay]
  · simp [isDelay, severs.cuts.unzipped, Cut.unzipper, Kind.isDelay]

theorem exists_loop (isLoop : next.IsLoop loop) (once : loop.Nodup) :
    ∃ old, net.IsLoop old ∧ old.Nodup ∧ old.countP net.isDelay = loop.countP next.isDelay := by
  have bundle := severs.bundle
  obtain ⟨chain, mem⟩ := bundle.exists_chain severs.ready.legal
  obtain ⟨chained, onceWay, -⟩ := bundle.way severs.ready.inv mem
  have detour : Graph.Detour net.Feeds next.Feeds (Inside chains cut) reg.start reg.stop chain := by
    refine ⟨fun {a b} feeds => ?_, severs.gate_outer .input, severs.gate_outer .output, chained⟩
    rcases severs.feeds_cases feeds with outside | ⟨isStart, inside⟩ | inside
    · exact .inl outside
    · exact .inr (.inl ⟨isStart, .inl inside⟩)
    · exact .inr (.inr inside)
  have onceChain : chain.Nodup := (Graph.nodup_concat.mp (nodup_cons.mp onceWay).2).1
  refine detour.exists_countP_eq isLoop once (severs.exists_outside isLoop) onceChain
    (fun a onChain _ => ?_)
    (fun a _ outside => ?_) (fun a _ inside => ?_) fun a onChain => ?_
  · exact .inl (mem_flatten.mpr ⟨chain, mem, onChain⟩)
  · rw [isDelay, isDelay, severs.cuts.processes (fun same => outside (.inr (.inl same))) fun same =>
      outside (.inr (.inr same))]
  · simpa using severs.not_isDelay inside
  · simpa using not_isDelay_of_isMapShaped (bundle.isMapShaped mem onChain)

theorem port_boundary (onBdry : net.isBoundary key) : next.port? key = net.port? key := by
  have inv := severs.ready.inv
  obtain ⟨port, has⟩ := isSome_iff_exists.mp (inv.boundary onBdry)
  have free := severs.ready.legal.unconnected onBdry has
  rw [has]
  refine severs.cuts.port_of inv.linked has fun lane isLane => ⟨?_, ?_⟩
  · rintro rfl
    obtain ⟨-, conn⟩ := of_found has (severs.cuts.connects_of_mem isLane)
    simp [free] at conn
  · rintro rfl
    obtain ⟨-, conn⟩ := of_found has ((severs.cuts.connects_of_mem isLane).exists_target inv.linked)
    simp [free] at conn

/-- Cutting the branches keeps a network legal. -/
theorem legal : next.Legal := by
  have legal := severs.ready.legal
  have nonempty := length_pos_of_ne_nil severs.lanes_ne_nil
  obtain ⟨delayed, single⟩ := legal.loops fun loop isLoop once => severs.exists_loop isLoop once
  refine ⟨fun {id proc} got => ?_, fun {id proc} got => ?_, fun {key port} onBdry has => ?_,
    fun isLoop => delayed _ isLoop, fun isLoop once => single _ isLoop once⟩
  · rcases severs.cuts.process_cases got with ⟨-, rfl⟩ | ⟨-, rfl⟩ | pre
    · rfl
    · rfl
    · exact legal.leaves pre
  · rcases severs.cuts.process_cases got with ⟨-, rfl⟩ | ⟨-, rfl⟩ | pre
    · simp [Process.defect?, Process.arityDefect?, Cut.zipper, Kind.payloadDefect?, Kind.arity,
        Arity.admits, nonempty]
    · simp [Process.defect?, Process.arityDefect?, Cut.unzipper, Kind.payloadDefect?, Kind.arity,
        Arity.admits, nonempty]
    · exact legal.fits pre
  · have pre : net.isBoundary key := by
      rwa [isBoundary, severs.cuts.inputs, severs.cuts.outputs] at onBdry
    rw [severs.port_boundary pre] at has
    exact legal.unconnected pre has

theorem readyNext : next.Ready := by
  refine ⟨severs.cuts.evolves.inv, severs.legal, fun {id proc} got => ?_⟩
  rcases severs.cuts.process_cases got with ⟨-, rfl⟩ | ⟨-, rfl⟩ | pre
  · exact (by decide : 1 ≤ UInt32.size)
  · obtain ⟨front, gotStart, -, branches⟩ := severs.bundle.opens
    have counts : cut.unzipper.outPorts.length = front.outPorts.length := by
      rw [branches.length_eq, severs.stage.length_eq]
      simp [Cut.unzipper]
    rw [counts]
    exact severs.ready.narrow gotStart
  · exact severs.ready.narrow pre

theorem reworked :
    net.Reworked next reg chains (Inside chains cut) cut.unzip (chains.map List.tail) := by
  have inv := severs.ready.inv
  have bundle := severs.bundle
  have new := severs.readyNext
  have outside {id} (outer : ¬ Inside chains cut id) {proc} (got : net.process? id = some proc)
      {key : PortKey} {dir : Direction} (mem : key ∈ proc.ports dir) : next.remote key =
        net.remote key := by
    obtain ⟨port, has, owned, -⟩ := inv.listed got mem
    refine severs.cuts.remote_of inv has (severs.elsewhere has fun isMem => outer (.inl ?_))
    exact owned ▸ isMem
  have funnel := bundle.funnel inv severs.ready.legal
  have funnelNext : next.Funnel reg (Inside chains cut) :=
    new.legal.funnel new.inv (severs.gate_outer .input) (severs.gate_outer .output)
      (fun inside => severs.not_isDelay inside) fun dir _ inside => severs.leadsInto dir inside
  refine ⟨severs.ready, new, bundle, severs.bundle_behind,
    ⟨funnel, funnelNext, fun _ outer => ?_, ?_⟩, ?_, .inr (.inr (.inr rfl)),
    fun inside got => severs.mem_of_inside got inside, fun isMem _ => .inl isMem, ?_, ?_⟩
  · exact severs.cuts.processes (fun same => outer (.inr (.inl same))) fun same =>
      outer (.inr (.inr same))
  · intro id proc key dir _ outer got mem
    have same := outside outer got mem
    -- A connection that led to a branch leads there still.
    cases leads : net.remote key with
    | none => exact .inl ⟨same, by simp [leads]⟩
    | some other =>
      by_cases isMem : other ∈ chains.flatten
      · exact .inr ⟨⟨other, leads, isMem⟩, other, same.trans leads, .inl isMem⟩
      · refine .inl ⟨same, fun too leadsToo => ?_⟩
        obtain rfl := mem_unique leads leadsToo
        obtain ⟨proc, gotOther⟩ := mem_ids.mp (inv.mem_ids_of_remote leads)
        exact ⟨isMem, fun inside => isMem (severs.mem_of_inside gotOther inside)⟩
  · intro id isTail
    obtain ⟨rest, mem, onRest⟩ := mem_flatten.mp isTail
    obtain ⟨chain, isChain, rfl⟩ := mem_map.mp mem
    exact .inl (mem_flatten.mpr ⟨chain, isChain, mem_of_mem_tail onRest⟩)
  · intro id proc key src outer outerNext got mem leads isMem
    refine ⟨src, ?_, (outside outerNext got (show key ∈ proc.ports .input from mem)).trans leads⟩
    have feeds := (inv.feeds_iff_in got).mpr ⟨key, mem, leads⟩
    obtain ⟨chain, isChain, onChain⟩ := mem_flatten.mp isMem
    obtain ⟨branch, atBranch⟩ := getElem?_of_mem isChain
    obtain ⟨first, second, rest, lane, rfl, -⟩ := severs.exists_lane atBranch
    refine mem_flatten.mpr ⟨_, mem_map_of_mem isChain, ?_⟩
    rcases mem_cons.mp onChain with rfl | behind
    · obtain ⟨front, out, -, -, -, line⟩ := bundle.exists_branch isChain
      obtain rfl := (line.line.simple src mem_cons_self).target_unique inv feeds
        (isChain_cons_cons.mp line.line.chained).1
      exact absurd (mem_flatten.mpr ⟨_, isChain, by simp⟩) outer
    · exact behind
  · intro id emits
    refine ⟨?_, fun isMem => ?_,
      fun inside => funnelNext.not_emits new.inv new.legal inside emits⟩
    · obtain ⟨key, isOut, port, has, owned⟩ := emits
      rw [severs.cuts.outputs] at isOut
      exact ⟨key, isOut, port, (severs.port_boundary (by simp [isBoundary, isOut])).symm.trans has,
        owned⟩
    · exact funnelNext.not_emits new.inv new.legal (.inl isMem) emits

end

end Severs

end Network

end Dataflow
