import Dataflow.Proofs.Schedule.Verified
import Dataflow.Proofs.Transform.Tidy

/-!
Schedules of networks that are transformed later.

A transformation leaves everything that leads to an output as it is, and then a schedule goes on
fitting the network, or it removes a process from the schedule or puts one in front of it that is
not scheduled. Names are not used again, so nothing that happens afterwards makes up for that.
-/

open List

namespace Dataflow

open Network

open Relation (ReflTransGen)

namespace Network

variable {net next : Network} {id src dst : ProcessId}

/-- What leads to an output is the same in both networks. -/
structure SameUpstream (net next : Network) : Prop where
  delays : ∀ {id}, net.ReachesOutput id → next.isDelay id = net.isDelay id
  feeds : ∀ {source target}, net.ReachesOutput target →
    (next.Feeds source target ↔ net.Feeds source target)
  emits : ∀ {id}, next.Emits id ↔ net.Emits id

theorem SameUpstream.reachesOutput_iff (sameUpstream : net.SameUpstream next) :
    next.ReachesOutput id ↔ net.ReachesOutput id := by
  constructor
  · rintro ⟨dst, emits, leads⟩
    induction leads using ReflTransGen.head_induction_on with
    | refl => exact ⟨dst, sameUpstream.emits.mp emits, .refl⟩
    | head feeds _ ih => exact ih.head ((sameUpstream.feeds ih).mp feeds)
  · rintro ⟨dst, emits, leads⟩
    refine ⟨dst, sameUpstream.emits.mpr emits, ?_⟩
    induction leads using ReflTransGen.head_induction_on with
    | refl => exact .refl
    | head feeds leads ih => exact .head ((sameUpstream.feeds ⟨dst, emits, leads⟩).mpr feeds) ih

end Network

namespace Schedule

variable {sched : Schedule} {net next : Network} {id src dst : ProcessId}

/-- A schedule of exactly what leads to an output, in which what feeds a process stands before
it. -/
structure Fits (schedule : Schedule) (net : Network) : Prop where
  once : schedule.order.Nodup
  complete : ∀ id, id ∈ schedule.order ↔ net.ReachesOutput id
  ordered : ∀ id ∈ schedule.order, ¬ net.isDelay id →
    ∀ source, net.Feeds source id → [source, id].Sublist schedule.order

/-- A schedule with a process that is gone, or one that is fed by something that is not
scheduled. -/
inductive Outdated (schedule : Schedule) (net : Network) : Prop where
  | gone {id : ProcessId} (listed : id ∈ schedule.order) (absent : net.process? id = none)
  | fed {id source : ProcessId} (listed : id ∈ schedule.order) (instant : net.isDelay id = false)
    (feeds : net.Feeds source id) (new : source ∉ schedule.order)

theorem Fits.allPass (fits : sched.Fits net) (inv : net.Consistent) :
    (sched.verify net).allPass := by
  have exist : ∀ id ∈ sched.order, net.contains id := fun id mem =>
    inv.contains_of_reachesOutput ((fits.complete id).mp mem)
  have unique : (sched.verify net).uniqueExisting := by simpa [verify, fits.once] using exist
  have ordered := (dependenciesOrdered_iff inv fits.once exist).mpr fits.ordered
  rw [Certificate.allPass, unique, ordered, Bool.and_self]

namespace Outdated

theorem not_allPass (outdated : sched.Outdated net) (inv : net.Consistent) :
    ¬ (sched.verify net).allPass := by
  intro passes
  rw [Certificate.allPass, Bool.and_eq_true] at passes
  obtain ⟨unique, ordered⟩ := passes
  simp only [verify, Bool.and_eq_true, all_eq_true, decide_eq_true_eq] at unique
  cases outdated with
  | gone mem absent =>
    have contained := unique.1 _ mem
    rw [contains_eq, absent] at contained
    cases contained
  | fed mem instant feeds new =>
    have pre :=
      (dependenciesOrdered_iff inv unique.2 unique.1).mp ordered _ mem (by simp [instant]) _ feeds
    exact new (pre.subset mem_cons_self)

theorem not_complete (outdated : sched.Outdated net) (inv : net.Consistent) :
    ¬ ∀ id, id ∈ sched.order ↔ net.ReachesOutput id := by
  intro complete
  cases outdated with
  | gone mem absent =>
    obtain ⟨proc, got⟩ := inv.exists_of_reachesOutput ((complete _).mp mem)
    rw [absent] at got
    cases got
  | fed mem _ feeds new => exact new ((complete _).mpr (((complete _).mp mem).head feeds))

end Outdated

/-- A schedule of a network that was transformed later: all its names are taken, and it fits or is
outdated. -/
structure Dated (schedule : Schedule) (net : Network) : Prop where
  taken : ∀ id ∈ schedule.order, net.names.taken.contains id
  either : schedule.Fits net ∨ schedule.Outdated net

theorem Dated.allPass_iff (dated : sched.Dated net) (inv : net.Consistent) :
    (sched.verify net).allPass ↔ ∀ id, id ∈ sched.order ↔ net.ReachesOutput id := by
  rcases dated.either with fits | outdated
  · exact iff_of_true (fits.allPass inv) fits.complete
  · exact iff_of_false (outdated.not_allPass inv) (outdated.not_complete inv)

theorem Fits.spared (fits : sched.Fits net) (sameUpstream : net.SameUpstream next) :
    sched.Fits next where
  once := fits.once
  complete id := by rw [sameUpstream.reachesOutput_iff, fits.complete]
  ordered id mem instant src feeds := by
    have reaches := (fits.complete id).mp mem
    rw [sameUpstream.delays reaches] at instant
    exact fits.ordered id mem instant src ((sameUpstream.feeds reaches).mp feeds)

section Replacement

variable {start stop fresh : ProcessId} {gone : List ProcessId} {entry exit : PortKey}
  {kind : Kind Composite} {hier : Hierarchy}

theorem sameUpstream_replaced (inv : net.Consistent)
    (exc : net.Excisable start stop gone entry exit)
    (repl : net.Replaced gone entry exit fresh kind hier next)
    (apart : ∀ id ∈ gone, ¬ net.ReachesOutput id) : net.SameUpstream next := by
  have known {id} (reaches : net.ReachesOutput id) : id ≠ fresh := by
    obtain ⟨proc, got⟩ := inv.exists_of_reachesOutput reaches
    exact repl.ne_fresh got
  have stays {id} (reaches : net.ReachesOutput id) : id ∉ gone :=
    fun isGone => apart id isGone reaches
  refine ⟨fun reaches => repl.isDelay_of (known reaches) (stays reaches),
    fun {src dst} reaches => ?_, fun {id} => ?_⟩
  · rw [repl.feeds inv exc]
    constructor
    · rintro (⟨-, -, feeds⟩ | ⟨isFresh, -⟩ | ⟨-, feeds⟩)
      · exact feeds
      · exact absurd isFresh (known reaches)
      · exact absurd (reaches.head feeds) (apart stop exc.stop_mem)
    · exact fun feeds => .inl ⟨stays (reaches.head feeds), stays reaches, feeds⟩
  · -- An output of the region would make it lead to an output.
    have inside {key port} (isOut : key ∈ net.outputs) (has : net.port? key = some port) :
        port.owner ∉ gone :=
      stays ⟨port.owner, ⟨key, isOut, port, has, rfl⟩, .refl⟩
    have same {key port} (isOut : key ∈ net.outputs) (has : net.port? key = some port) :
        net.substitute entry exit key = key := by
      rw [substitute, if_neg (exc.ne_entry inv has (inside isOut has)),
        if_neg (exc.ne_exit inv has (inside isOut has))]
    constructor
    · rintro ⟨key, isOut, port, has, rfl⟩
      rw [repl.outputs] at isOut
      obtain ⟨old, isOld, rfl⟩ := mem_map.mp isOut
      have onBdry : net.isBoundary old := by simp [isBoundary, isOld]
      obtain ⟨pre, hasPre⟩ := Option.isSome_iff_exists.mp (inv.boundary onBdry)
      rw [same isOld hasPre, repl.port_of hasPre (inside isOld hasPre)] at has
      obtain rfl := Option.some.inj has
      exact ⟨old, isOld, pre, hasPre, rfl⟩
    · rintro ⟨key, isOut, port, has, rfl⟩
      refine ⟨key, ?_, _, repl.port_of has (inside isOut has), rfl⟩
      rw [repl.outputs]
      exact mem_map.mpr ⟨key, isOut, same isOut has⟩

theorem eq_stop_of_feeds (exc : net.Excisable start stop gone entry exit) (inv : net.Consistent)
    (feeds : net.Feeds src dst) (inside : src ∈ gone) (outside : dst ∉ gone) : src = stop := by
  obtain ⟨key, port, other, peer, has, leaves, conn, hasPeer, rfl, rfl⟩ := feeds
  have isExit : key = exit := by
    by_contra notExit
    obtain ⟨too, peerToo, connToo, hasToo, within⟩ := exc.leads has inside leaves notExit
    obtain rfl := Option.mem_unique conn connToo
    obtain rfl := Option.mem_unique hasPeer hasToo
    exact outside within
  obtain ⟨too, hasToo, isStop, -⟩ := exc.exists_exit inv
  subst isExit
  rw [Option.mem_unique has hasToo, isStop]

/-- A schedule stays dated when a region is replaced. -/
theorem Dated.replaced (dated : sched.Dated net) (inv : net.Consistent)
    (exc : net.Excisable start stop gone entry exit)
    (repl : net.Replaced gone entry exit fresh kind hier next) : sched.Dated next := by
  refine ⟨fun id mem => repl.evolves.keepsTaken (dated.taken id mem), ?_⟩
  have new : fresh ∉ sched.order := fun mem => repl.unused (dated.taken fresh mem)
  have other {id} (mem : id ∈ sched.order) : id ≠ fresh := fun same => new (same ▸ mem)
  by_cases hit : ∃ id ∈ gone, id ∈ sched.order
  · -- A process of the schedule goes with the region.
    obtain ⟨id, isGone, mem⟩ := hit
    exact .inr (.gone mem (by rw [repl.processes, if_neg (other mem), if_pos isGone]))
  have stays {id} (mem : id ∈ sched.order) : id ∉ gone := fun isGone => hit ⟨id, isGone, mem⟩
  rcases dated.either with fits | outdated
  · exact .inl (fits.spared (sameUpstream_replaced inv exc repl fun id isGone reaches =>
      hit ⟨id, isGone, (fits.complete id).mpr reaches⟩))
  refine .inr ?_
  cases outdated with
  | gone mem absent =>
    exact .gone mem (by rw [repl.processes, if_neg (other mem), if_neg (stays mem), absent])
  | @fed id src mem instant feeds unscheduled =>
    rw [← repl.isDelay_of (other mem) (stays mem)] at instant
    by_cases isGone : src ∈ gone
    · obtain rfl := eq_stop_of_feeds exc inv feeds isGone (stays mem)
      exact .fed mem instant ((repl.feeds inv exc).mpr (.inr (.inr ⟨rfl, feeds⟩))) new
    · exact .fed mem instant
        ((repl.feeds inv exc).mpr (.inl ⟨isGone, stays mem, feeds⟩)) unscheduled

end Replacement

theorem Dated.retold (dated : sched.Dated net) (retold : net.Retold next) : sched.Dated next := by
  have delays (id : ProcessId) : next.isDelay id = net.isDelay id := by
    rw [isDelay, isDelay]
    rcases retold.processes id with same | ⟨old, fn, got, kind, named⟩
    · rw [same]
    · rw [got, named, Option.any_some, Option.any_some, kind]
      rfl
  have emits {id} : next.Emits id ↔ net.Emits id := by
    simp only [Network.Emits, retold.outputs, ← Option.map_eq_some_iff, retold.owner_eq]
  refine ⟨fun id mem => retold.evolves.keepsTaken (dated.taken id mem), ?_⟩
  rcases dated.either with fits | outdated
  · exact .inl (fits.spared ⟨fun _ => delays _, fun _ => retold.feeds_iff, emits⟩)
  refine .inr ?_
  cases outdated with
  | @gone id mem absent =>
    rcases retold.processes id with same | ⟨old, fn, got, -⟩
    · exact .gone mem (same.trans absent)
    · rw [absent] at got
      cases got
  | fed mem instant feeds new =>
    exact .fed mem ((delays _).trans instant) (retold.feeds_iff.mpr feeds) new

section Cutting

variable {reg : Section} {chains : List (List ProcessId)} {cut : Cut}

theorem reachesOutput_stop (bundle : net.Bundle reg chains) (ready : net.Ready)
    (inside : id ∈ chains.flatten) (reaches : net.ReachesOutput id) :
    net.ReachesOutput reg.stop := by
  obtain ⟨dst, emits, leads⟩ := reaches
  have funnel := bundle.funnel ready.inv ready.legal
  induction leads using ReflTransGen.head_induction_on with
  | refl => exact absurd emits (funnel.not_emits ready.inv ready.legal inside)
  | head feeds leads ih =>
    rcases (bundle.leadsInto ready.inv inside .output).of_mem_across
        (ready.inv.mem_across_output.mpr feeds) with
      onBranch | rfl
    · exact ih onBranch
    · exact ⟨dst, emits, leads⟩

section

variable (severs : net.Severs reg chains cut next)

include severs

theorem sameUpstream_severed (apart : ¬ net.ReachesOutput reg.stop) : net.SameUpstream next := by
  have inv := severs.ready.inv
  have outer {id} (reaches : net.ReachesOutput id) : ¬ Network.Severs.Inside chains cut id :=
      fun inside => by
    obtain ⟨proc, isGot⟩ := inv.exists_of_reachesOutput reaches
    exact apart
      (reachesOutput_stop severs.bundle severs.ready (severs.mem_of_inside isGot inside) reaches)
  refine ⟨fun {id} reaches => ?_, fun {src dst} reaches => ?_, fun {id} => ?_⟩
  · obtain ⟨proc, isGot⟩ := inv.exists_of_reachesOutput reaches
    rw [isDelay, isDelay, isGot, severs.cuts.process_of inv isGot]
  · constructor
    · intro feeds
      rcases severs.feeds_cases feeds with ⟨-, -, pre⟩ | ⟨-, inside⟩ | ⟨-, inside | rfl⟩
      · exact pre
      · exact absurd inside (outer reaches)
      · exact absurd inside (outer reaches)
      · exact absurd reaches apart
    · intro feeds
      have untouched {id} (reaches : net.ReachesOutput id) : net.Untouched [cut] id :=
        severs.untouched_of_not_mem fun onBranch => outer reaches (.inl onBranch)
      exact severs.keeps.feeds inv severs.readyNext.inv (untouched (reaches.head feeds))
        (untouched reaches) feeds
  · simp only [Network.Emits, severs.cuts.outputs]
    refine exists_congr fun key => and_congr_right fun isOut => ?_
    rw [severs.port_boundary (by simp [isBoundary, isOut])]

theorem feeds_unzip {branch : Nat} {lane : PortKey × PortKey} {peer : Port}
    (isLane : cut.lanes[branch]? = some lane) (hasPeer : net.port? lane.2 = some peer) :
    next.Feeds cut.unzip peer.owner :=
  severs.cuts.evolves.inv.feeds_of_remote severs.cuts.unzipped
    (mem_map_of_mem (mem_range.mpr (List.getElem?_eq_some_iff.mp isLane).1))
      (severs.cuts.remote_outAt isLane hasPeer)

theorem feeds_severed (feeds : net.Feeds src dst) :
    next.Feeds src dst ∨ next.Feeds cut.unzip dst := by
  obtain ⟨key, other, connects, ⟨port, has, rfl⟩, peer, hasPeer, rfl⟩ := feeds_iff_connects.mp feeds
  by_cases lane : (key, other) ∈ cut.lanes
  · obtain ⟨branch, isLane⟩ := getElem?_of_mem lane
    exact .inr (feeds_unzip severs isLane hasPeer)
  · exact .inl
      (feeds_iff_connects.mpr
        ⟨key, other, severs.cuts.connects.mpr (.inl ⟨connects, lane⟩), severs.cuts.exists_port has,
        severs.cuts.exists_port hasPeer⟩)

end

/-- A schedule stays dated when a section is cut. -/
theorem Dated.severed (dated : sched.Dated net) (severs : net.Severs reg chains cut next) :
    sched.Dated next := by
  have inv := severs.ready.inv
  have newZip : cut.zip ∉ sched.order := fun mem => severs.cuts.unusedZip (dated.taken _ mem)
  have newUnzip : cut.unzip ∉ sched.order := fun mem => severs.cuts.unusedUnzip (dated.taken _ mem)
  have same {id} (mem : id ∈ sched.order) : next.process? id = net.process? id :=
    severs.cuts.processes (fun isZip => newZip (isZip ▸ mem)) fun isUnzip =>
      newUnzip (isUnzip ▸ mem)
  have delays {id} (mem : id ∈ sched.order) : next.isDelay id = net.isDelay id := by
    rw [isDelay, isDelay, same mem]
  refine ⟨fun id mem => severs.cuts.evolves.keepsTaken (dated.taken id mem), ?_⟩
  rcases dated.either with fits | outdated
  · by_cases reaches : net.ReachesOutput reg.stop
    · -- The processes behind the cut are scheduled, and the unzip in front of them is not.
      obtain ⟨chain, mem⟩ := severs.bundle.exists_chain severs.ready.legal
      obtain ⟨branch, isChain⟩ := getElem?_of_mem mem
      obtain ⟨first, second, rest, lane, rfl, isLane, -, follower, gotSecond, ins⟩ :=
        severs.exists_lane isChain
      obtain ⟨peer, hasPeer, isSecond, -⟩ := inv.exists_in gotSecond ins
      obtain ⟨ways, -, -⟩ := severs.bundle.way inv mem
      have onwards : ReflTransGen net.Feeds second reg.stop :=
        relationReflTransGen_of_exists_isChain_cons (rest ++ [reg.stop]) ways.tail.tail (by simp)
      have scheduled := (fits.complete second).mpr (reaches.trans onwards)
      refine .inr (.fed scheduled ?_ (isSecond ▸ feeds_unzip severs isLane hasPeer) newUnzip)
      rw [delays scheduled]
      have instant :=
        severs.bundle.not_isDelay (Section.mem_members_of_mem mem (mem_cons_of_mem _ mem_cons_self))
      simpa using instant
    · exact .inl (fits.spared (sameUpstream_severed severs reaches))
  refine .inr ?_
  cases outdated with
  | gone mem absent => exact .gone mem ((same mem).trans absent)
  | fed mem instant feeds new =>
    rcases feeds_severed severs feeds with still | behind
    · exact .fed mem ((delays mem).trans instant) still new
    · exact .fed mem ((delays mem).trans instant) behind newUnzip

end Cutting

theorem lasting_dated (has : Option Schedule) :
    Network.Lasting fun net => net.Tidy ∧ ∀ sched ∈ has, sched.Dated net where
  replaced ready exc shaped repl := fun ⟨tidy, dated⟩ =>
    ⟨lasting_tidy.replaced ready exc shaped repl tidy, fun sched mem =>
      (dated sched mem).replaced ready.inv exc repl⟩
  spliced _ got redundant movable _ := fun ⟨tidy, _⟩ => absurd (tidy got redundant) movable
  retold retold := fun ⟨tidy, dated⟩ =>
    ⟨lasting_tidy.retold retold tidy, fun sched mem => (dated sched mem).retold retold⟩
  severed severs := fun ⟨tidy, dated⟩ =>
    ⟨lasting_tidy.severed severs tidy, fun sched mem => (dated sched mem).severed severs⟩

end Schedule

end Dataflow
