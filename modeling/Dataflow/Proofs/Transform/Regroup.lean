import Dataflow.Proofs.Transform.Row

/-!
The steps that exchange segments of a row.

Segments that follow each other are replaced by one process, one branch of a bundle is replaced by
one process, or a bundle is cut into two.
-/

open List

namespace Dataflow

open Segment

variable {rim : Rim} {origin net next : Network} {count : Nat} {seg : Segment} {old : List Segment}
  {start stop fresh : ProcessId} {gone : List ProcessId} {entry exit : PortKey}
  {kind : Kind Composite} {hier : Hierarchy}
  {fns : List Func} {reg : Section} {chains : List (List ProcessId)} {proc : Process}

namespace Network

/-- A replacement elsewhere leaves a bundle enclosed. -/
theorem Enclosed.replaced (enclosed : net.Enclosed reg chains) (inv : net.Consistent)
    (exc : net.Excisable start stop gone entry exit)
    (repl : net.Replaced gone entry exit fresh kind hier next)
    (stays : ∀ id ∈ reg.members chains, id ∉ gone) : next.Enclosed reg chains := by
  refine ⟨repl.sealed inv exc enclosed.toSealed stays, fun feeds => ?_⟩
  rcases (repl.feeds inv exc).mp feeds with ⟨-, -, feeds⟩ | ⟨same, -⟩ | ⟨-, feeds⟩
  · exact enclosed.sources feeds
  · obtain ⟨proc, got, -⟩ := (Option.any_eq_true _ _).mp enclosed.closes
    exact absurd same (repl.ne_fresh got)
  · have isMem : stop ∈ reg.members chains := by simp [Section.members, enclosed.sources feeds]
    exact absurd exc.stop_mem (stays stop isMem)

end Network

namespace Segment

/-- A replacement elsewhere leaves a segment as it is. -/
theorem Stands.replaced (stands : seg.Stands origin count net) (inv : net.Consistent)
    (exc : net.Excisable start stop gone entry exit)
    (repl : net.Replaced gone entry exit fresh kind hier next)
    (stays : ∀ id ∈ seg.members, id ∉ gone) : seg.Stands origin count next := by
  refine stands.kept (fun id isMem => ?_) ?_
  · obtain ⟨proc, got⟩ := stands.exists_process isMem
    rw [repl.process_of got (stays id isMem), got]
  · rintro reg chains fns rfl enclosed
    exact enclosed.replaced inv exc repl stays

end Segment

theorem Network.Replaced.exchange_single
    (repl : net.Replaced gone entry exit fresh (.parallelMap (UInt64.ofNat count) fns) hier next)
    (evo : rim.origin.Evolves net) (intact : rim.Intact)
    (exc : net.Excisable start stop gone entry exit) (members : ∀ id, id ∈ gone ↔ Within old id)
    (starts : entryOf old = some start) (stops : exitOf old = some stop) :
    Exchange rim count net old [.single fresh fns] next where
  evolves := repl.evolves
  former := by
    rintro rfl
    cases starts
  later := cons_ne_nil _ _
  stands seg mem := by
    obtain rfl := mem_singleton.mp mem
    exact ⟨intact.inv.process?_eq_none fun taken => repl.unused (evo.keepsTaken taken),
      by simp [Network.kindOf, repl.processes]⟩
  apart := pairwise_singleton _ _
  linked := isChain_singleton _
  fresh within := by
    obtain rfl := mem_singleton.mp (within_singleton.mp within)
    exact .inr repl.absent
  covers {id proc} got := by
    rcases repl.process_cases got with ⟨rfl, -⟩ | ⟨stays, gotPre⟩
    · exact .inl (within_singleton.mpr mem_cons_self)
    · grind
  keeps stands outside :=
    stands.replaced evo.inv exc repl fun id isMem inside =>
      outside id isMem ((members id).mp inside)
  feeds feeds outside outsideToo := by
    rw [← members] at outside outsideToo
    exact (repl.feeds evo.inv exc).mpr (.inl ⟨outside, outsideToo, feeds⟩)
  enters isOld isNew feeds _ := by
    cases starts.symm.trans isOld
    cases isNew
    exact (repl.feeds evo.inv exc).mpr (.inr (.inl ⟨rfl, feeds⟩))
  leaves isOld isNew feeds _ := by
    cases stops.symm.trans isOld
    cases isNew
    exact (repl.feeds evo.inv exc).mpr (.inr (.inr ⟨rfl, feeds⟩))
  around {first last enter leave} around outside entersOld leavesOld := by
    simp only [← members] at outside entersOld leavesOld ⊢
    obtain ⟨enter, leave, new⟩ := around.replaced intact evo.inv exc repl outside
      (fun inside => Option.mem_unique (entersOld inside) starts)
      (fun inside => Option.mem_unique (leavesOld inside) stops)
    refine ⟨_, _, enter, leave, new, ?_, ?_, ?_, ?_⟩
    · exact fun inside => by simp [inside, entryOf, Segment.entry]
    · exact fun outer => by simp [outer]
    · exact fun inside => by simp [inside, exitOf, Segment.exit]
    · exact fun outer => by simp [outer]

section Branch

variable {front back : List (List ProcessId)} {chain : List ProcessId} {first last : ProcessId}

theorem Network.Enclosed.replaced_chain (enclosed : net.Enclosed reg (front ++ chain :: back))
    (inv : net.Consistent) (starts : chain.head? = some first) (stops : chain.getLast? = some last)
    (exc : net.Excisable first last chain entry exit)
    (repl : net.Replaced chain entry exit fresh (net.coalesced chain) hier next) :
    next.Enclosed reg (front ++ [fresh] :: back) := by
  refine ⟨enclosed.toSealed.replaced_chain inv starts stops exc repl, fun feeds => ?_⟩
  rcases (repl.feeds inv exc).mp feeds with ⟨stays, -, feeds⟩ | ⟨same, -⟩ | ⟨rfl, -⟩
  · have isMem := enclosed.sources feeds
    simp only [flatten_append, flatten_cons, mem_append, stays, false_or] at isMem ⊢
    exact isMem.imp_right .inr
  · obtain ⟨proc, got, -⟩ := (Option.any_eq_true _ _).mp enclosed.closes
    exact absurd same (repl.ne_fresh got)
  · simp

theorem Network.Bundle.functionsOf_replaced_chain (bundle : net.Bundle reg (front ++ chain :: back))
    (inv : net.Consistent)
    (applied : ∀ branch ∈ front ++ chain :: back, net.functionsOf branch = fns)
    (repl : net.Replaced chain entry exit fresh (net.coalesced chain) hier next) :
    ∀ branch ∈ front ++ [fresh] :: back, next.functionsOf branch = fns := by
  have kept {branch} (isKept : branch ∈ front ++ back) : next.functionsOf branch = fns := by
    have isOld : branch ∈ front ++ chain :: back := by grind
    rw [← applied branch isOld]
    refine Network.functionsOf_congr fun id onBranch => ?_
    obtain ⟨proc, got⟩ := bundle.exists_process (Section.mem_members_of_mem isOld onBranch)
    rw [repl.process_of got (bundle.not_mem_of_mem inv isKept onBranch), got]
  intro branch mem
  simp only [mem_append, mem_cons] at mem
  rcases mem with inFront | rfl | inBack
  · exact kept (mem_append_left _ inFront)
  · rw [← applied chain (by simp)]
    simp [functionsOf, kindOf, repl.processes, coalesced, Kind.functions]
  · exact kept (mem_append_right _ inBack)

theorem Network.Enclosed.exchange_chain (enclosed : net.Enclosed reg (front ++ chain :: back))
    (counts : (front ++ chain :: back).length = count)
    (applied : ∀ branch ∈ front ++ chain :: back, net.functionsOf branch = fns)
    (evo : rim.origin.Evolves net) (intact : rim.Intact) (starts : chain.head? = some first)
    (stops : chain.getLast? = some last) (exc : net.Excisable first last chain entry exit)
    (repl : net.Replaced chain entry exit fresh (net.coalesced chain) hier next) :
    Exchange rim count net [.bundle reg (front ++ chain :: back) fns]
      [.bundle reg (front ++ [fresh] :: back) fns] next := by
  have inv := evo.inv
  have isBranch : chain ∈ front ++ chain :: back := by simp
  -- Only the processes on the branch are touched.
  refine Exchange.of_inside repl.evolves ?_ (pairwise_singleton _ _) (isChain_singleton _) ?_ ?_
    (fun onChain => within_singleton.mpr (Section.mem_members_of_mem isBranch onChain))
      rfl rfl rfl rfl
    (enclosed.start_not_mem isBranch) (enclosed.stop_not_mem isBranch)
    (fun stands outer => stands.replaced inv exc repl outer)
    (fun fed outer outerToo => (repl.feeds inv exc).mpr (.inl ⟨outer, outerToo, fed⟩)) ?_
  · intro seg mem
    obtain rfl := mem_singleton.mp mem
    exact ⟨enclosed.replaced_chain inv starts stops exc repl, by simpa using counts,
      enclosed.functionsOf_replaced_chain inv applied repl⟩
  · intro id within
    simp only [within_singleton, members, Section.members, mem_cons, flatten_append, flatten_cons,
      mem_append, not_mem_nil, or_false] at within ⊢
    grind [repl.absent]
  · intro id proc got
    simp only [within_singleton, members, Section.members, mem_cons, flatten_append, flatten_cons,
      mem_append, not_mem_nil, or_false]
    grind [repl.process_cases got]
  · intro first last enter leave around outer outerFirst outerLast
    have new := around.replaced intact inv exc repl outer (absurd · outerFirst) (absurd · outerLast)
    rwa [if_neg outerFirst, if_neg outerLast] at new

end Branch

section Cutting

variable {cut : Cut} {id src dst : ProcessId} {fnsAhead : List Func}

namespace Network.Severs

variable (severs : net.Severs reg chains cut next)

include severs

theorem across_eq (got : net.process? id = some proc) (outer : id ∉ chains.flatten)
    (dir : Direction) : next.across id dir = net.across id dir := by
  have inv := severs.ready.inv
  rw [across, across, severs.cuts.process_of inv got, got]
  refine filterMap_congr fun key mem => ?_
  obtain ⟨port, has, owned, -⟩ := inv.listed got mem
  exact severs.cuts.remote_of inv has (severs.elsewhere has (owned ▸ outer))

theorem feeds_iff (got : net.process? dst = some proc) (outer : dst ∉ chains.flatten) :
    next.Feeds src dst ↔ net.Feeds src dst := by
  rw [← severs.readyNext.inv.mem_across_input, ← severs.ready.inv.mem_across_input,
    severs.across_eq got outer]

/-- A cut leaves the in-ports of a process outside the branches connected. -/
theorem fed (got : net.process? id = some proc) (outer : id ∉ chains.flatten)
    (fed : ∀ {key port}, net.port? key = some port → port.owner = id → port.direction = .input →
      port.connection ≠ none) {key : PortKey} {port : Port} (has : next.port? key = some port)
    (owned : port.owner = id) (enters : port.direction = .input) : port.connection ≠ none := by
  have inv := severs.ready.inv
  have mem := severs.readyNext.inv.mem_ports (severs.cuts.process_of inv got) has owned
  obtain ⟨former, hasOld, ownedOld, dir⟩ := inv.listed got mem
  have same := severs.port_of hasOld (ownedOld ▸ outer)
  rw [has] at same
  cases same
  exact fed hasOld owned enters

theorem enclosed {other : Section} {others : List (List ProcessId)}
    (enclosed : net.Enclosed other others)
    (outer : ∀ id ∈ other.members others, id ∉ chains.flatten) : next.Enclosed other others := by
  have bundle := enclosed.toBundle
  have outerStop := outer other.stop Section.stop_mem
  obtain ⟨proc, got⟩ := bundle.exists_process Section.stop_mem
  have untouched (id : ProcessId) (isMem : id ∈ other.members others) :=
    severs.untouched_of_not_mem (outer id isMem)
  refine ⟨⟨severs.keeps.bundle severs.ready.inv severs.readyNext.inv
    (untouched _ Section.start_mem) (untouched _ Section.stop_mem)
    (fun id isMem => untouched id (by simp [Section.members, isMem])) bundle,
    severs.fed got outerStop enclosed.fed⟩, fun feeds => ?_⟩
  exact enclosed.sources ((severs.feeds_iff got outerStop).mp feeds)

theorem enclosed_front : next.Enclosed ⟨reg.start, cut.zip⟩ (chains.map (List.take 1)) := by
  refine ⟨⟨severs.bundle_front, fun {key port} has owned enters => ?_⟩, fun feeds => ?_⟩
  · have mem := severs.readyNext.inv.mem_ports severs.cuts.zipped has owned
    rw [enters] at mem
    obtain ⟨branch, isBranch, rfl⟩ := mem_map.mp mem
    obtain ⟨-, conn⟩ := of_found has ((severs.cuts.connects_inAt
      (getElem?_eq_getElem (mem_range.mp isBranch))).exists_target
      severs.readyNext.inv.linked)
    simp [conn]
  · obtain ⟨rest, mem⟩ := severs.source_zip feeds
    exact mem_flatten.mpr ⟨_, mem_map_of_mem mem, mem_cons_self⟩

theorem enclosed_behind (enclosed : net.Enclosed reg chains) :
    next.Enclosed ⟨cut.unzip, reg.stop⟩ (chains.map List.tail) := by
  have inv := severs.ready.inv
  obtain ⟨proc, got⟩ := severs.bundle.exists_process Section.stop_mem
  have outer := severs.bundle.stop_outer
  refine ⟨⟨severs.bundle_behind, severs.fed got outer enclosed.fed⟩, fun {src} feeds => ?_⟩
  have pre := (severs.feeds_iff got outer).mp feeds
  obtain ⟨chain, mem, onChain⟩ := mem_flatten.mp (enclosed.sources pre)
  obtain ⟨branch, isChain⟩ := getElem?_of_mem mem
  obtain ⟨first, second, rest, lane, rfl, -⟩ := severs.exists_lane isChain
  rcases mem_cons.mp onChain with rfl | behind
  · obtain ⟨start, key, -, -, -, isBranch⟩ := severs.bundle.exists_branch mem
    have feedsSecond : net.Feeds src second := (isChain_cons_cons.mp isBranch.line.chained).1
    have same := (isBranch.line.simple src onChain).target_unique inv pre feedsSecond
    exact absurd (same ▸ by simp) (severs.bundle.stop_not_mem mem)
  · exact mem_flatten.mpr ⟨_, mem_map_of_mem mem, behind⟩

end Network.Severs

theorem within_parts (whole : List Func) :
    Within [.bundle ⟨reg.start, cut.zip⟩ (chains.map (List.take 1)) fnsAhead,
      .bundle ⟨cut.unzip, reg.stop⟩ (chains.map List.tail) fns] id ↔
      id = cut.zip ∨ id = cut.unzip ∨ Within [.bundle reg chains whole] id := by
  have parts : id ∈ chains.flatten ↔ id ∈ (chains.map (List.take 1)).flatten ∨
      id ∈ (chains.map List.tail).flatten := by
    have split (chain : List ProcessId) : id ∈ chain ↔ id ∈ chain.take 1 ∨ id ∈ chain.tail := by
      cases chain <;> simp
    simp only [mem_flatten, mem_map, exists_exists_and_eq_and, ← exists_or, ← and_or_left, ← split]
  rw [← singleton_append, within_append, within_singleton, within_singleton, within_singleton]
  simp only [members, Section.members, mem_cons, parts]
  tauto

theorem Segment.Stands.severed (stands : seg.Stands origin count net)
    (severs : net.Severs reg chains cut next) (outer : ∀ id ∈ seg.members, id ∉ chains.flatten) :
    seg.Stands origin count next := by
  refine stands.kept (fun id isMem => ?_) ?_
  · obtain ⟨proc, got⟩ := stands.exists_process isMem
    rw [severs.cuts.process_of severs.ready.inv got, got]
  · rintro other others fns rfl enclosed
    exact severs.enclosed enclosed outer

/-- A bundle is cut behind the first processes of its branches. -/
theorem Network.Severs.exchange (severs : net.Severs reg chains cut next)
    (enclosed : net.Enclosed reg chains) (counts : chains.length = count)
    (ahead : ∀ chain ∈ chains, net.functionsOf (chain.take 1) = fnsAhead)
    (behind : ∀ chain ∈ chains, net.functionsOf chain.tail = fns) (intact : rim.Intact)
    (whole : List Func) :
    Exchange rim count net [.bundle reg chains whole]
      [.bundle ⟨reg.start, cut.zip⟩ (chains.map (List.take 1)) fnsAhead,
        .bundle ⟨cut.unzip, reg.stop⟩ (chains.map List.tail) fns] next := by
  have inv := severs.ready.inv
  have new := severs.readyNext
  have kept {chain part} (mem : chain ∈ chains) (isPart : part ⊆ chain) :
      next.functionsOf part = net.functionsOf part :=
    functionsOf_congr fun id onPart => by
      obtain ⟨proc, got⟩ :=
        severs.bundle.exists_process (Section.mem_members_of_mem mem (isPart onPart))
      rw [severs.cuts.process_of inv got, got]
  -- Only the processes on the branches are touched.
  refine Exchange.of_inside severs.cuts.evolves ?_ ?_ ?_ ?_ ?_
    (fun isMem => within_singleton.mpr (by simp [members, Section.members, isMem])) rfl rfl rfl rfl
    (fun isMem => severs.gate_outer .input (.inl isMem))
      (fun isMem => severs.gate_outer .output (.inl isMem))
    (fun stands outer => stands.severed severs outer)
    (fun fed outer outerToo =>
      severs.keeps.feeds inv new.inv (severs.untouched_of_not_mem outer)
      (severs.untouched_of_not_mem outerToo) fed)
    (fun {first last enter leave} around outer outerFirst outerLast =>
      ⟨enter, leave, around.severed intact severs outer outerFirst outerLast⟩)
  · intro seg mem
    simp only [mem_cons, not_mem_nil, or_false] at mem
    rcases mem with rfl | rfl
    · refine ⟨severs.enclosed_front, by simpa using counts, fun part isPart => ?_⟩
      obtain ⟨chain, mem, rfl⟩ := mem_map.mp isPart
      rw [kept mem (take_subset _ _), ahead chain mem]
    · refine ⟨severs.enclosed_behind enclosed, by simpa using counts, fun part isPart => ?_⟩
      obtain ⟨chain, mem, rfl⟩ := mem_map.mp isPart
      rw [kept mem (tail_sublist chain).subset, behind chain mem]
  · obtain ⟨stopper, gotStop⟩ := severs.bundle.exists_process Section.stop_mem
    refine pairwise_pair.mpr fun id isMem isMemToo => ?_
    exact severs.bundle_front.disjoint severs.bundle_behind new.inv new.legal
      (severs.cuts.ne_of_stored inv gotStop).1.symm isMemToo isMem
  · exact isChain_pair.mpr
      (new.inv.feeds_of_remote severs.cuts.zipped mem_cons_self severs.cuts.remote_base)
  · intro id within
    rcases (within_parts whole).mp within with rfl | rfl | inOld
    · exact .inr (inv.process?_eq_none severs.cuts.unusedZip)
    · exact .inr (inv.process?_eq_none severs.cuts.unusedUnzip)
    · exact .inl inOld
  · intro id proc got
    rw [within_parts whole]
    rcases severs.cuts.process_cases got with ⟨rfl, -⟩ | ⟨rfl, -⟩ | gotPre
    · exact .inl (.inl rfl)
    · exact .inl (.inr (.inl rfl))
    · grind

end Cutting

end Dataflow
