import Dataflow.Proofs.Transform.Prepared

/-! Dropping idle processes and naming combs for what they are keeps networks prepared. -/

open List Option

namespace Dataflow.Network

variable {net next : Network} {id : ProcessId} {proc : Process} {entry exit key : PortKey}
  {kept : Network → Prop}
  {fn : Func}

namespace Excised

variable (excised : net.Excised id entry exit next)

include excised

theorem process_former {other : ProcessId} {has : Process} (got : next.process? other = some has) :
    net.process? other = some has := by
  rw [excised.processes] at got
  split at got
  · cases got
  · exact got

theorem owner_former (inv : net.Consistent) {port : Port} (has : next.port? key = some port) :
    ∃ old, net.port? key = some old ∧ old.owner = port.owner := by
  obtain ⟨owner, got, mem⟩ := excised.evolves.inv.owned has
  obtain ⟨old, hasOld, isOwner, -⟩ := inv.listed (excised.process_former got) mem
  exact ⟨old, hasOld, isOwner⟩

/-- A process leads to what it led to, or past the process between the two ports. -/
theorem feeds (inv : net.Consistent) {src dst : ProcessId} (feeds : next.Feeds src dst) :
    net.Feeds src dst ∨
    ∃ key other, net.Connects key entry ∧ net.Connects exit other ∧
      (∃ port, net.port? key = some port ∧ port.owner = src) ∧
      ∃ peer, net.port? other = some peer ∧ peer.owner = dst := by
  obtain ⟨key, other, connects, ⟨port, has, rfl⟩, peer, hasPeer, rfl⟩ := feeds_iff_connects.mp feeds
  have isSrc := excised.owner_former inv has
  have isDst := excised.owner_former inv hasPeer
  obtain ⟨-, -, kept | ⟨enters, leaves⟩⟩ := excised.connects.mp connects
  · exact .inl (feeds_iff_connects.mpr ⟨key, other, kept, isSrc, isDst⟩)
  · exact .inr ⟨key, other, enters, leaves, isSrc, isDst⟩

theorem exists_loop (inv : net.Consistent) (got : net.process? id = some proc)
    (entered : proc.inPorts = [entry]) (left : proc.outPorts = [exit])
    (instant : net.isDelay id = false) {loop : List ProcessId} (isLoop : next.IsLoop loop)
    (once : loop.Nodup) :
    ∃ old, net.IsLoop old ∧ old.Nodup ∧ old.countP net.isDelay = loop.countP next.isDelay := by
  have same : ∀ other ∈ loop, net.isDelay other = next.isDelay other := by
    intro other onLoop
    obtain ⟨dst, -, feeds⟩ := isLoop.exists_next onLoop
    obtain ⟨has, gotNext⟩ := excised.evolves.inv.exists_source feeds
    rw [isDelay, isDelay, gotNext, excised.process_former gotNext]
  by_cases through : ∃ key other, net.Connects key entry ∧ net.Connects exit other
  · -- A connection past the process stands for the way through it.
    obtain ⟨key, other, enters, leaves⟩ := through
    obtain ⟨port, has, isOut, conn⟩ := enters
    obtain ⟨peer, hasPeer, -⟩ := leaves.exists_target inv.linked
    obtain ⟨first, hasEntry, ownsEntry, -⟩ := inv.exists_in got entered
    obtain ⟨final, hasExit, ownsExit, isExit⟩ := inv.exists_out got left
    obtain ⟨-, leads⟩ := of_found hasExit leaves
    have feedsProc : net.Feeds port.owner id :=
      ⟨key, port, entry, first, has, isOut, conn, hasEntry, rfl, ownsEntry⟩
    have procFeeds : net.Feeds id peer.owner :=
      ⟨exit, final, other, peer, hasExit, isExit, leads, hasPeer, ownsExit, rfl⟩
    have detour : Graph.Detour net.Feeds next.Feeds
        (fun _ => False) port.owner peer.owner [id] := by
      refine ⟨fun {src dst} feeds => ?_, not_false, not_false, ?_⟩
      · rcases excised.feeds inv feeds
          with kept | ⟨near, far, entersToo, leavesToo, ⟨portToo, hasToo, rfl⟩, peerToo,
            hasPeerToo, rfl⟩
        · exact .inl ⟨not_false, not_false, kept⟩
        · obtain rfl := Connects.source_unique inv.linked entersToo ⟨port, has, isOut, conn⟩
          obtain rfl := leavesToo.target_unique ⟨final, hasExit, isExit, leads⟩
          obtain rfl := mem_unique has hasToo
          obtain rfl := mem_unique hasPeer hasPeerToo
          exact .inr (.inl ⟨rfl, .inr rfl⟩)
      · simpa using ⟨feedsProc, procFeeds⟩
    obtain ⟨mem, onLoop⟩ := exists_mem_of_ne_nil loop isLoop.ne_nil
    refine detour.exists_countP_eq isLoop once ⟨mem, onLoop, not_false⟩ (nodup_singleton id)
      (fun other isId onLoop => ?_)
      (fun other onLoop _ => same other onLoop) (fun _ _ inside => inside.elim)
        (by simpa using instant)
    obtain ⟨dst, -, feeds⟩ := isLoop.exists_next onLoop
    obtain ⟨has, gotNext⟩ := excised.evolves.inv.exists_source feeds
    rw [mem_singleton.mp isId, excised.processes, if_pos rfl] at gotNext
    cases gotNext
  · refine ⟨loop, isLoop.imp_of_mem fun src _ dst _ feeds => ?_, once,
      countP_congr fun other onLoop => ?_⟩
    · rcases excised.feeds inv feeds with kept | ⟨key, other, enters, leaves, -⟩
      · exact kept
      · grind
    · rw [same other onLoop]

theorem prepared (prep : net.Prepared kept) (got : net.process? id = some proc)
    (redundant : isRedundant proc) (entered : proc.inPorts = [entry])
    (left : proc.outPorts = [exit]) (movable : ¬ net.Immovable proc) : next.Prepared kept := by
  have ready := prep.ready
  have instant : net.isDelay id = false := by
    rw [isDelay, got]
    rcases (isRedundant_iff.mp redundant).1 with kind | kind <;> exact congrArg Kind.isDelay kind
  obtain ⟨delayed, single⟩ := ready.legal.loops fun loop isLoop once =>
    excised.exists_loop ready.inv got entered left instant isLoop once
  exact ⟨⟨excised.evolves.inv,
    ⟨excised.exposed.leaves, fun has => ready.legal.fits (excised.process_former has),
      excised.exposed.unconnected, fun isLoop => delayed _ isLoop,
      fun isLoop once => single _ isLoop once⟩,
    fun has => ready.narrow (excised.process_former has)⟩,
    fun has => prep.top (excised.process_former has), prep.lasting,
    prep.lasting.spliced ready got redundant movable excised prep.holds⟩

end Excised

/-- Told about an idle process that cannot be spliced out. -/
def idleNote (id : ProcessId) : Diagnostic :=
  { severity := .note, subject := some id,
    message := "redundant process is the whole graph boundary; kept" }

theorem ends_removeRedundant (holds : List ProcessId → Network → Prop)
    (sound : ∀ {gone cur}, holds gone cur → cur.Consistent ∧ cur.Exposed)
    (excise : ∀ {gone cur id proc entry exit next}, holds gone cur → cur.process? id = some proc →
      isRedundant proc → proc.inPorts = [entry] → proc.outPorts = [exit] → ¬ cur.Immovable proc →
      cur.Excised id entry exit next → holds (id :: gone) next) (start : holds [] net) :
    Edit.removeRedundant.Ends net
      (fun report next => ∃ gone kept : List ProcessId, report = ⟨gone.length, kept.map idleNote⟩ ∧
        holds gone next ∧
        ∀ {id proc}, next.process? id = some proc → isRedundant proc →
          id ∈ kept ∧ next.Immovable proc)
      fun _ => False := by
  unfold Edit.removeRedundant
  simp only [Edit.ends_bind, Edit.ends_get, ensureFlat_eq_ok.mpr (sound start).2.leaves,
    Edit.ends_answer]
  have once : ((net.processes.toList.filter fun entry => isRedundant entry.2).map Prod.fst).Nodup :=
    (net.nodup_toList).sublist (filter_sublist.map _)
  have mem : ∀ entry ∈ net.processes.toList.filter fun entry => isRedundant entry.2,
      net.process? entry.1 = some entry.2 ∧ isRedundant entry.2 := by
    rintro ⟨id, proc⟩ candidate
    obtain ⟨mem, redundant⟩ := mem_filter.mp candidate
    exact ⟨mem_toList.mp mem, redundant⟩
  -- Idle processes are still waiting, or they are gone, or it is known that they cannot be spliced
  -- out.
  refine (Edit.ends_foldlM (fun rest report cur => (rest.map Prod.fst).Nodup ∧
    (∀ entry ∈ rest, cur.process? entry.1 = some entry.2 ∧ isRedundant entry.2) ∧
    ∃ gone kept : List ProcessId, report = ⟨gone.length, kept.map idleNote⟩ ∧ holds gone cur ∧
      ∀ {id proc}, cur.process? id = some proc → isRedundant proc → (id, proc) ∈ rest ∨ id ∈ kept ∧
      cur.Immovable proc) ?_
    ⟨once, mem, [], [], rfl, start,
    fun got redundant => .inl (mem_filter.mpr ⟨mem_toList.mpr got, redundant⟩)⟩).imp ?_
  · rintro ⟨id, proc⟩ rest report cur ⟨once, waiting, gone, kept, told, held, settled⟩
    rw [map_cons, nodup_cons] at once
    obtain ⟨got, redundant⟩ := waiting (id, proc) mem_cons_self
    obtain ⟨-, entry, exit, entered, left⟩ := isRedundant_iff.mp redundant
    obtain ⟨inv, exposed⟩ := sound held
    rw [Edit.ends_bind]
    refine (exposed.ends_contract inv got entered left).imp fun removed next outcome => ?_
    have elsewhere {other} (mem : other ∈ rest) : other.1 ≠ id := fun same =>
      once.1 (mem_map.mpr ⟨other, mem, same⟩)
    rcases outcome with ⟨rfl, movable, excised⟩ | ⟨rfl, immovable, rfl⟩
    · refine ⟨once.2, fun other mem => ?_, id :: gone, kept, ?_,
        excise held got redundant entered left movable excised, fun {other has} here idle => ?_⟩
      · obtain ⟨gotOther, idle⟩ := waiting other (mem_cons_of_mem _ mem)
        exact ⟨by rw [excised.processes, if_neg (elsewhere mem), gotOther], idle⟩
      · rw [told]
        rfl
      · rw [excised.processes] at here
        split at here
        · cases here
        rename_i apart
        rcases settled here idle with waits | ⟨isKept, immovable⟩
        · exact .inl
            ((mem_cons.mp waits).resolve_left fun isFirst => apart (congrArg Prod.fst isFirst))
        · exact .inr ⟨isKept, excised.immovable inv got entered left here apart immovable⟩
    · refine ⟨once.2, fun other mem => waiting other (mem_cons_of_mem _ mem), gone, kept ++ [id],
        ?_, held, fun {other has} here idle => ?_⟩
      · rw [told, map_append]
        rfl
      · rcases settled here idle with waits | ⟨isKept, immovableToo⟩
        · rcases mem_cons.mp waits with isFirst | waits
          · cases isFirst
            exact .inr ⟨by simp, immovable⟩
          · exact .inl waits
        · exact .inr ⟨mem_append_left _ isKept, immovableToo⟩
  · rintro _ _ ⟨-, -, gone, kept, told, held, settled⟩
    exact ⟨gone, kept, told, held, fun got redundant =>
      (settled got redundant).resolve_left not_mem_nil⟩

theorem Prepared.ends_removeRedundant (prep : net.Prepared kept) :
    Edit.removeRedundant.Ends net
      (fun report next => report.Harmless ∧ next.Prepared kept ∧ next.Tidy)
      fun _ => False := by
  refine (Network.ends_removeRedundant (fun _ cur => cur.Prepared kept)
    (fun prep => ⟨prep.ready.inv, prep.ready.legal.leaves, prep.ready.legal.unconnected⟩)
    (fun prep got redundant entered left movable excised =>
    excised.prepared prep got redundant entered left movable)
    prep).imp ?_
  rintro report next ⟨gone, kept, rfl, prep, settled⟩
  refine ⟨fun note mem => ?_, prep, fun got redundant => (settled got redundant).2⟩
  obtain ⟨id, -, rfl⟩ := mem_map.mp mem
  rfl

theorem Prepared.setKind (prep : net.Prepared kept) (got : net.process? id = some proc)
    {kind : Kind Composite} (leaf : kind.isLeaf) (same : kind.isDelay = proc.kind.isDelay)
    (fits : { proc with kind }.defect? = none)
    (holds : kept (net.setProcess id { proc with kind })) :
    (net.setProcess id { proc with kind }).Prepared kept := by
  have ready := prep.ready
  have evo : net.Evolves (net.setProcess id { proc with kind }) :=
    ready.inv.setProcess got fun dir => by cases dir <;> exact .refl _
  have cases {other has} (here : (net.setProcess id { proc with kind }).process? other = some has) :
      other = id ∧ has = { proc with kind } ∨ net.process? other = some has := by
    rw [process?_setProcess] at here
    split at here
    · grind
    · exact .inr here
  have delays : (net.setProcess id { proc with kind }).isDelay = net.isDelay := by
    funext other
    rw [isDelay, isDelay, process?_setProcess]
    split
    · grind
    · rfl
  refine ⟨⟨evo.inv,
    ⟨fun here => ?_, fun here => ?_, ready.legal.unconnected, fun isLoop => ?_,
      fun isLoop once => ?_⟩, fun here => ?_⟩, fun here => ?_, prep.lasting, holds⟩
  · rcases cases here with ⟨-, rfl⟩ | pre
    · exact leaf
    · exact ready.legal.leaves pre
  · rcases cases here with ⟨-, rfl⟩ | pre
    · exact fits
    · exact ready.legal.fits pre
  · rw [delays]
    exact ready.legal.delayed isLoop
  · rw [delays]
    exact ready.legal.single isLoop once
  · rcases cases here with ⟨-, rfl⟩ | pre
    · exact (ready.narrow got :)
    · exact ready.narrow pre
  · rcases cases here with ⟨-, rfl⟩ | pre
    · exact (prep.top got :)
    · exact prep.top pre

theorem unaryComb?_eq_some :
    unaryComb? proc = some fn ↔ proc.kind = .comb fn ∧ proc.inPorts.length = 1 := by
  unfold unaryComb?
  split
  · rename_i other kind
    simp [kind, and_comm]
  · grind

theorem defect?_map (isComb : proc.kind = .comb fn) (single : proc.inPorts.length = 1)
    (fits : proc.defect? = none) : { proc with kind := .map fn }.defect? = none := by
  simp_all [Process.defect?, Process.arityDefect?, Kind.payloadDefect?, Kind.arity, Arity.admits]

/-- Calling a comb a map changes nothing else. -/
theorem Consistent.retold (inv : net.Consistent) (got : net.process? id = some proc)
    (isComb : proc.kind = .comb fn) :
    net.Retold (net.setProcess id { proc with kind := .map fn }) where
  evolves := inv.setProcess got fun dir => by cases dir <;> exact .refl _
  processes other := by
    rw [process?_setProcess]
    split
    · grind
    · exact .inl rfl
  declared _ := rfl
  connects := Iff.rfl
  inputs := rfl
  outputs := rfl

theorem Prepared.ends_combToMap (prep : net.Prepared kept) :
    Edit.combToMap.Ends net (fun report next => report.Harmless ∧ next.Prepared kept) fun _ =>
      False := by
  unfold Edit.combToMap
  simp only [Edit.ends_bind, Edit.ends_get, prep.ready.legal.ensureFlat_eq, Edit.ends_answer]
  refine (Edit.ends_foldlM (fun rest (report : Report) cur => report.Harmless ∧ cur.Prepared kept ∧
    rest.Pairwise (fun entry other => entry.1 ≠ other.1) ∧
    ∀ entry ∈ rest, ∃ proc, cur.process? entry.1 = some proc ∧ unaryComb? proc = some entry.2)
    ?_ ⟨?_, prep, ?_, ?_⟩).imp fun _ _ done => ⟨done.1, done.2.1⟩
  · rintro ⟨id, fn⟩ rest report cur ⟨harmless, prep, once, waiting⟩
    rw [pairwise_cons] at once
    obtain ⟨proc, got, unary⟩ := waiting (id, fn) mem_cons_self
    obtain ⟨isComb, single⟩ := unaryComb?_eq_some.mp unary
    rw [Edit.ends_bind, Edit.ends_of_run (Edit.run_modifyProcess got _)]
    have retold := prep.ready.inv.retold got isComb
    refine ⟨harmless,
      prep.setKind got rfl (by rw [isComb]; rfl) ?_ (prep.lasting.retold retold prep.holds), once.2,
      fun entry mem => ?_⟩
    · exact defect?_map isComb single (prep.ready.legal.fits got)
    · obtain ⟨other, gotOther, unaryOther⟩ := waiting entry (mem_cons_of_mem _ mem)
      refine ⟨other, ?_, unaryOther⟩
      rw [process?_setProcess, if_neg (once.1 entry mem)]
      exact gotOther
  · intro note mem
    cases mem
  · -- Different processes have different names.
    refine (pairwise_map.mp net.nodup_toList).filterMap _ ?_
    rintro first second apart one isOne other isOther
    obtain ⟨-, -, rfl⟩ := map_eq_some_iff.mp isOne
    obtain ⟨-, -, rfl⟩ := map_eq_some_iff.mp isOther
    exact apart
  · intro entry candidate
    obtain ⟨⟨id, proc⟩, mem, isEntry⟩ := mem_filterMap.mp candidate
    obtain ⟨fn, unary, rfl⟩ := map_eq_some_iff.mp isEntry
    exact ⟨proc, mem_toList.mp mem, unary⟩

end Dataflow.Network
