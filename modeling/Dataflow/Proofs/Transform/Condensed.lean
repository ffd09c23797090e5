import Dataflow.Proofs.Region.Fan
import Dataflow.Proofs.Schedule.Outdated
import Dataflow.Proofs.Transform.Merged

/-!
Networks in which one process has taken the place of everything between two others.

A row of one process is such a network. What is stored and connected in it is known up to the name
and the ports of the process, and so is its schedule.
-/

open List Option

namespace Dataflow

open Segment Network

namespace Network

/--
A region of a network has given way to one process.

The process has the ports that the region was entered and left at, under keys of its own. Everything
else is as it was, except that what led to the old keys leads to the new ones.
-/
structure Condensed (net : Network) (gone : List ProcessId) (entry exit : PortKey)
    (fresh : ProcessId) (kind : Kind Composite) (enter leave : PortKey) (next : Network) :
    Prop where
  absent : net.process? fresh = none
  processes : ∀ id, next.process? id =
    if id = fresh then some ⟨kind, {}, [enter], [leave]⟩
    else if id ∈ gone then none else net.process? id
  ports : ∀ key, next.port? key =
    if key = enter then (net.port? entry).map fun port => { port with owner := fresh }
    else if key = leave then (net.port? exit).map fun port => { port with owner := fresh }
    else if net.ownedBy gone key then none
    else (net.port? key).map fun port =>
      { port with connection := port.connection.map (reroute entry exit enter leave) }
  inputs : next.inputs = net.inputs
  outputs : next.outputs = net.outputs

end Network

section Ending

variable {rim : Rim} {count : Nat} {net : Network} {id other : ProcessId} {fns : List Func}
  {kept : Network → Prop}
  {gone : List ProcessId} {enter leave : PortKey} {kind : Kind Composite}

theorem Row.eq_of_process? (row : Row rim count [.single id fns] net) {proc : Process}
    (got : net.process? other = some proc) : other ∈ rim.ends ∨ other = id :=
  (row.covers got).imp_right fun within => mem_singleton.mp (within_singleton.mp within)

section

variable (row : Row rim count [.single id fns] net) (intact : rim.Intact)

include row intact

/-- The only process in a row has the ports that the row is entered and left at. -/
theorem Row.exists_process (prep : net.Prepared kept) :
    ∃ enter leave, rim.Around id id enter leave net ∧
      net.process? id = some ⟨.parallelMap (UInt64.ofNat count) fns, {}, [enter], [leave]⟩ := by
  obtain ⟨first, last, enter, leave, ⟨⟩, ⟨⟩, around⟩ := row.around
  refine ⟨enter, leave, around, ?_⟩
  have stands := row.stands _ mem_cons_self
  obtain ⟨proc, entry, exit, got, ins, outs⟩ :=
    prep.ready.legal.simple (isMapShaped_of_isParallelMap stands.isParallelMap)
  obtain ⟨inner, -, -, hasInner, enters, -⟩ := intact.exists_entry
  obtain ⟨outer, -, -, hasOuter, leaves, -⟩ := intact.exists_exit
  have hasEnter := around.enter
  have hasLeave := around.leave
  rw [hasInner] at hasEnter
  rw [hasOuter] at hasLeave
  have isEntry := prep.ready.inv.eq_of_inPorts got ins hasEnter rfl enters
  have isExit := prep.ready.inv.eq_of_outPorts got outs hasLeave rfl leaves
  have kind := stands.2
  rw [kindOf, got, elim_some] at kind
  have top : proc.hierarchy = {} := by
    have outermost := prep.top got
    rw [Hierarchy.parent?, getLast?_eq_none_iff] at outermost
    exact congrArg Hierarchy.mk outermost
  rw [got, isEntry, isExit, ← ins, ← outs, ← kind, ← top]

theorem Row.owner_mem_ends (prep : net.Prepared kept)
    (got : net.process? id = some ⟨kind, {}, [enter], [leave]⟩) {key : PortKey} {port : Port}
    (has : net.port? key = some port) (notEnter : key ≠ enter) (notLeave : key ≠ leave) :
    ∃ old, rim.origin.port? key = some old ∧ old.owner ∈ rim.ends := by
  obtain ⟨first, last, _, _, -, -, around⟩ := row.around
  obtain ⟨proc, gotOwner, mem⟩ := prep.ready.inv.owned has
  rcases row.eq_of_process? gotOwner with isEnd | same
  · rw [around.processes _ isEnd] at gotOwner
    obtain ⟨old, hasOld, owned, -⟩ := intact.inv.listed gotOwner mem
    exact ⟨old, hasOld, owned ▸ isEnd⟩
  · rw [same, got] at gotOwner
    obtain rfl := some.inj gotOwner
    cases dir : port.direction <;> rw [dir, Process.ports, mem_singleton] at mem
    · exact absurd mem notEnter
    · exact absurd mem notLeave

theorem Row.condensed (prep : net.Prepared kept)
    (covers : ∀ {id proc}, rim.origin.process? id = some proc → id ∈ rim.ends ∨ id ∈ gone)
    (outside : ∀ id ∈ rim.ends, id ∉ gone) :
    ∃ enter leave, rim.origin.Condensed gone rim.entry rim.exit id
      (.parallelMap (UInt64.ofNat count) fns) enter leave net := by
  obtain ⟨enter, leave, around, got⟩ := row.exists_process intact prep
  refine ⟨enter, leave, (row.stands _ mem_cons_self).1, fun other => ?_, fun key => ?_,
    around.inputs, around.outputs⟩
  · by_cases same : other = id
    · rw [if_pos same, same, got]
    by_cases isEnd : other ∈ rim.ends
    · rw [if_neg same, if_neg (outside other isEnd), around.processes other isEnd]
    -- Nothing else is left, and what was there is gone.
    have absent : net.process? other = none := eq_none_iff_forall_not_mem.mpr fun proc gotOther =>
      (row.eq_of_process? gotOther).elim isEnd same
    rw [if_neg same, absent]
    split
    · rfl
    · rename_i stays
      exact (eq_none_iff_forall_not_mem.mpr fun proc gotOther =>
        (covers gotOther).elim isEnd stays).symm
  · by_cases isEnter : key = enter
    · rw [if_pos isEnter, isEnter, around.enter]
    by_cases isLeave : key = leave
    · rw [if_neg isEnter, if_pos isLeave, isLeave, around.leave]
    rw [if_neg isEnter, if_neg isLeave]
    by_cases isEnd : ∃ port, rim.origin.port? key = some port ∧ port.owner ∈ rim.ends
    · obtain ⟨port, has, isEnd⟩ := isEnd
      rw [ownedBy_eq has, around.ports has isEnd, has]
      simp [outside _ isEnd]
    have absent : net.port? key = none := eq_none_iff_forall_not_mem.mpr fun port has =>
      isEnd (row.owner_mem_ends intact prep got has isEnter isLeave)
    rw [absent]
    cases has : rim.origin.port? key with
    | none => simp
    | some port =>
      obtain ⟨proc, gotOwner, -⟩ := intact.inv.owned has
      have inGone := (covers gotOwner).resolve_left fun ownerEnd => isEnd ⟨port, has, ownerEnd⟩
      simp [ownedBy_eq has, inGone]

theorem Row.mem_ids_iff : other ∈ net.ids ↔ other ∈ [rim.source, id, rim.sink] := by
  obtain ⟨first, last, enter, leave, -, -, around⟩ := row.around
  constructor
  · intro mem
    obtain ⟨proc, got⟩ := mem_ids.mp mem
    have cases := row.eq_of_process? got
    simp only [Rim.ends, mem_cons, not_mem_nil, or_false] at cases ⊢
    tauto
  · intro mem
    have cases : other ∈ rim.ends ∨ other = id := by
      simp only [Rim.ends, mem_cons, not_mem_nil, or_false] at mem ⊢
      tauto
    rcases cases with isEnd | rfl
    · obtain ⟨proc, fn, got, -⟩ := around.exists_process intact isEnd
      exact mem_ids.mpr ⟨proc, got⟩
    · obtain ⟨proc, got⟩ := (row.stands _ mem_cons_self).exists_process mem_cons_self
      exact mem_ids.mpr ⟨proc, got⟩

theorem Row.nodup : [rim.source, id, rim.sink].Nodup := by
  have outside (other : ProcessId) (isEnd : other ∈ rim.ends) : other ≠ id := fun same =>
    row.outside other isEnd (within_singleton.mpr (mem_singleton.mpr same))
  have front := outside rim.source (by simp [Rim.ends])
  have back := outside rim.sink (by simp [Rim.ends])
  have apart := intact.apart
  simp [front, back.symm, apart]

end

theorem Schedule.eq_of_sublist {first second third : ProcessId} {order : List ProcessId}
    (size : order.length = 3) (once : order.Nodup) (front : [first, second].Sublist order)
    (back : [second, third].Sublist order) : order = [first, second, third] := by
  have mem : third ∈ order := back.subset (by simp)
  have pre := idxOf_lt_of_sublist once front
  have behind := idxOf_lt_of_sublist once back
  have bound := idxOf_lt_length_of_mem mem
  have atFirst := getElem?_idxOf (front.subset mem_cons_self)
  have atSecond := getElem?_idxOf (back.subset mem_cons_self)
  have atThird := getElem?_idxOf mem
  rw [show order.idxOf first = 0 by omega] at atFirst
  rw [show order.idxOf second = 1 by omega] at atSecond
  rw [show order.idxOf third = 2 by omega] at atThird
  obtain ⟨x, y, z, rfl⟩ := length_eq_three.mp size
  simp only [getElem?_cons_zero, getElem?_cons_succ, some.injEq] at atFirst atSecond atThird
  rw [atFirst, atSecond, atThird]

section

variable (row : Row rim count [.single id fns] net) (intact : rim.Intact)

include row intact

theorem Row.order_eq (inv : net.Consistent)
    {sched : Schedule} (fits : sched.Fits net) : sched.order = [rim.source, id, rim.sink] := by
  obtain ⟨first, last, enter, leave, ⟨⟩, ⟨⟩, around⟩ := row.around
  have feedsFirst := around.feeds_first intact
  have feedsSink := around.feeds_sink intact
  have reachesSink : net.ReachesOutput rim.sink := ⟨rim.sink, around.emits intact, .refl⟩
  have reaches := reachesSink.head feedsSink
  have reachesSrc := reaches.head feedsFirst
  -- All three processes lead to the output, and there are no others.
  have members : sched.order.Perm [rim.source, id, rim.sink] := by
    refine (perm_ext_iff_of_nodup fits.once (row.nodup intact)).mpr fun other =>
      (fits.complete other).trans ⟨?_, ?_⟩
    · intro reached
      exact (row.mem_ids_iff intact).mp (mem_ids.mpr (inv.exists_of_reachesOutput reached))
    · intro mem
      simp only [mem_cons, not_mem_nil, or_false] at mem
      rcases mem with rfl | rfl | rfl <;> assumption
  have instant : ¬ net.isDelay id := not_isDelay_of_isMapShaped
    (isMapShaped_of_isParallelMap (row.stands _ mem_cons_self).isParallelMap)
  have instantSink : ¬ net.isDelay rim.sink := by
    obtain ⟨proc, fn, got, isMap⟩ :=
      around.exists_process intact (show rim.sink ∈ rim.ends by simp [Rim.ends])
    simp [isDelay, got, isMap, Kind.isDelay]
  exact Schedule.eq_of_sublist members.length_eq fits.once
    (fits.ordered id ((fits.complete id).mpr reaches) instant rim.source feedsFirst)
    (fits.ordered rim.sink ((fits.complete rim.sink).mpr reachesSink) instantSink id feedsSink)

theorem Row.joins (ready : net.Ready) :
    net.Joins rim.source 0 id 0 ∧ net.Joins id 0 rim.sink 0 := by
  obtain ⟨first, last, enter, leave, ⟨⟩, ⟨⟩, around⟩ := row.around
  have simple : net.Simple id := ready.legal.simple
    (isMapShaped_of_isParallelMap (row.stands _ mem_cons_self).isParallelMap)
  have simpleEnd {other} (isEnd : other ∈ rim.ends) : net.Simple other := by
    obtain ⟨proc, fn, got, isMap⟩ := around.exists_process intact isEnd
    exact ready.legal.simple (by simp [isMapShaped, got, isMap, Kind.isMapShaped])
  exact ⟨(simpleEnd (by simp [Rim.ends])).joins simple ready.inv (around.feeds_first intact),
    simple.joins (simpleEnd (by simp [Rim.ends])) ready.inv (around.feeds_sink intact)⟩

end

end Ending

end Dataflow
