import Dataflow.Proofs.Edit.Move
import Dataflow.Proofs.Network.Flow
import Mathlib.Data.List.Perm.Subperm

/-! Removing whole regions: what a process leads to goes with it, and nothing else. -/

open List Option

namespace Dataflow

namespace Network

variable {net next last : Network} {id src dst : ProcessId} {key : PortKey}
  {gone more : List ProcessId} {port : Port}

/-- There are no composites. -/
def Flat (net : Network) : Prop :=
  ∀ {id process}, net.process? id = some process → process.kind.isLeaf

/-- Whether a port belongs to one of the given processes. -/
def ownedBy (net : Network) (gone : List ProcessId) (key : PortKey) : Bool :=
  (net.port? key).any (·.owner ∈ gone)

/-- A port that loses its connection to any of the given processes. -/
def detach (net : Network) (gone : List ProcessId) (port : Port) : Port :=
  { port with connection := port.connection.filter (!net.ownedBy gone ·) }

/-- What is left when some processes are removed. -/
structure Without (net : Network) (gone : List ProcessId) (next : Network) : Prop where
  processes : ∀ id, next.process? id = if id ∈ gone then none else net.process? id
  ports : ∀ key, next.port? key =
    if net.ownedBy gone key then none else (net.port? key).map (net.detach gone)
  inputs : next.inputs = net.inputs
  outputs : next.outputs = net.outputs
  names : next.names = net.names
  nextKey : next.ports.nextKey = net.ports.nextKey

theorem ownedBy_eq (has : net.port? key = some port) :
    net.ownedBy gone key = decide (port.owner ∈ gone) := by
  simp [ownedBy, has]

namespace Without

/-- Removing nothing leaves everything. -/
theorem nil : net.Without [] net where
  processes := by simp
  ports key := by
    have none (other : PortKey) : net.ownedBy [] other = false := by
      cases has : net.port? other <;> simp [ownedBy, has]
    have same : net.detach [] = fun port => port := funext fun port => by
      obtain ⟨name, owner, dir, dataType, link⟩ := port
      cases link <;> simp [detach, none]
    simp [none, same]
  inputs := rfl
  outputs := rfl
  names := rfl
  nextKey := rfl

section

variable (without : net.Without gone next)

include without

theorem exists_port (has : next.port? key = some port) :
    ∃ old, net.port? key = some old ∧ old.owner ∉ gone ∧ port = net.detach gone old := by
  rw [without.ports] at has
  split at has
  · cases has
  · rename_i stays
    obtain ⟨old, hasOld, rfl⟩ := map_eq_some_iff.mp has
    rw [ownedBy_eq hasOld] at stays
    exact ⟨old, hasOld, by simpa using stays, rfl⟩

theorem port_of (has : net.port? key = some port) (stays : port.owner ∉ gone) :
    next.port? key = some (net.detach gone port) := by
  rw [without.ports, ownedBy_eq has, has]
  simp [stays]

theorem ownedBy_next (key : PortKey) :
    next.ownedBy more key = (net.ownedBy more key && !net.ownedBy gone key) := by
  cases has : net.port? key with
  | none => simp [ownedBy, without.ports, has]
  | some port =>
    rw [ownedBy, without.ports, ownedBy_eq has, ownedBy_eq has, has]
    by_cases stays : port.owner ∈ gone
    · simp [stays]
    · simp [stays, detach]

end

/-- What is removed in turn is removed together. -/
theorem trans (first : net.Without gone next) (second : next.Without more last) :
    net.Without (gone ++ more) last where
  processes other := by
    rw [second.processes, first.processes]
    by_cases new : other ∈ more <;> by_cases pre : other ∈ gone <;> simp [new, pre]
  ports key := by
    have owned (other : PortKey) : net.ownedBy (gone ++ more) other =
        (net.ownedBy gone other || net.ownedBy more other) := by
      cases has : net.port? other <;> simp [ownedBy, has, Bool.decide_or]
    rw [second.ports, first.ports, first.ownedBy_next, owned]
    cases pre : net.ownedBy gone key with
    | true => simp
    | false =>
      cases new : net.ownedBy more key with
      | true => simp
      | false =>
        simp only [Bool.false_and, Bool.not_false, Bool.or_self, Bool.false_eq_true, if_false,
          Option.map_map]
        refine map_congr fun port _ => ?_
        simp only [Function.comp_apply, detach, Option.filter_filter]
        congr 2
        funext other
        rw [first.ownedBy_next, owned]
        cases net.ownedBy gone other <;> simp
  inputs := second.inputs.trans first.inputs
  outputs := second.outputs.trans first.outputs
  names := second.names.trans first.names
  nextKey := second.nextKey.trans first.nextKey

section

variable (without : net.Without gone next)

include without

theorem feeds : next.Feeds src dst ↔ net.Feeds src dst ∧ src ∉ gone ∧ dst ∉ gone := by
  constructor
  · rintro ⟨key, port, other, peer, has, leaves, conn, hasPeer, rfl, rfl⟩
    obtain ⟨old, hasOld, stays, rfl⟩ := without.exists_port has
    obtain ⟨oldPeer, hasOldPeer, staysPeer, rfl⟩ := without.exists_port hasPeer
    have leads : old.connection = some other := (filter_eq_some_iff.mp conn).1
    exact ⟨⟨key, old, other, oldPeer, hasOld, leaves, leads, hasOldPeer, rfl, rfl⟩,
      stays, staysPeer⟩
  · rintro ⟨⟨key, port, other, peer, has, leaves, conn, hasPeer, rfl, rfl⟩, stays, staysPeer⟩
    refine ⟨key, _, other, _, without.port_of has stays, leaves, ?_,
      without.port_of hasPeer staysPeer, rfl, rfl⟩
    refine filter_eq_some_iff.mpr ⟨conn, ?_⟩
    simp [ownedBy_eq hasPeer, staysPeer]

theorem ids_subset : next.ids ⊆ net.ids := by
  intro other mem
  obtain ⟨proc, got⟩ := mem_ids.mp mem
  rw [without.processes] at got
  split at got
  · cases got
  · exact mem_ids.mpr ⟨proc, got⟩

theorem size_lt (present : net.contains id) (removed : id ∈ gone) : next.size < net.size := by
  have absent : id ∉ next.ids := fun mem => by
    obtain ⟨proc, got⟩ := mem_ids.mp mem
    simp [without.processes, removed] at got
  rw [contains_eq, isSome_iff_exists] at present
  have all : id :: next.ids ⊆ net.ids := cons_subset.mpr ⟨mem_ids.mpr present, without.ids_subset⟩
  have shorter := (subperm_of_subset (nodup_cons.mpr ⟨absent, nodup_ids next⟩) all).length_le
  rwa [length_cons, length_ids, length_ids] at shorter

theorem size_le : next.size ≤ net.size := by
  rw [← length_ids, ← length_ids]
  exact (subperm_of_subset (nodup_ids next) without.ids_subset).length_le

theorem flat (isFlat : net.Flat) : next.Flat := by
  intro id proc got
  rw [without.processes] at got
  split at got
  · cases got
  · exact isFlat got

end

end Without

/-- Removing one process of a flat network leaves the others as they were. -/
theorem Removed.without {proc : Process} (removed : net.Removed id proc next) (inv : net.Consistent)
    (got : net.process? id = some proc) (isFlat : net.Flat) : net.Without [id] next := by
  have owned (key : PortKey) : net.ownedBy [id] key = decide (key ∈ proc.allPorts) := by
    cases has : net.port? key with
    | none =>
      have absent : key ∉ proc.allPorts := fun mem => by
        obtain ⟨port, hasPort, -⟩ := (inv.mem_allPorts got).mp mem
        simp [has] at hasPort
      simp [ownedBy, has, absent]
    | some port =>
      have mem : key ∈ proc.allPorts ↔ port.owner = id := by
        rw [inv.mem_allPorts got]
        exact ⟨fun ⟨other, hasOther, same⟩ => by simp_all, fun same => ⟨port, has, same⟩⟩
      simp [ownedBy_eq has, mem]
  have detached : net.detach [id] = Port.without proc.allPorts := by
    funext port
    simp [detach, Port.without, owned]
  refine ⟨fun other => ?_, fun key => ?_, removed.inputs, removed.outputs, removed.names,
    removed.nextKey⟩
  · rw [removed.processes]
    by_cases here : other = id
    · simp [here]
    simp only [here, if_false, mem_singleton]
    have kept : (net.process? other).map (fun has =>
        if proc.hierarchy.parent? = some other then has.disown id else has) =
        (net.process? other).map fun has => has := by
      refine map_congr fun has gotOther => ?_
      split
      · rw [Process.disown, Kind.disown_leaf (isFlat gotOther)]
      · rfl
    simpa using kept
  · rw [removed.ports, owned, detached]
    simp

variable {mid : Network} {reg goals others : List ProcessId}

/-- A region of a flat network that nothing leaves and that meets the boundary nowhere. -/
structure Doomed (net : Network) (region : List ProcessId) : Prop where
  inv : net.Consistent
  flat : net.Flat
  closed : ∀ source ∈ region, ∀ target, net.Feeds source target → target ∈ region
  inner : ∀ id ∈ region, ∀ process, net.process? id = some process →
    ∀ key ∈ process.allPorts, ¬ net.isBoundary key

theorem Doomed.without (doomed : net.Doomed reg) (without : net.Without gone next)
    (inv : next.Consistent) : next.Doomed reg where
  inv := inv
  flat := without.flat doomed.flat
  closed src mem dst feeds := doomed.closed src mem dst (without.feeds.mp feeds).1
  inner other mem proc got key memKey := by
    rw [without.processes] at got
    split at got
    · cases got
    · rw [isBoundary, without.inputs, without.outputs]
      exact doomed.inner other mem proc got key memKey

/-- Of a region the goals were removed with everything they lead to. -/
structure Cleared (net : Network) (region goals gone : List ProcessId) (next : Network) : Prop where
  without : net.Without gone next
  inv : next.Consistent
  inside : gone ⊆ region
  present : ∀ id ∈ gone, net.contains id
  reaches : ∀ id ∈ goals, net.contains id → id ∈ gone
  closed : ∀ source ∈ gone, ∀ target, net.Feeds source target → target ∈ gone

theorem Cleared.nil (inv : net.Consistent) : net.Cleared reg [] [] net :=
  ⟨.nil, inv, nil_subset _, by simp, by simp, by simp⟩

theorem Without.contains (without : net.Without gone next) :
    next.contains id ↔ net.contains id ∧ id ∉ gone := by
  rw [contains_eq, contains_eq, without.processes]
  split <;> simp_all

/-- Goals can be removed in turn. -/
theorem Cleared.append (first : net.Cleared reg goals gone mid)
    (second : mid.Cleared reg others more next) :
    net.Cleared reg (goals ++ others) (gone ++ more) next where
  without := first.without.trans second.without
  inv := second.inv
  inside := append_subset.mpr ⟨first.inside, second.inside⟩
  present other mem := by
    rcases mem_append.mp mem with pre | new
    · exact first.present other pre
    · exact (first.without.contains.mp (second.present other new)).1
  reaches other mem present := by
    by_cases removed : other ∈ gone
    · exact mem_append_left _ removed
    rcases mem_append.mp mem with goal | goal
    · exact absurd (first.reaches other goal present) removed
    · exact mem_append_right _
        (second.reaches other goal (first.without.contains.mpr ⟨present, removed⟩))
  closed src mem dst feeds := by
    rcases mem_append.mp mem with pre | new
    · exact mem_append_left _ (first.closed src pre dst feeds)
    · by_cases removed : dst ∈ gone
      · exact mem_append_left _ removed
      · have stays := (first.without.contains.mp (second.present src new)).2
        exact mem_append_right _
          (second.closed src new dst (first.without.feeds.mpr ⟨feeds, stays, removed⟩))

/-- A process is removed before what it leads to. -/
theorem Cleared.head (inv : net.Consistent) (first : net.Without [id] mid) (mem : id ∈ reg)
    (present : net.contains id) (second : mid.Cleared reg (net.across id .output) more next) :
    net.Cleared reg [id] (id :: more) next where
  without := first.trans second.without
  inv := second.inv
  inside := cons_subset.mpr ⟨mem, second.inside⟩
  present other removed := by
    rcases mem_cons.mp removed with rfl | new
    · exact present
    · exact (first.contains.mp (second.present other new)).1
  reaches other goal _ := mem_cons.mpr (.inl (mem_singleton.mp goal))
  closed src removed dst feeds := by
    by_cases here : dst = id
    · exact mem_cons.mpr (.inl here)
    refine mem_cons_of_mem id ?_
    have elsewhere : dst ∉ [id] := by simpa using here
    rcases mem_cons.mp removed with rfl | new
    · have exists_ := isSome_iff_exists.mpr (inv.exists_target feeds)
      rw [← contains_eq] at exists_
      exact second.reaches dst (inv.mem_across_output.mpr feeds)
        (first.contains.mpr ⟨exists_, elsewhere⟩)
    · have stays := (first.contains.mp (second.present src new)).2
      exact second.closed src new dst (first.feeds.mpr ⟨feeds, stays, elsewhere⟩)

theorem Doomed.run_destroy (doomed : net.Doomed reg) (depth : Nat) (mem : id ∈ reg)
    (room : net.size ≤ depth) :
    ∃ removed gone next, (Edit.destroy depth id).run net = .ok removed next ∧
      net.Cleared reg [id] gone next := by
  induction depth generalizing net id with
  | zero =>
    have absent : ¬ net.contains id := fun present => by
      rw [contains_eq, isSome_iff_exists] at present
      have mem := length_pos_of_mem (mem_ids.mpr present)
      rw [length_ids] at mem
      omega
    refine ⟨0, [], net, rfl, { Cleared.nil doomed.inv with reaches := ?_ }⟩
    exact fun other goal present => absurd (mem_singleton.mp goal ▸ present) absent
  | succ depth ih =>
    by_cases present : net.contains id
    swap
    · refine ⟨0, [], net, by simp [Edit.destroy, present],
        { Cleared.nil doomed.inv with reaches := ?_ }⟩
      exact fun other goal here => absurd (mem_singleton.mp goal ▸ here) present
    -- What the process leads to is removed in turn, and each time the network is smaller.
    have fold (goals : List ProcessId) (inside : goals ⊆ reg) (net : Network)
        (doomed : net.Doomed reg)
        (room : net.size ≤ depth) (count : Nat) :
        ∃ removed gone next, (goals.foldlM (fun removed successor =>
            return removed + (← Edit.destroy depth successor)) count : Edit Nat).run net =
            .ok removed next ∧ net.Cleared reg goals gone next := by
      induction goals generalizing net count with
      | nil => exact ⟨count, [], net, rfl, .nil doomed.inv⟩
      | cons goal goals ihGoals =>
        obtain ⟨removed, gone, mid, destroys, first⟩ := ih doomed (inside mem_cons_self) room
        have smaller : mid.size ≤ depth := Nat.le_trans first.without.size_le room
        obtain ⟨total, more, next, run, rest⟩ :=
          ihGoals (fun other mem => inside (mem_cons_of_mem _ mem)) mid
            (doomed.without first.without first.inv) smaller (count + removed)
        refine ⟨total, gone ++ more, next, ?_, first.append rest⟩
        rw [foldlM_cons]
        simp only [EStateM.run_bind, destroys]
        exact run
    obtain ⟨proc, got⟩ : ∃ proc, net.process? id = some proc := by
      rwa [contains_eq, isSome_iff_exists] at present
    have inner := doomed.inner id mem proc got
    obtain ⟨mid, removes, removed⟩ := run_removeProcess doomed.inv got inner
    have without := removed.without doomed.inv got doomed.flat
    have inv := (removed.evolves doomed.inv got inner).inv
    have smaller := without.size_lt present (mem_singleton_self id)
    have inside : net.across id .output ⊆ reg := fun dst across =>
      doomed.closed id mem dst (doomed.inv.mem_across_output.mp across)
    obtain ⟨total, gone, next, run, cleared⟩ :=
      fold _ inside mid (doomed.without without inv) (by omega) 1
    refine ⟨total, id :: gone, next, ?_, .head doomed.inv without mem present cleared⟩
    simp only [Edit.destroy, successors, present, if_true, EStateM.run_bind, EStateM.run_get,
      doomed.inv.neighbours_eq got, Edit.run_answer, Edit.run_discard, removes]
    exact run

end Network

end Dataflow
