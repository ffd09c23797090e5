import Dataflow.Proofs.Edit.Primitive

/-! Removing a process: its ports are freed one by one, and nothing that remains knows of it. -/

open List Option

namespace Dataflow

/-- The kind of a process that lost a child. -/
def Kind.disown (child : ProcessId) (kind : Kind Composite) : Kind Composite :=
  kind.mapInside fun inside => { inside with children := inside.children.filter (· ≠ child) }

theorem Kind.disown_leaf {kind : Kind Composite} (leaf : kind.isLeaf) (child : ProcessId) :
    kind.disown child = kind := by
  cases kind <;> first | rfl | simp [isLeaf, inside?] at leaf

/-- A process that lost a child, but none of its ports. -/
def Process.disown (child : ProcessId) (process : Process) : Process :=
  { process with kind := process.kind.disown child }

namespace Network

variable {net next last : Network} {id : ProcessId} {key : PortKey} {keys : List PortKey}
  {proc : Process}

/-- What is left when ports are freed: nothing leads to them any more, and all else is as before. -/
structure Freed (net : Network) (keys : List PortKey) (next : Network) : Prop where
  ports : ∀ key, next.port? key =
    if key ∈ keys then none else (net.port? key).map (Port.without keys)
  linked : next.Linked
  processes : next.processes = net.processes
  inputs : next.inputs = net.inputs
  outputs : next.outputs = net.outputs
  names : next.names = net.names
  nextKey : next.ports.nextKey = net.ports.nextKey

theorem Freed.nil (linked : net.Linked) : net.Freed [] net where
  ports key := by
    have same : Port.without [] = id := funext fun port => Port.without_eq_self (by simp)
    simp [same]
  linked := linked
  processes := rfl
  inputs := rfl
  outputs := rfl
  names := rfl
  nextKey := rfl

/-- Freeing one port after others frees them all. -/
theorem Freed.cons (first : net.Freed [key] next) (rest : next.Freed keys last) :
    net.Freed (key :: keys) last where
  ports other := by
    have both (port : Port) : Port.without keys (port.without [key]) =
        port.without (key :: keys) := by
      unfold Port.without
      cases port.connection with
      | none => rfl
      | some peer => by_cases here : peer = key <;> simp [here]
    rw [rest.ports, first.ports]
    by_cases here : other = key
    · simp [here]
    · simp [here, Option.map_map, Function.comp_def, both]
  linked := rest.linked
  processes := rest.processes.trans first.processes
  inputs := rest.inputs.trans first.inputs
  outputs := rest.outputs.trans first.outputs
  names := rest.names.trans first.names
  nextKey := rest.nextKey.trans first.nextKey

/-- A single port is freed. -/
theorem Freed.single (linked : net.Linked) {port : Port} (has : net.port? key = some port) :
    net.Freed [key] ((net.unlink key).freeKey key) where
  ports other := by
    rw [port?_freeKey, linked.port?_unlink has]
    by_cases same : key = other
    · simp [same]
    · simp [same, Ne.symm same]
  linked place other left hasLeft conn := by
    rw [port?_freeKey] at hasLeft ⊢
    split at hasLeft
    · simp at hasLeft
    obtain ⟨peer, hasPeer, leadsBack, crosses⟩ := linked.unlink has hasLeft conn
    have notThere : key ≠ other := by
      rintro rfl
      rw [linked.port?_unlink has, has] at hasPeer
      simp only [map_some, if_true, some.injEq] at hasPeer
      simp [← hasPeer] at leadsBack
    exact ⟨peer, by rw [if_neg notThere, hasPeer], leadsBack, crosses⟩
  processes := by
    unfold freeKey unlink
    split <;> rfl
  inputs := inputs_unlink ..
  outputs := outputs_unlink ..
  names := names_unlink ..
  nextKey := by simp

theorem run_freePorts (linked : net.Linked) (distinct : keys.Nodup)
    (live : ∀ key ∈ keys, (net.port? key).isSome) :
    ∃ next, (forM keys Edit.freePort).run net = .ok () next ∧ net.Freed keys next := by
  induction keys generalizing net with
  | nil => exact ⟨net, rfl, .nil linked⟩
  | cons key keys ih =>
    obtain ⟨port, has⟩ := isSome_iff_exists.mp (live key (by simp))
    have first := Freed.single linked has
    have stillLive : ∀ other ∈ keys, (((net.unlink key).freeKey key).port? other).isSome := by
      intro other mem
      have different : other ≠ key := by grind
      rw [first.ports]
      simp [different, live other (by simp [mem])]
    obtain ⟨next, run, rest⟩ := ih first.linked (nodup_cons.mp distinct).2 stillLive
    refine ⟨next, ?_, first.cons rest⟩
    rw [forM_cons, EStateM.run_bind, Edit.run_freePort linked has]
    exact run

/-- What is left when a process is removed. -/
structure Removed (net : Network) (id : ProcessId) (process : Process) (next : Network) : Prop where
  processes : ∀ other, next.process? other =
    if other = id then none
    else (net.process? other).map fun found =>
      if process.hierarchy.parent? = some other then found.disown id else found
  ports : ∀ key, next.port? key =
    if key ∈ process.allPorts then none else (net.port? key).map (Port.without process.allPorts)
  linked : next.Linked
  inputs : next.inputs = net.inputs
  outputs : next.outputs = net.outputs
  names : next.names = net.names
  nextKey : next.ports.nextKey = net.ports.nextKey

theorem run_disown (net : Network) (parent child : ProcessId) :
    ∃ next, (Edit.disown parent child).run net = .ok () next ∧
      (∀ other, next.process? other =
        (net.process? other).map fun has => if parent = other then has.disown child else has) ∧
      next.ports = net.ports ∧ next.inputs = net.inputs ∧ next.outputs = net.outputs ∧
      next.names = net.names := by
  have still : (∀ has, net.process? parent = some has → has.disown child = has) →
      ∀ other, net.process? other = (net.process? other).map fun has =>
        if parent = other then has.disown child else has := by
    intro unchanged other
    cases has : net.process? other with
    | none => rfl
    | some proc => grind
  cases has : net.process? parent with
  | none => exact ⟨net, by simp [Edit.disown, has], still (by simp [has]), rfl, rfl, rfl, rfl⟩
  | some proc =>
    obtain ⟨kind, hier, inPorts, outPorts⟩ := proc
    by_cases leaf : kind.isLeaf
    · refine ⟨net, ?_, still ?_, rfl, rfl, rfl, rfl⟩
      · cases kind <;> simp [Edit.disown, has, Kind.isLeaf, Kind.inside?] at leaf ⊢
      · rintro proc hasProc
        rw [has] at hasProc
        cases hasProc
        simp [Process.disown, Kind.disown_leaf leaf]
    · cases kind with
      | composite inside =>
        refine ⟨net.setProcess parent
          (Process.disown child ⟨.composite inside, hier, inPorts, outPorts⟩), ?_, fun other => ?_,
          rfl, rfl, rfl, rfl⟩
        · simp [Edit.disown, has, Edit.run_modifyProcess has, Process.disown, Kind.disown,
            Kind.mapInside]
        · rw [process?_setProcess]
          by_cases here : parent = other
          · subst here
            simp [has]
          · simp [here]
      | _ => simp [Kind.isLeaf, Kind.inside?] at leaf

section

variable (inv : net.Consistent) (got : net.process? id = some proc)
  (inner : ∀ key ∈ proc.allPorts, ¬net.isBoundary key)

include inv got inner

theorem run_removeProcess :
    ∃ next, (Edit.removeProcess id).run net = .ok proc next ∧ net.Removed id proc next := by
  have live : ∀ key ∈ proc.allPorts, (net.port? key).isSome := fun key mem => by
    obtain ⟨port, has, -⟩ := (inv.mem_allPorts got).mp mem
    simp [has]
  obtain ⟨freed, run, isFreed⟩ := run_freePorts inv.linked (inv.nodup_allPorts got) live
  have noBdry : proc.allPorts.find? net.isBoundary = none :=
    find?_eq_none.mpr (by simpa using inner)
  have erased (other : ProcessId) :
      (freed.eraseProcess id).process? other = if other = id then none else net.process? other := by
    rw [process?_eraseProcess, process?, isFreed.processes]
    by_cases same : other = id
    · simp [same]
    · simp [same, Ne.symm same, process?]
  cases placed : proc.hierarchy.parent? with
  | none =>
    refine ⟨freed.eraseProcess id, ?_, ?_, isFreed.ports, isFreed.linked, isFreed.inputs,
      isFreed.outputs, isFreed.names, isFreed.nextKey⟩
    · simp [Edit.removeProcess, process_eq_ok.mpr got, noBdry, run, placed, eraseProcess]
    · simp [erased, placed]
  | some parent =>
    obtain ⟨next, disowned, procs, ports, inputs, outs, names⟩ :=
      run_disown (freed.eraseProcess id) parent id
    simp only [eraseProcess] at disowned
    have has (key : PortKey) : next.port? key = freed.port? key := by rw [port?, ports]; rfl
    refine ⟨next, ?_, ?_, fun key => by rw [has, isFreed.ports], ?_, inputs.trans isFreed.inputs,
      outs.trans isFreed.outputs, names.trans isFreed.names, by rw [ports]; exact isFreed.nextKey⟩
    · simp [Edit.removeProcess, process_eq_ok.mpr got, noBdry, run, placed, disowned]
    · grind
    · intro key other port hasPort conn
      simp only [has] at hasPort ⊢
      exact isFreed.linked hasPort conn

/-- Removing a process keeps a network consistent. -/
theorem Removed.evolves (removed : net.Removed id proc next) : net.Evolves next := by
  -- What remains was there before, with the same ports and declarations.
  have old {other new} (has : next.process? other = some new) :
      other ≠ id ∧ ∃ old, net.process? other = some old ∧ ∀ dir, new.ports dir = old.ports dir := by
    rw [removed.processes] at has
    split at has
    · simp at has
    · rename_i different
      obtain ⟨pre, hasPre, rfl⟩ := map_eq_some_iff.mp has
      refine ⟨different, pre, hasPre, fun dir => ?_⟩
      split <;> cases dir <;> rfl
  have oldPort {key port} (has : next.port? key = some port) :
      ∃ old, net.port? key = some old ∧ old.unlinked = port.unlinked ∧ old.owner ≠ id := by
    rw [removed.ports] at has
    split at has
    · simp at has
    · rename_i unlisted
      obtain ⟨pre, hasPre, rfl⟩ := map_eq_some_iff.mp has
      exact ⟨pre, hasPre, rfl,
        fun same => unlisted ((inv.mem_allPorts got).mpr ⟨pre, hasPre, same⟩)⟩
  have stays {key port} (has : net.port? key = some port) (elsewhere : port.owner ≠ id) :
      next.port? key = some (port.without proc.allPorts) := by
    have unlisted : key ∉ proc.allPorts := fun mem => by
      have same := of_found has ((inv.mem_allPorts got).mp mem)
      exact elsewhere same
    simp [removed.ports, unlisted, has]
  refine ⟨⟨?listed, ?once, ?owned, removed.linked, ?named, ?boundary, ?taken⟩,
    Nat.le_of_eq removed.nextKey.symm, ?stable, fun taken => removed.names ▸ taken⟩
  case listed =>
    intro other new dir key has mem
    obtain ⟨different, pre, hasPre, ports⟩ := old has
    obtain ⟨port, hasPort, rfl, side⟩ := inv.listed hasPre (ports dir ▸ mem)
    exact ⟨_, stays hasPort different, rfl, side⟩
  case once =>
    intro other new dir has
    obtain ⟨-, pre, hasPre, ports⟩ := old has
    exact ports dir ▸ inv.once hasPre
  case owned =>
    intro key port has
    obtain ⟨pre, hasPre, same, elsewhere⟩ := oldPort has
    obtain ⟨-, sameOwner, sameSide, -⟩ := Port.unlinked_eq.mp same
    obtain ⟨owner, hasOwner, mem⟩ := inv.owned hasPre
    refine ⟨_, by rw [removed.processes, ← sameOwner, if_neg elsewhere, hasOwner, map_some], ?_⟩
    rw [← sameSide]
    split <;> cases side : pre.direction <;> exact side ▸ mem
  case named =>
    intro key other port peer has hasOther owner side name
    obtain ⟨pre, hasPre, same, -⟩ := oldPort has
    obtain ⟨otherPre, hasOtherPre, sameOther, -⟩ := oldPort hasOther
    rw [Port.unlinked_eq] at same sameOther
    exact inv.named hasPre hasOtherPre (by simp_all) (by simp_all) (by simp_all)
  case boundary =>
    intro key onBdry
    have pre : net.isBoundary key := by
      simpa [isBoundary, removed.inputs, removed.outputs] using onBdry
    obtain ⟨port, has⟩ := isSome_iff_exists.mp (inv.boundary pre)
    have elsewhere : port.owner ≠ id := fun same =>
      inner key ((inv.mem_allPorts got).mpr ⟨port, has, same⟩) pre
    simp [stays has elsewhere]
  case taken =>
    intro other new has
    obtain ⟨-, pre, hasPre, -⟩ := old has
    exact removed.names ▸ inv.taken hasPre
  case stable => grind

end

theorem ends_removeProcess (inv : net.Consistent) (got : net.process? id = some proc) :
    (Edit.removeProcess id).Ends net
      (fun _ next => (∀ key ∈ proc.allPorts, ¬ net.isBoundary key) ∧ net.Removed id proc next)
      fun next => next = net ∧ ∃ key ∈ proc.allPorts, net.isBoundary key := by
  by_cases inner : ∀ key ∈ proc.allPorts, ¬ net.isBoundary key
  · obtain ⟨next, runs, removed⟩ := run_removeProcess inv got inner
    exact (Edit.ends_of_run runs).mpr ⟨inner, removed⟩
  · obtain ⟨key, mem, onBdry⟩ : ∃ key ∈ proc.allPorts, net.isBoundary key := by simpa using inner
    obtain ⟨first, isFirst⟩ : ∃ first, proc.allPorts.find? net.isBoundary = some first :=
      isSome_iff_exists.mp (List.find?_isSome.mpr ⟨key, mem, onBdry⟩)
    have refused : (Edit.removeProcess id).run net = .error (.danglingBoundary first id) net := by
      simp [Edit.removeProcess, process_eq_ok.mpr got, isFirst]
    rw [Edit.Ends, refused]
    exact ⟨rfl, key, mem, onBdry⟩

end Network

end Dataflow
