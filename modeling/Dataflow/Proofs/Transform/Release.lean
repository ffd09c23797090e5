import Dataflow.Proofs.Transform.Bridge

/-! Dissolving a composite with nothing nested inside: its children move up, and it goes. -/

open List Option

namespace Dataflow

namespace Network

variable {net next : Network} {id other : ProcessId} {proc has : Process} {inside : Composite}
  {children : List ProcessId}

/-- A process whose place changes if it is among the given ones. -/
def lifted (id : ProcessId) (children : List ProcessId) (other : ProcessId) (found : Process) :
    Process :=
  if other ∈ children then { found with hierarchy := found.hierarchy.without id } else found

/-- A process that gets more children if it is around the given place. -/
def joined (children : List ProcessId) (hierarchy : Hierarchy) (other : ProcessId)
    (found : Process) : Process :=
  if hierarchy.parent? = some other then
    { found with
      kind := found.kind.mapInside fun inside =>
        { inside with children := inside.children ++ children } }
  else found

theorem run_forM_modifyProcess (change : Process → Process) (distinct : children.Nodup)
    (present : ∀ child ∈ children, (net.process? child).isSome) :
    ∃ next, (children.forM fun child => Edit.modifyProcess child change).run net = .ok () next ∧
      (∀ other, next.process? other =
        (net.process? other).map fun has => if other ∈ children then change has else has) ∧
      next.ports = net.ports ∧ next.inputs = net.inputs ∧ next.outputs = net.outputs := by
  -- Induction on the children, none of which is changed twice.
  induction children generalizing net with
  | nil => exact ⟨net, rfl, fun other => by simp, rfl, rfl, rfl⟩
  | cons child children ih =>
    obtain ⟨fresh, distinct⟩ := nodup_cons.mp distinct
    obtain ⟨has, got⟩ := isSome_iff_exists.mp (present child mem_cons_self)
    have still : ∀ other ∈ children,
        ((net.setProcess child (change has)).process? other).isSome := by
      intro other mem
      rw [process?_setProcess]
      split
      · rfl
      · exact present other (mem_cons_of_mem child mem)
    obtain ⟨next, runs, procs, ports, inputs, outs⟩ := ih distinct still
    refine ⟨next, ?_, fun other => ?_, ports, inputs, outs⟩
    · show (Edit.modifyProcess child change >>= fun _ => children.forM fun child =>
        Edit.modifyProcess child change : Edit PUnit).run net = _
      rw [EStateM.run_bind, Edit.run_modifyProcess got]
      exact runs
    · rw [procs, process?_setProcess]
      by_cases here : child = other
      · subst here
        simp [got, fresh]
      · simp [here, Ne.symm here]

theorem run_releaseChildren (placed : net.Placed) (got : net.process? id = some proc)
    (kind : proc.kind = .composite inside) :
    ∃ next, (Edit.releaseChildren id proc.hierarchy).run net = .ok () next ∧
      (∀ other, next.process? other =
        (net.process? other).map fun has =>
          joined inside.children proc.hierarchy other (lifted id inside.children other has)) ∧
      next.ports = net.ports ∧ next.inputs = net.inputs ∧ next.outputs = net.outputs := by
  have isInside : net.childrenOf? id = some inside.children :=
    childrenOf?_eq_some.mpr ⟨proc, inside, got, kind, rfl⟩
  have present : ∀ child ∈ inside.children, (net.process? child).isSome := by
    intro child mem
    have isParent := (placed.members isInside child).mp mem
    obtain ⟨has, gotChild, -⟩ := bind_eq_some_iff.mp isParent
    rw [gotChild, isSome_some]
  obtain ⟨between, runs, procs, ports, inputs, outs⟩ :=
    run_forM_modifyProcess (fun proc => { proc with hierarchy := proc.hierarchy.without id })
      (placed.once isInside) present
  simp only [Edit.releaseChildren, EStateM.run_bind, EStateM.run_get, process_eq_ok.mpr got,
    Edit.run_answer, kind, Kind.inside?, map_some, getD_some, runs]
  cases isParent : proc.hierarchy.parent? with
  | none =>
    refine ⟨between, rfl, fun other => ?_, ports, inputs, outs⟩
    simp [procs, joined, lifted, isParent]
  | some parent =>
    -- The composite around it is there.
    have isParentOf : net.parentOf? id = some parent := by rw [parentOf?, got]; exact isParent
    obtain ⟨mem, isAround⟩ := placed.housed isParentOf
    obtain ⟨around, _, gotAround, -⟩ := childrenOf?_eq_some.mp isAround
    have gotBetween := procs parent
    rw [gotAround] at gotBetween
    refine ⟨_, Edit.run_modifyProcess gotBetween _, fun other => ?_, ports, inputs, outs⟩
    rw [process?_setProcess]
    by_cases here : parent = other
    · subst here
      simp [gotAround, joined, lifted, isParent]
    · simp [procs, here, joined, lifted, isParent]

/-- No composite has more others around it. -/
def Innermost (net : Network) (process : Process) : Prop :=
  ∀ other found, net.process? other = some found → found.kind.isLeaf = false →
    found.hierarchy.depth ≤ process.hierarchy.depth

/-- What is left when the children of a composite moved up and it was removed. -/
structure Vacated (net : Network) (id : ProcessId) (process : Process) (inside : Composite)
    (next : Network) : Prop where
  evolves : net.Evolves next
  processes : ∀ other, next.process? other =
    if other = id then none
    else (net.process? other).map fun found =>
      if process.hierarchy.parent? = some other then
        (joined inside.children process.hierarchy other
          (lifted id inside.children other found)).disown id
      else lifted id inside.children other found
  declared : ∀ key, (next.port? key).map Port.unlinked =
    ((net.port? key).map Port.unlinked).filter (·.owner ∉ [id])
  connects : ∀ {source target}, next.Connects source target ↔
    source ∉ process.allPorts ∧ target ∉ process.allPorts ∧ net.Connects source target
  inputs : next.inputs = net.inputs
  outputs : next.outputs = net.outputs

theorem Placed.without_eq (placed : net.Placed) (got : net.process? id = some proc)
    (gotOther : net.process? other = some has) (isParent : has.hierarchy.parent? = some id) :
    has.hierarchy.without id = proc.hierarchy := by
  have place := of_found got (placed.rooted gotOther isParent)
  have apart : proc.hierarchy.path.filter (· ≠ id) = proc.hierarchy.path := by
    refine filter_eq_self.mpr fun around isAround => ?_
    simpa using fun same : around = id => placed.not_mem_path got (same ▸ isAround)
  rw [place, Hierarchy.without, Hierarchy.child, filter_append, apart]
  simp

theorem Placed.parent?_of_mem (placed : net.Placed) (got : net.process? id = some proc)
    (innermost : net.Innermost proc) (gotOther : net.process? other = some has)
    (around : id ∈ has.hierarchy.path) : has.hierarchy.parent? = some id := by
  have isParent : has.hierarchy.parent? =
      some (has.hierarchy.path.getLast (ne_nil_of_mem around)) :=
    getLast?_eq_some_getLast _
  obtain ⟨outer, gotOuter, place⟩ := placed.rooted gotOther isParent
  generalize has.hierarchy.path.getLast _ = parent at isParent gotOuter place
  rw [place] at around
  rcases mem_append.mp around with inner | here
  · obtain ⟨-, deeper⟩ := of_found got (placed.exists_composite gotOuter inner)
    obtain ⟨isComp, -⟩ :=
      of_found gotOuter (placed.exists_composite gotOther (mem_of_getLast? isParent))
    exact absurd (innermost parent outer gotOuter isComp) (Nat.not_le_of_lt deeper)
  · rw [isParent, mem_singleton.mp here]

namespace Vacated

theorem mem_children (placed : net.Placed) (got : net.process? id = some proc)
    (kind : proc.kind = .composite inside) (gotOther : net.process? other = some has) :
    other ∈ inside.children ↔ has.hierarchy.parent? = some id := by
  rw [placed.members (childrenOf?_eq_some.mpr ⟨proc, inside, got, kind, rfl⟩), parentOf?, gotOther]
  rfl

theorem places (vacated : net.Vacated id proc inside next) (placed : net.Placed)
    (got : net.process? id = some proc) (kind : proc.kind = .composite inside) (other : ProcessId) :
    (next.process? other).map (·.hierarchy) =
      if other = id then none
      else (net.process? other).map fun has =>
        if has.hierarchy.parent? = some id then proc.hierarchy else has.hierarchy := by
  rw [vacated.processes]
  split
  · rfl
  · rw [Option.map_map]
    refine map_congr fun has gotOther => ?_
    have moved : (lifted id inside.children other has).hierarchy =
        if has.hierarchy.parent? = some id then proc.hierarchy else has.hierarchy := by
      rw [lifted]
      by_cases child : has.hierarchy.parent? = some id
      · rw [if_pos ((mem_children placed got kind gotOther).mpr child), if_pos child]
        exact placed.without_eq got gotOther child
      · rw [if_neg fun mem => child ((mem_children placed got kind gotOther).mp mem), if_neg child]
    rw [← moved, Function.comp_apply]
    split
    · rename_i around
      rw [joined, if_pos around]
      rfl
    · rfl

theorem childrenOf?_eq (vacated : net.Vacated id proc inside next) (other : ProcessId) :
    next.childrenOf? other =
      if other = id then none
      else (net.childrenOf? other).map fun mem =>
        if proc.hierarchy.parent? = some other then (mem ++ inside.children).filter (· ≠ id)
        else mem := by
  rw [childrenOf?, vacated.processes]
  split
  · rfl
  · have unlifted (has : Process) : (lifted id inside.children other has).kind = has.kind := by
      rw [lifted]; split <;> rfl
    cases gotOther : net.process? other with
    | none => simp [childrenOf?, gotOther]
    | some has =>
      simp only [childrenOf?, gotOther, map_some, bind_some]
      split
      · rename_i around
        simp [joined, around, Process.disown, Kind.disown, unlifted, Function.comp_def]
      · simp [unlifted, Function.comp_def]

theorem parent?_ne (placed : net.Placed) (got : net.process? id = some proc)
    (innermost : net.Innermost proc) {comp : ProcessId} {around : Process}
    (gotAround : net.process? comp = some around) (isComp : around.kind.isLeaf = false) :
    around.hierarchy.parent? ≠ some id := fun isParent => by
  have place := of_found got (placed.rooted gotAround isParent)
  have deeper := innermost comp around gotAround isComp
  rw [place, Hierarchy.depth, Hierarchy.child, length_append, length_singleton, Hierarchy.depth]
    at deeper
  omega

/-- What was inside the composite is left inside the one around it. -/
theorem placed (vacated : net.Vacated id proc inside next) (placed : net.Placed)
    (got : net.process? id = some proc) (kind : proc.kind = .composite inside)
    (innermost : net.Innermost proc) : next.Placed := by
  have isInside : net.childrenOf? id = some inside.children :=
    childrenOf?_eq_some.mpr ⟨proc, inside, got, kind, rfl⟩
  have parent : net.parentOf? id = proc.hierarchy.parent? := by rw [parentOf?, got]; rfl
  have parents (other : ProcessId) : next.parentOf? other = if other = id then none else
      if net.parentOf? other = some id then proc.hierarchy.parent? else net.parentOf? other := by
    have byPlace (net : Network) : net.parentOf? other =
        ((net.process? other).map (·.hierarchy)).bind (·.parent?) := by
      rw [bind_map]
      rfl
    rw [byPlace next, vacated.places placed got kind, parentOf?]
    split
    · rfl
    · cases net.process? other with
      | none => simp
      | some has => grind
  -- The composite is not around itself.
  have apart : proc.hierarchy.parent? ≠ some id := fun around =>
    placed.not_mem_path got (mem_of_getLast? around)
  have housed {comp} (there : ∃ mem, net.childrenOf? comp = some mem) (elsewhere : comp ≠ id) :
      ∃ mem, next.childrenOf? comp = some mem := by
    obtain ⟨mem, isMem⟩ := there
    exact ⟨_, by rw [vacated.childrenOf?_eq, if_neg elsewhere, isMem]; rfl⟩
  refine ⟨⟨?_, ?_, ?_⟩, ?_⟩
  · intro child comp isParent
    rw [parents] at isParent
    split at isParent
    · cases isParent
    split at isParent
    · exact housed (placed.housed (parent.trans isParent)) fun same => apart (same ▸ isParent)
    · rename_i elsewhere
      exact housed (placed.housed isParent) fun same => elsewhere (same ▸ isParent)
  · intro comp mem isMem child
    rw [vacated.childrenOf?_eq] at isMem
    split at isMem
    · cases isMem
    rename_i elsewhere
    obtain ⟨pre, isPre, rfl⟩ := map_eq_some_iff.mp isMem
    have members := placed.members isPre child
    have membersToo := placed.members isInside child
    rw [parents]
    by_cases here : child = id
    · grind
    by_cases around : proc.hierarchy.parent? = some comp
    · grind
    · grind
  · intro comp mem isMem
    rw [vacated.childrenOf?_eq] at isMem
    split at isMem
    · cases isMem
    rename_i elsewhere
    obtain ⟨pre, isPre, rfl⟩ := map_eq_some_iff.mp isMem
    split
    · refine List.Nodup.filter _ (nodup_append.mpr ⟨placed.once isPre, placed.once isInside, ?_⟩)
      rintro child isChild _ isChildToo rfl
      have same :=
        ((placed.members isPre child).mp isChild).symm.trans
          ((placed.members isInside child).mp isChildToo)
      exact elsewhere (some.inj same)
    · exact placed.once isPre
  · intro other new comp gotNew isParent
    have place := vacated.places placed got kind other
    rw [gotNew] at place
    split at place
    · cases place
    obtain ⟨has, gotHas, same⟩ := map_eq_some_iff.mp place.symm
    have still {inner around} (gotInner : net.process? inner = some around)
        (isAround : around.hierarchy = new.hierarchy) (elsewhere : comp ≠ id) :
        ∃ outer, next.process? comp = some outer ∧ new.hierarchy = outer.hierarchy.child comp := by
      rw [← isAround] at isParent
      obtain ⟨outer, gotOuter, rooted⟩ := placed.rooted gotInner isParent
      obtain ⟨isComp, -⟩ :=
        of_found gotOuter (placed.exists_composite gotInner (mem_of_getLast? isParent))
      have placeOuter := vacated.places placed got kind comp
      rw [if_neg elsewhere, gotOuter, map_some,
        if_neg (parent?_ne placed got innermost gotOuter isComp)] at placeOuter
      obtain ⟨left, gotLeft, sameLeft⟩ := map_eq_some_iff.mp placeOuter
      exact ⟨left, gotLeft, by rw [← isAround, rooted, ← sameLeft]⟩
    split at same
    · exact still got same fun here => apart (by rw [same, isParent, here])
    · rename_i elsewhere
      exact still gotHas same fun here => elsewhere (by rw [same, isParent, here])

/-- The composite alone is gone. -/
theorem dissolved (vacated : net.Vacated id proc inside next) (placed : net.Placed)
    (got : net.process? id = some proc) (kind : proc.kind = .composite inside)
    (innermost : net.Innermost proc) : net.Dissolved [id] next where
  evolves := vacated.evolves
  placed := vacated.placed placed got kind innermost
  cores other := by
    rw [vacated.processes]
    by_cases here : other = id
    · simp [here]
    · rw [if_neg here, if_neg (by simpa using here), Option.map_map]
      refine map_congr fun has _ => ?_
      have lifts : (lifted id inside.children other has).core = has.core := by
        rw [lifted]
        split <;> rfl
      have joins (has : Process) : (joined inside.children proc.hierarchy other has).core =
          has.core := by
        rw [joined]
        split <;> simp [Process.core]
      rw [Function.comp_apply]
      split
      · rw [Process.core_disown, joins, lifts]
      · exact lifts
  places other := by
    rw [vacated.places placed got kind]
    by_cases here : other = id
    · simp [here]
    · rw [if_neg here, if_neg (by simpa using here)]
      refine map_congr fun has gotHas => ?_
      split
      · rename_i child
        rw [← placed.without_eq got gotHas child, Hierarchy.without, Hierarchy.outside]
        simp
      · rename_i elsewhere
        refine (Hierarchy.outside_eq_self fun around isAround isId => elsewhere ?_).symm
        obtain rfl := mem_singleton.mp isId
        exact placed.parent?_of_mem got innermost gotHas isAround
  declared := vacated.declared

end Vacated

theorem ends_vacate (inv : net.Consistent) (placed : net.Placed) (got : net.process? id = some proc)
    (kind : proc.kind = .composite inside) :
    (do Edit.releaseChildren id proc.hierarchy; discard <| Edit.removeProcess id : Edit Unit).Ends
      net
      (fun _ next => net.Vacated id proc inside next) fun next =>
        (∃ key ∈ proc.allPorts, net.isBoundary key) ∧ next.process? id = some proc ∧
        ∀ other, net.process? other = none → next.process? other = none := by
  obtain ⟨between, runs, procs, ports, inputs, outs⟩ := run_releaseChildren placed got kind
  have evo : net.Evolves between := (inv.referable.keeps_releaseChildren ..).evolves runs
  have has (key : PortKey) : between.port? key = net.port? key := by rw [port?, port?, ports]
  have connects {src dst} : between.Connects src dst ↔ net.Connects src dst := by
    simp only [Connects, has]
  -- The composite itself is not among what moves.
  have apart : proc.hierarchy.parent? ≠ some id :=
    fun around => placed.not_mem_path got (mem_of_getLast? around)
  have gotBetween : between.process? id = some proc := by
    have outside : id ∉ inside.children :=
      fun mem => apart ((Vacated.mem_children placed got kind got).mp mem)
    rw [procs, got, map_some, lifted, if_neg outside, joined, if_neg apart]
  rw [Edit.ends_bind, Edit.ends_of_run runs, Edit.ends_discard]
  refine (ends_removeProcess evo.inv gotBetween).mono ?_ ?_
  · rintro _ next ⟨inner, removed⟩
    refine ⟨evo.trans (removed.evolves evo.inv gotBetween inner), fun other => ?_,
      fun key => ?_, ?_, removed.inputs.trans inputs, removed.outputs.trans outs⟩
    · rw [removed.processes, procs]
      split
      · rfl
      · rw [Option.map_map]
        refine map_congr fun old _ => ?_
        rw [Function.comp_apply]
        split
        · rfl
        · rename_i elsewhere
          rw [joined, if_neg elsewhere]
    · rw [removed.declared evo.inv gotBetween, has]
    · intro src dst
      rw [removed.connects, connects]
  · rintro _ ⟨rfl, key, mem, onBdry⟩
    rw [isBoundary, inputs, outs] at onBdry
    exact ⟨⟨key, mem, onBdry⟩, gotBetween, fun other absent => by rw [procs, absent, map_none]⟩

end Network

end Dataflow
