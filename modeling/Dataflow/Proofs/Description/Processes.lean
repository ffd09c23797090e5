import Dataflow.Proofs.Description.Declared
import Mathlib.Data.List.Sort

/-! When the processes of a description can be added, and what is there then. -/

open List

namespace Dataflow

theorem nodup_map_iff {α β : Type} {key : α → β} {entries : List α} :
    (entries.map key).Nodup ↔
      ∀ done entry, done ++ [entry] <+: entries → key entry ∉ done.map key := by
  constructor
  · rintro once done entry ⟨rest, rfl⟩ mem
    rw [append_assoc, map_append, nodup_append] at once
    exact once.2.2 _ mem _ (mem_map_of_mem (by simp)) rfl
  · intro each
    induction entries using List.reverseRecOn with
    | nil => exact nodup_nil
    | append_singleton front entry ih =>
      have pre := ih fun done other ahead => each done other (ahead.trans (prefix_append ..))
      rw [map_append]
      refine nodup_append.mpr ⟨pre, by simp, fun other mem last isLast same => ?_⟩
      exact each front entry (prefix_refl _) (mem_singleton.mp isLast ▸ same ▸ mem)

theorem forall_prefix_iff {α : Type} {holds : α → Prop} {entries : List α} :
    (∀ done entry, done ++ [entry] <+: entries → holds entry) ↔ ∀ entry ∈ entries, holds entry := by
  constructor
  · intro each entry mem
    obtain ⟨front, rest, split⟩ := append_of_mem mem
    exact each front entry ⟨rest, by rw [split]; simp⟩
  · exact fun all done entry ahead => all entry (ahead.subset (by simp))

namespace ProcessDecl

/-- The declaration with more ports. -/
def addPorts (decl : ProcessDecl) (direction : Direction) (ports : List PortDecl) : ProcessDecl :=
  match direction with
  | .input => { decl with inPorts := decl.inPorts ++ ports }
  | .output => { decl with outPorts := decl.outPorts ++ ports }

variable {decl : ProcessDecl} {dir : Direction}

@[simp] theorem addPorts_nil : decl.addPorts dir [] = decl := by
  cases dir <;> simp [addPorts]

@[simp] theorem id_addPorts (ports : List PortDecl) : (decl.addPorts dir ports).id = decl.id := by
  cases dir <;> rfl

@[simp] theorem ports_addPorts (ports : List PortDecl) :
    (decl.addPorts dir ports).ports dir = decl.ports dir ++ ports := by
  cases dir <;> rfl

theorem addPort_addPorts (ports : List PortDecl) (port : PortDecl) :
    (decl.addPorts dir ports).addPort dir port = decl.addPorts dir (ports ++ [port]) := by
  cases dir <;> simp [addPorts, addPort]

@[simp] theorem id_blank : decl.blank.id = decl.id := rfl

@[simp] theorem isLeaf_blank : decl.blank.kind.isLeaf = decl.kind.isLeaf := by
  simp [blank, Kind.isLeaf]

end ProcessDecl

namespace Description

variable {desc : Description} {decl : ProcessDecl} {hier : Hierarchy}

/-- The processes that have a place, with it. -/
def placed (description : Description) : List (Hierarchy × ProcessDecl) :=
  description.processes.filterMap fun decl => (description.place decl).toOption.map (·, decl)

theorem mem_placed :
    (hier, decl) ∈ desc.placed ↔ decl ∈ desc.processes ∧ desc.place decl = .ok hier := by
  rw [placed, mem_filterMap]
  constructor
  · rintro ⟨other, mem, isPlace⟩
    cases place : desc.place other with
    | error reason => simp [place, Except.toOption] at isPlace
    | ok has =>
      simp only [place, Except.toOption, Option.map_some, Option.some.injEq, Prod.mk.injEq]
        at isPlace
      obtain ⟨rfl, rfl⟩ := isPlace
      exact ⟨mem, place⟩
  · rintro ⟨mem, place⟩
    exact ⟨decl, mem, by simp [place, Except.toOption]⟩

theorem parent?_of_place (place : desc.place decl = .ok hier) : hier.parent? = decl.parent :=
  (above_of_place place).getLast?_eq

theorem map_placed (every : ∀ decl ∈ desc.processes, ∃ hier, desc.place decl = .ok hier) :
    desc.placed.map (·.2) = desc.processes := by
  have whole : desc.processes.filterMap
      (fun decl => ((desc.place decl).toOption.map (·, decl)).map (·.2)) =
      desc.processes.filterMap some := filterMap_congr fun decl mem => by
    obtain ⟨hier, place⟩ := every decl mem
    simp [place, Except.toOption]
  rw [placed, map_filterMap, whole, filterMap_some]

/-- The processes in the order in which they are added: outer ones first. -/
def queue (description : Description) : List (Hierarchy × ProcessDecl) :=
  description.placed.mergeSort fun first second => first.1.depth ≤ second.1.depth

/-- The name of a process is new behind others, and the composite it is placed in is among them. -/
def Fits (done : List (Hierarchy × ProcessDecl)) (entry : Hierarchy × ProcessDecl) : Prop :=
  entry.2.id ∉ done.map (·.2.id) ∧
  ∀ parent, entry.1.parent? = some parent →
    ∃ outer ∈ done, outer.2.id = parent ∧ outer.2.kind.isLeaf = false

/-- A process can be added behind others with all its ports. -/
def Follows (done : List (Hierarchy × ProcessDecl)) (entry : Hierarchy × ProcessDecl) : Prop :=
  Fits done entry ∧ ∀ direction, ((entry.2.ports direction).map (·.name)).Nodup

theorem perm_queue : desc.queue.Perm desc.placed :=
  mergeSort_perm ..

theorem sorted_queue : desc.queue.Pairwise fun first second => first.1.depth ≤ second.1.depth := by
  have sorted :=
    pairwise_mergeSort
      (fun first second third (pre : decide (first.1.depth ≤ second.1.depth) = true)
        (behind : decide (second.1.depth ≤ third.1.depth) = true) => ?_)
      (fun first second => ?_) desc.placed
  · exact sorted.imp fun ordered => of_decide_eq_true ordered
  · grind
  · grind

theorem exists_composite {kind : Kind Helpers} :
    kind.isLeaf = false ↔ ∃ helpers, kind = .composite helpers := by
  cases kind <;> simp [Kind.isLeaf, Kind.inside?]

theorem child_of_place (distinct : (desc.processes.map (·.id)).Nodup) {outer : ProcessDecl}
    {place : Hierarchy} (inner : desc.place decl = .ok hier) (isOuter : outer ∈ desc.processes)
    (around : desc.place outer = .ok place) (parent : decl.parent = some outer.id) :
    hier = place.child outer.id := by
  have above := above_of_place inner
  rw [parent] at above
  obtain ⟨path⟩ := hier
  obtain ⟨outerPath⟩ := place
  cases above with
  | inside has above =>
    rw [find?_eq_some distinct isOuter] at has
    obtain rfl := Option.some.inj has
    have same : outerPath = _ := (above_of_place around).unique above
    rw [same]
    rfl

theorem arranged_iff : desc.Arranged ↔
    (∀ decl ∈ desc.processes, ∃ hier, desc.place decl = .ok hier) ∧
      ∀ done entry, done ++ [entry] <+: desc.queue → Follows done entry := by
  constructor
  · intro arranged
    have every := fun decl (mem : decl ∈ desc.processes) => arranged.exists_place mem
    refine ⟨every, ?_⟩
    have once : (desc.queue.map (·.2.id)).Nodup := by
      have same : (desc.placed.map (·.2.id)) = desc.processes.map (·.id) := by
        rw [← map_placed every, map_map]
        rfl
      exact ((perm_queue.map _).nodup_iff.mpr (same ▸ arranged.distinct))
    intro done entry ahead
    have mem : entry ∈ desc.queue := ahead.subset (by simp)
    obtain ⟨isDeclared, place⟩ := mem_placed.mp (perm_queue.mem_iff.mp mem)
    refine ⟨⟨nodup_map_iff.mp once done entry ahead, fun parent isParent => ?_⟩,
      arranged.ports _ isDeclared⟩
    rw [parent?_of_place place] at isParent
    obtain ⟨outer, isOuter, rfl, comp⟩ := arranged.parents _ isDeclared parent isParent
    obtain ⟨around, placeOuter⟩ := arranged.exists_place isOuter
    have less : around.depth < entry.1.depth := by
      rw [child_of_place arranged.distinct place isOuter placeOuter isParent]
      simp [Hierarchy.depth, Hierarchy.child]
    -- What is less deep is not behind.
    have pre : (around, outer) ∈ done := by
      have isQueued := perm_queue.mem_iff.mpr (mem_placed.mpr ⟨isOuter, placeOuter⟩)
      obtain ⟨rest, split⟩ := ahead
      have sorted := @sorted_queue desc
      rw [← split, append_assoc] at isQueued sorted
      rcases mem_append.mp isQueued with isDone | behind
      · exact isDone
      rcases mem_cons.mp behind with same | behind
      · grind
      · have ordered := rel_of_pairwise_cons (pairwise_append.mp sorted).2.1 behind
        exact absurd less (Nat.not_lt.mpr ordered)
    exact ⟨_, pre, rfl, exists_composite.mpr comp⟩
  · rintro ⟨every, each⟩
    have queued {decl} (mem : decl ∈ desc.processes) :
        ∃ hier done, desc.place decl = .ok hier ∧ done ++ [(hier, decl)] <+: desc.queue := by
      obtain ⟨hier, place⟩ := every decl mem
      obtain ⟨done, rest, split⟩ :=
        append_of_mem (perm_queue.mem_iff.mpr (mem_placed.mpr ⟨mem, place⟩))
      exact ⟨hier, done, place, rest, by rw [split]; simp⟩
    have distinct : (desc.processes.map (·.id)).Nodup := by
      have once : (desc.queue.map (·.2.id)).Nodup :=
        nodup_map_iff.mpr fun done entry ahead => (each done entry ahead).1.1
      rw [← map_placed every, map_map]
      exact (perm_queue.map _).nodup_iff.mp once
    refine ⟨distinct, acyclic_of_above distinct fun decl mem => ?_,
      fun decl mem parent isParent => ?_, fun decl mem dir => ?_⟩
    · obtain ⟨hier, place⟩ := every decl mem
      exact ⟨_, above_of_place place⟩
    · obtain ⟨hier, done, place, ahead⟩ := queued mem
      obtain ⟨outer, isDone, named, comp⟩ :=
        (each done _ ahead).1.2 parent ((parent?_of_place place).trans isParent)
      have isQueued := ahead.subset (mem_append_left _ isDone)
      exact ⟨outer.2, (mem_placed.mp (perm_queue.mem_iff.mp isQueued)).1, named,
        exists_composite.mp comp⟩
    · obtain ⟨hier, done, -, ahead⟩ := queued mem
      exact (each done _ ahead).2 dir

/-- What is declared when some composites have been given their helpers. -/
def filled (description : Description) (done : List ProcessDecl) : List (Hierarchy × ProcessDecl) :=
  description.placed.map fun entry => (entry.1, if entry.2 ∈ done then entry.2 else entry.2.blank)

theorem filled_processes : desc.filled desc.processes = desc.placed := by
  refine (map_congr_left fun entry mem => ?_).trans (map_id' _)
  rw [if_pos (mem_placed.mp mem).1]

theorem filled_append_leaf (done : List ProcessDecl) (leaf : decl.kind.isLeaf) :
    desc.filled (done ++ [decl]) = desc.filled done := by
  have same : decl.blank = decl := by
    rcases decl with ⟨_, _, kind, _, _⟩
    cases kind with
    | composite => cases leaf
    | _ => rfl
  refine map_congr_left fun entry _ => ?_
  by_cases isDecl : entry.2 = decl
  · simp [isDecl, same]
  · simp [isDecl]

theorem mem_filled_append (distinct : (desc.processes.map (·.id)).Nodup)
    (mem : decl ∈ desc.processes) (place : desc.place decl = .ok hier) (done : List ProcessDecl)
    (entry : Hierarchy × ProcessDecl) :
    entry ∈ desc.filled (done ++ [decl]) ↔
      entry = (hier, decl) ∨ entry ∈ desc.filled done ∧ entry.2.id ≠ decl.id := by
  have named (other : ProcessDecl) : (if other ∈ done then other else other.blank).id =
    other.id := by split <;> rfl
  constructor
  · intro isFilled
    obtain ⟨other, isPlaced, rfl⟩ := mem_map.mp isFilled
    obtain ⟨isDeclared, placeOther⟩ := mem_placed.mp isPlaced
    by_cases isDecl : other.2 = decl
    · simp_all
    · refine .inr ⟨mem_map.mpr ⟨other, isPlaced, by simp [isDecl]⟩, fun same => isDecl ?_⟩
      exact eq_of_id_eq distinct isDeclared mem (by split at same <;> exact same)
  · rintro (rfl | ⟨isFilled, elsewhere⟩)
    · exact mem_map.mpr ⟨_, mem_placed.mpr ⟨mem, place⟩, by simp⟩
    · obtain ⟨other, isPlaced, rfl⟩ := mem_map.mp isFilled
      have isOther : other.2 ≠ decl :=
        fun same => elsewhere ((named other.2).trans (congrArg ProcessDecl.id same))
      exact mem_map.mpr ⟨other, isPlaced, by simp [isOther]⟩

end Description

namespace Builder

open Network

variable {net : Network} {base : List (Hierarchy × ProcessDecl)} {hier : Hierarchy}
  {decl : ProcessDecl}
  {desc : Description} {done : List ProcessDecl}

theorem finds_addPorts (dir : Direction) (ports : List PortDecl)
    (declares : net.Declares (base ++ [(hier, decl)])) (bare : net.Bare)
    (apart : decl.id ∉ base.map (·.2.id)) (portless : decl.ports dir = []) :
    Finds
      (ports.forM fun port =>
        discard <| attempt (some decl.id) ""
          (discard <| Edit.addPort decl.id port.name dir port.dataType))
      net (ports.map (·.name)).Nodup
      fun _ after => after.Declares (base ++ [(hier, decl.addPorts dir ports)]) ∧ after.Bare := by
  refine (Finds.forM (fun done port => port.name ∉ done.map (·.name))
    (fun done net => net.Declares (base ++ [(hier, decl.addPorts dir done)]) ∧ net.Bare)
    (fun done port net _ ⟨declares, bare⟩ => ?_) (fun port => (grows_attempt_addPort ..).discard)
    ⟨?_, bare⟩).congr nodup_map_iff.symm
    fun _ _ _ reached => reached
  · have names : ((decl.addPorts dir done).ports dir).map (·.name) = done.map (·.name) := by
      rw [ProcessDecl.ports_addPorts, portless, nil_append]
    refine Finds.discard_attempt (fun fresh => ?_) (fun known => ?_) _ _
    · have added :=
        declares.addPort bare (by rwa [ProcessDecl.id_addPorts]) dir port (by rwa [names])
      rwa [ProcessDecl.id_addPorts, ProcessDecl.addPort_addPorts] at added
    · have refused := declares.addPort_error dir port (by rw [names]; exact not_not.mp known)
      rwa [ProcessDecl.id_addPorts] at refused
  · rwa [ProcessDecl.addPorts_nil]

section

variable (declares : net.Declares (base.map fun entry => (entry.1, entry.2.blank)))
  (bare : net.Bare) (placed : hier.parent? = decl.parent)

include declares bare placed

theorem finds_settle :
    Finds
      (attempt (some decl.id) ""
        (discard <| Edit.addProcess decl.id (decl.kind.mapInside fun _ => {}) hier))
      net (Description.Fits base (hier, decl)) fun added after =>
        added = true ∧ after.Declares
          ((base.map fun entry => (entry.1, entry.2.blank)) ++
            [(hier, { decl.blank with inPorts := [], outPorts := [] })]) ∧ after.Bare := by
  have unused : net.process? decl.id = none ↔ decl.id ∉ base.map (·.2.id) := by
    rw [declares.process?_eq_none_iff, map_map]
    rfl
  have housed (parent : ProcessId) : (∃ children, net.childrenOf? parent = some children) ↔
      ∃ outer ∈ base, outer.2.id = parent ∧ outer.2.kind.isLeaf = false := by
    rw [declares.exists_children_iff]
    simp
  refine Finds.attempt (fun fits => ?_) (fun misplaced => ?_) _ _
  · have inside (parent : ProcessId) (isParent : hier.parent? = some parent) :=
      (housed parent).mpr (fits.2 parent isParent)
    obtain ⟨next, runs, settled⟩ :=
      run_addProcess declares.inv (unused.mpr fits.1) (decl.kind.mapInside fun _ => {}) hier
        inside
    refine ⟨next, by rw [Edit.run_discard, runs], ?_, fun has => ?_, ?_, ?_⟩
    · have shown : next.decl decl.id
          { kind := decl.kind.mapInside fun _ => {}, hierarchy := hier } =
          { decl.blank with inPorts := [], outPorts := [] } := by
        simp [Network.decl, ProcessDecl.blank, decls, placed]
      rw [← shown]
      refine settled.declares declares inside fun inside isInside => ?_
      simp only [Kind.inside?_mapInside, Option.map_eq_some_iff] at isInside
      obtain ⟨_, -, rfl⟩ := isInside
      rfl
    · rw [port?, settled.ports] at has
      exact bare.free has
    · rw [settled.inputs, bare.inputs]
    · rw [settled.outputs, bare.outputs]
  · have wrong : net.process? decl.id ≠ none ∨ ∃ parent, hier.parent? = some parent ∧
        net.childrenOf? parent = none := by
      by_cases fresh : decl.id ∉ base.map (·.2.id)
      · refine .inr
          (by_contra fun inside => misplaced ⟨fresh, fun parent isParent => (housed parent).mp ?_⟩)
        exact Option.ne_none_iff_exists'.mp fun absent => inside ⟨parent, isParent, absent⟩
      · exact .inl (mt unused.mp fresh)
    obtain ⟨fault, next, refuses⟩ :=
      run_addProcess_error (decl.kind.mapInside fun _ => {}) hier wrong
    exact ⟨fault, next, by rw [Edit.run_discard, refuses]⟩

theorem finds_addProcess :
    Finds (addProcess hier decl) net (Description.Follows base (hier, decl)) fun _ after =>
      after.Declares ((base ++ [(hier, decl)]).map fun entry => (entry.1, entry.2.blank)) ∧
      after.Bare := by
  refine (finds_settle declares bare placed).bind (fun added between fits reached => ?_)
    (grows_attempt_addProcess ..) fun added => ?_
  · obtain ⟨isAdded, declares, bare⟩ := reached
    rw [isAdded]
    have apart : decl.id ∉ (base.map fun entry => (entry.1, entry.2.blank)).map (·.2.id) := by
      rw [map_map]
      exact fits.1
    refine ((finds_addPorts .input decl.inPorts declares bare apart rfl).bind
      (fun _ between _ reached =>
      finds_addPorts .output decl.outPorts reached.1 reached.2 apart rfl) ?_ fun _ => ?_).congr ?_
      fun _ _ _ reached => ⟨?_, reached.2⟩
    · exact grows_addPorts ..
    · exact grows_addPorts ..
    · exact ⟨fun both dir => by cases dir; exacts [both.1, both.2],
        fun both => ⟨both .input, both .output⟩⟩
    · rw [map_append]
      exact reached.1
  · split
    · exact (grows_addPorts ..).bind fun _ => grows_addPorts ..
    · exact .pure _

end

theorem finds_locate (desc : Description) (decl : ProcessDecl) :
    Finds (locate desc decl) net (∃ hier, desc.place decl = .ok hier) fun ans after =>
      ans = (desc.place decl).toOption.map (·, decl) ∧ after = net := by
  unfold locate
  cases place : desc.place decl with
  | ok hier => exact (Finds.pure (some (hier, decl))).congr (by simp) fun _ _ _ same => same
  | error reason =>
    cases reason with
    | cyclic => exact .of_error (fun findings => ⟨_, rfl⟩) (by simp)
    | missing parent => exact .of_error (fun findings => ⟨_, rfl⟩) (by simp)

theorem finds_forM_addProcess {queue : List (Hierarchy × ProcessDecl)}
    (placed : ∀ entry ∈ queue, entry.1.parent? = entry.2.parent) (declares : net.Declares [])
    (bare : net.Bare) :
    Finds (queue.forM fun entry => addProcess entry.1 entry.2) net
      (∀ done entry, done ++ [entry] <+: queue → Description.Follows done entry)
      fun _ after => after.Declares (queue.map fun entry => (entry.1, entry.2.blank)) ∧
        after.Bare := by
  refine Finds.forM Description.Follows
    (fun done net => net.Declares (done.map fun entry => (entry.1, entry.2.blank)) ∧ net.Bare)
    (fun done entry net ahead reached => ?_) (fun entry => grows_addProcess entry.1 entry.2)
      ⟨declares, bare⟩
  exact finds_addProcess reached.1 reached.2
    (placed entry (ahead.subset (mem_append_right done mem_cons_self)))

theorem finds_addProcesses (declares : net.Declares []) (bare : net.Bare) :
    Finds (addProcesses desc) net desc.Arranged fun _ after =>
      after.Declares (desc.placed.map fun entry => (entry.1, entry.2.blank)) ∧ after.Bare := by
  have steps := @finds_forM_addProcess net desc.queue (fun entry mem =>
    Description.parent?_of_place
    (Description.mem_placed.mp (Description.perm_queue.mem_iff.mp mem)).2) declares bare
  have every :
      (desc.processes.map fun decl => (desc.place decl).toOption.map (·, decl)).reduceOption =
      desc.placed := by
    rw [List.reduceOption, filterMap_map]
    rfl
  refine ((Finds.mapM (finds_locate desc) (grows_locate desc) desc.processes).bind
    (fun answers between _ same => ?_) (Grows.mapM (grows_locate desc) _) fun answers =>
    Grows.forM (fun entry : Hierarchy × ProcessDecl => grows_addProcess entry.1 entry.2) _).congr
    Description.arranged_iff.symm
    fun _ after _ (reached : after.Declares (desc.queue.map fun entry => (entry.1, entry.2.blank)) ∧
      after.Bare) => ?_
  · rw [same.1, same.2, every]
    exact steps
  · refine ⟨⟨reached.1.inv, reached.1.nested, fun id entry => ?_⟩, reached.2⟩
    rw [reached.1.shown, (Description.perm_queue.map _).mem_iff]

theorem finds_helper (subject : Option ProcessId) (message : String) (helper : ProcessId) :
    Finds (do unless (← get).net.contains helper do unknown subject message) net
      (net.contains helper) fun _ after => after = net := by
  refine Finds.get_bind fun building isNet => ?_
  rw [isNet]
  by_cases known : net.contains helper
  · rw [if_pos known]
    exact (Finds.pure _).congr (by simp [known]) fun _ _ _ same => same.2
  · rw [if_neg known]
    exact .of_error (fun findings => ⟨_, rfl⟩) known

section

variable (arranged : desc.Arranged) (mem : decl ∈ desc.processes)
  (declares : net.Declares (desc.filled done))

include arranged mem declares

theorem finds_fill (bare : net.Bare) (fresh : decl ∉ done) {helpers : Helpers}
    (comp : decl.kind = .composite helpers) :
    Finds
      (discard <| attempt (some decl.id) "" (Edit.modifyProcess decl.id fun proc => { proc with
        kind := proc.kind.mapInside fun inside => { inside with toHelpers := helpers } }))
      net True fun _ after => after.Declares (desc.filled (done ++ [decl])) ∧ after.Bare := by
  obtain ⟨hier, place⟩ := arranged.exists_place mem
  have shown : (hier, decl.blank) ∈ desc.filled done :=
    mem_map.mpr ⟨_, Description.mem_placed.mpr ⟨mem, place⟩, by simp [fresh]⟩
  have whole : { decl.blank with kind := decl.blank.kind.mapInside fun _ => helpers } = decl := by
    rcases decl with ⟨_, _, kind, _, _⟩
    simp only at comp
    rw [comp]
    rfl
  obtain ⟨next, runs, declaresNext, ports, inputs, outs⟩ :=
      declares.fill shown helpers fun other => by
    rw [Description.mem_filled_append arranged.distinct mem place, whole, ProcessDecl.id_blank]
  have bareNext : next.Bare := by
    refine ⟨fun {key port} has => ?_, inputs.trans bare.inputs, outs.trans bare.outputs⟩
    rw [ports] at has
    exact bare.free has
  exact Finds.discard_attempt (fun _ => ⟨next, runs, declaresNext, bareNext⟩)
    (fun wrong => absurd trivial wrong) _ _

theorem finds_fillComposite (bare : net.Bare) (fresh : decl ∉ done) :
    Finds (fillComposite decl) net
      (∀ helpers, decl.kind = .composite helpers →
        ∀ helper ∈ helpers.inputs ++ helpers.outputs, ∃ other ∈ desc.processes, other.id = helper)
      fun _ after => after.Declares (desc.filled (done ++ [decl])) ∧ after.Bare := by
  have known (id : ProcessId) : net.contains id ↔ ∃ other ∈ desc.processes, other.id = id := by
    have names : (desc.filled done).map (·.2.id) = desc.processes.map (·.id) := by
      rw [← Description.map_placed fun decl mem => arranged.exists_place mem, Description.filled,
        map_map, map_map]
      refine map_congr_left fun entry _ => ?_
      simp only [Function.comp_apply]
      split <;> rfl
    rw [contains_eq, Option.isSome_iff_ne_none, Ne, declares.process?_eq_none_iff, not_not,
      names, mem_map]
  unfold fillComposite
  split
  · rename_i helpers comp
    refine Finds.get_bind fun building isNet => ?_
    rw [isNet, if_pos ((known decl.id).mpr ⟨decl, mem, rfl⟩)]
    have grows (helper : ProcessId) (message : String) :
        Grows (do unless (← get).net.contains helper do unknown (some decl.id) message) := by
      refine Grows.get.bind fun _ => ?_
      split
      · exact .pure _
      · exact grows_unknown ..
    refine ((Finds.forM (fun _ helper => net.contains helper = true) (fun _ after => after = net)
      (fun _ helper between _ same => by rw [same]; exact finds_helper ..)
      (fun helper => grows helper _) rfl).bind
      (fun _ between _ same => by rw [same]; exact finds_fill arranged mem declares bare fresh comp)
      (Grows.forM (fun helper => grows helper _) _) fun _ =>
      (grows_attempt_modifyProcess _ _ _ fun _ dir => by cases dir <;> rfl).discard).congr ?_
      fun _ after _ reached => reached
    rw [and_iff_left trivial, forall_prefix_iff]
    constructor
    · grind
    · grind
  · rename_i leaf
    have isLeaf : decl.kind.isLeaf := by
      cases kind : decl.kind with
      | composite helpers => exact absurd kind (leaf helpers)
      | _ => rfl
    rw [Description.filled_append_leaf done isLeaf]
    refine (Finds.pure _).congr ?_ fun _ _ _ same => same.2 ▸ ⟨declares, bare⟩
    exact iff_of_true trivial fun helpers comp => (leaf helpers comp).elim

end

theorem finds_forM_fillComposite (arranged : desc.Arranged)
    (declares : net.Declares (desc.placed.map fun entry => (entry.1, entry.2.blank)))
    (bare : net.Bare) :
    Finds (desc.processes.forM fillComposite) net
      (∀ decl ∈ desc.processes, ∀ helpers, decl.kind = .composite helpers →
        ∀ helper ∈ helpers.inputs ++ helpers.outputs, ∃ other ∈ desc.processes, other.id = helper)
      fun _ after => after.Declares desc.placed ∧ after.Bare := by
  refine (Finds.forM
      (fun _ decl => ∀ helpers, decl.kind = .composite helpers →
        ∀ helper ∈ helpers.inputs ++ helpers.outputs, ∃ other ∈ desc.processes, other.id = helper)
      (fun done net => net.Declares (desc.filled done) ∧ net.Bare)
    (fun done decl net ahead reached => ?_) grows_fillComposite ⟨?_, bare⟩).congr forall_prefix_iff
    fun _ _ _ reached => ?_
  · have fresh := nodup_map_iff.mp arranged.distinct done decl ahead
    exact finds_fillComposite arranged (ahead.subset (by simp)) reached.1 reached.2 fun too =>
      fresh (mem_map_of_mem too)
  · simpa only [Description.filled, not_mem_nil, if_false] using declares
  · rwa [Description.filled_processes] at reached

end Builder

end Dataflow
