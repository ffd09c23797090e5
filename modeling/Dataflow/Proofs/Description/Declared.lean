import Dataflow.Proofs.Description.Coherent
import Dataflow.Proofs.Description.Describe
import Dataflow.Proofs.Description.Findings
import Dataflow.Proofs.Network.Nested

/-! Networks under construction: what has been declared so far. -/

open List

namespace Dataflow

namespace ProcessDecl

/-- The declaration before a composite is given its helpers. -/
def blank (decl : ProcessDecl) : ProcessDecl :=
  { decl with kind := decl.kind.mapInside fun _ => {} }

/-- The declaration with one more port. -/
def addPort (decl : ProcessDecl) (direction : Direction) (port : PortDecl) : ProcessDecl :=
  match direction with
  | .input => { decl with inPorts := decl.inPorts ++ [port] }
  | .output => { decl with outPorts := decl.outPorts ++ [port] }

end ProcessDecl

namespace Network

variable {net next : Network} {id : ProcessId} {proc : Process} {entry : Hierarchy × ProcessDecl}
  {entries : List (Hierarchy × ProcessDecl)}

/-- The place and the declaration of a process. -/
def shown (net : Network) (id : ProcessId) : Option (Hierarchy × ProcessDecl) :=
  (net.process? id).map fun process => (process.hierarchy, net.decl id process)

/-- A consistent and nested network with exactly the given processes. -/
structure Declares (net : Network) (entries : List (Hierarchy × ProcessDecl)) : Prop where
  inv : net.Consistent
  nested : net.Nested
  shown : ∀ id entry, net.shown id = some entry ↔ entry ∈ entries ∧ entry.2.id = id

/-- Nothing is connected, and there is no boundary. -/
structure Bare (net : Network) : Prop where
  free : ∀ {key port}, net.port? key = some port → port.connection = none
  inputs : net.inputs = []
  outputs : net.outputs = []

theorem decls_congr {keys : List PortKey}
    (same : ∀ key ∈ keys, (next.port? key).map Port.unlinked = (net.port? key).map Port.unlinked) :
    next.decls keys = net.decls keys := by
  have decl (net : Network) (key : PortKey) : (net.port? key).map Port.decl =
      ((net.port? key).map Port.unlinked).map Port.decl := by
    rw [Option.map_map]
    rfl
  rw [decls, decls, map_filterMap, map_filterMap]
  refine filterMap_congr fun key mem => ?_
  rw [decl, decl, same key mem]

@[simp] theorem decls_setProcess (keys : List PortKey) :
    (net.setProcess id proc).decls keys = net.decls keys := rfl

theorem decl_congr (same : ∀ dir, next.decls (proc.ports dir) = net.decls (proc.ports dir)) :
    next.decl id proc = net.decl id proc := by
  have ins : next.decls proc.inPorts = net.decls proc.inPorts := same .input
  have outs : next.decls proc.outPorts = net.decls proc.outPorts := same .output
  rw [decl, decl, ins, outs]

theorem shown_congr (procs : ∀ id, next.process? id = net.process? id)
    (same : ∀ key, (next.port? key).map Port.unlinked = (net.port? key).map Port.unlinked)
    (id : ProcessId) : next.shown id = net.shown id := by
  rw [shown, procs]
  refine Option.map_congr fun proc _ => ?_
  rw [decl_congr fun _ => decls_congr fun key _ => same key]

namespace Declares

variable (declares : net.Declares entries)

include declares

theorem exists_process (mem : entry ∈ entries) :
    ∃ proc, net.process? entry.2.id = some proc ∧ proc.hierarchy = entry.1 ∧
      net.decl entry.2.id proc = entry.2 := by
  obtain ⟨proc, got, isEntry⟩ := Option.map_eq_some_iff.mp ((declares.shown _ entry).mpr ⟨mem, rfl⟩)
  exact ⟨proc, got, congrArg Prod.fst isEntry, congrArg Prod.snd isEntry⟩

theorem mem_of_process (got : net.process? id = some proc) :
    (proc.hierarchy, net.decl id proc) ∈ entries :=
  ((declares.shown id _).mp (by rw [Network.shown, got]; rfl)).1

theorem process?_eq_none_iff : net.process? id = none ↔ id ∉ entries.map (·.2.id) := by
  constructor
  · intro absent mem
    obtain ⟨entry, isEntry, rfl⟩ := mem_map.mp mem
    obtain ⟨proc, got, -⟩ := declares.exists_process isEntry
    simp [absent] at got
  · intro unlisted
    refine Option.eq_none_iff_forall_ne_some.mpr fun proc got => unlisted ?_
    exact mem_map.mpr ⟨_, declares.mem_of_process got, rfl⟩

theorem exists_children_iff : (∃ children, net.childrenOf? id = some children) ↔
    ∃ entry ∈ entries, entry.2.id = id ∧ entry.2.kind.isLeaf = false := by
  constructor
  · rintro ⟨children, isInside⟩
    obtain ⟨proc, inside, got, kind, -⟩ := childrenOf?_eq_some.mp isInside
    exact ⟨_, declares.mem_of_process got, rfl,
      by simp [decl, kind, Kind.isLeaf, Kind.mapInside, Kind.inside?]⟩
  · rintro ⟨entry, mem, rfl, comp⟩
    obtain ⟨proc, got, -, same⟩ := declares.exists_process mem
    rw [← same] at comp
    cases isInside : proc.kind.inside? with
    | none => simp [decl, Kind.isLeaf, isInside] at comp
    | some inside => exact ⟨inside.children, by simp [childrenOf?, got, isInside]⟩

theorem update (inv : next.Consistent) (nested : next.Nested) (new : Hierarchy × ProcessDecl)
    (named : new.2.id = id)
    (changed : ∀ other, next.shown other = if other = id then some new else net.shown other)
    {others : List (Hierarchy × ProcessDecl)}
    (same : ∀ entry, entry ∈ others ↔ entry = new ∨ entry ∈ entries ∧ entry.2.id ≠ id) :
    next.Declares others := by
  refine ⟨inv, nested, fun other entry => ?_⟩
  rw [changed, same]
  split
  · grind
  · rename_i elsewhere
    rw [declares.shown]
    constructor <;> grind

theorem relinked (inv : next.Consistent) (procs : ∀ id, next.process? id = net.process? id)
    (same : ∀ key, (next.port? key).map Port.unlinked = (net.port? key).map Port.unlinked) :
    next.Declares entries := by
  refine ⟨inv, declares.nested.congr (fun id => ?_) (fun id => ?_), fun id entry => ?_⟩
  · rw [parentOf?, procs, parentOf?]
  · rw [childrenOf?, procs, childrenOf?]
  · rw [shown_congr procs same, declares.shown]

end Declares

/-- A process that is added is declared behind the others. -/
theorem Settled.declares (settled : net.Settled id proc next) (declares : net.Declares entries)
    (housed : ∀ parent, proc.hierarchy.parent? = some parent →
      ∃ children, net.childrenOf? parent = some children)
    (bare : ∀ inside, proc.kind.inside? = some inside → inside.children = []) :
    next.Declares (entries ++ [(proc.hierarchy, next.decl id proc)]) := by
  have portless (other : ProcessId) (has : Process) : next.decl other has = net.decl other has := by
    have same (key : PortKey) : next.port? key = net.port? key := by
      rw [port?, settled.ports, port?]
    exact decl_congr fun _ => decls_congr fun key _ => congrArg _ (same key)
  have unlisted := declares.process?_eq_none_iff.mp settled.absent
  refine declares.update settled.evolves.inv (settled.nested declares.nested housed bare)
    (proc.hierarchy, next.decl id proc) (show (next.decl id proc).id = id from rfl)
      (fun other => ?_) fun entry => ?_
  · rw [shown, settled.processes]
    split
    · rename_i here
      rw [here]
      rfl
    · rw [Option.map_map]
      refine Option.map_congr fun has _ => ?_
      rw [Function.comp_apply, portless]
      split
      · cases kind : has.kind <;> simp [Process.adopt, decl, kind, Kind.mapInside]
      · rfl
  · grind

theorem Ported.decl_eq {port : Port} (ported : net.Ported proc port next)
    (live : ∀ key ∈ proc.allPorts, key < net.ports.nextKey) :
    next.decl id (proc.addPort port.direction net.ports.nextKey) =
      (net.decl id proc).addPort port.direction port.decl := by
  have old {keys} (old : ∀ key ∈ keys, key < net.ports.nextKey) : next.decls keys =
      net.decls keys :=
    decls_congr fun key mem => by rw [ported.port_of_lt (old key mem)]
  have ins := old fun key mem => live key (mem_append_left _ mem)
  have outs := old fun key mem => live key (mem_append_right _ mem)
  have new (keys : List PortKey) : next.decls (keys ++ [net.ports.nextKey]) =
      next.decls keys ++ [port.decl] := by
    simp [decls, ported.ports]
  cases side : port.direction <;>
    simp [decl, Process.addPort, ProcessDecl.addPort, new, ins, outs]

theorem mem_map_ports {name : String} (dir : Direction) :
    name ∈ ((net.decl id proc).ports dir).map (·.name) ↔
      ∃ key ∈ proc.ports dir, ∃ port, net.port? key = some port ∧ port.name = name := by
  have ports : (net.decl id proc).ports dir = net.decls (proc.ports dir) := by cases dir <;> rfl
  rw [ports, decls, map_map, mem_map]
  constructor
  · rintro ⟨port, mem, rfl⟩
    obtain ⟨key, isKey, has⟩ := mem_filterMap.mp mem
    exact ⟨key, isKey, port, has, rfl⟩
  · rintro ⟨key, isKey, port, has, rfl⟩
    exact ⟨port, mem_filterMap.mpr ⟨key, isKey, has⟩, rfl⟩

section Ports

variable {base : List (Hierarchy × ProcessDecl)} {hier : Hierarchy} {decl : ProcessDecl}

/-- A port that is added is declared behind the others of its direction. -/
theorem Declares.addPort (declares : net.Declares (base ++ [(hier, decl)])) (bare : net.Bare)
    (apart : decl.id ∉ base.map (·.2.id)) (dir : Direction) (port : PortDecl)
    (fresh : port.name ∉ (decl.ports dir).map (·.name)) :
    ∃ next, (discard <| Edit.addPort decl.id port.name dir port.dataType : Edit Unit).run net =
      .ok () next ∧ next.Declares (base ++ [(hier, decl.addPort dir port)]) ∧ next.Bare := by
  have inv := declares.inv
  obtain ⟨proc, got, placed, same⟩ := declares.exists_process (mem_append_right base mem_cons_self)
  simp only at got placed same
  rw [← same, mem_map_ports] at fresh
  obtain ⟨next, runs, ported⟩ := inv.run_addPort got port.name dir port.dataType
    fun key mem other has named => fresh ⟨key, mem, other, has, named⟩
  -- The keys of all other ports are in use already.
  have known {other has} (isHas : net.process? other = some has) {side key}
      (mem : key ∈ has.ports side) :
      key < net.ports.nextKey := by
    obtain ⟨old, isOld, -⟩ := inv.listed isHas mem
    exact lt_nextKey isOld
  have nested : next.Nested :=
    declares.nested.update got ported.processes (by cases dir <;> rfl) (by cases dir <;> rfl)
  refine ⟨next, by rw [Edit.run_discard, runs],
    declares.update ported.evolves.inv nested (hier, decl.addPort dir port)
    (show (decl.addPort dir port).id = decl.id by cases dir <;> rfl) (fun other => ?_)
    fun entry => ?_, fun {key has} isHas => ?_, ?_, ?_⟩
  · rw [Network.shown, ported.processes]
    split
    · rename_i here
      have shows := @Ported.decl_eq net next decl.id proc _ ported fun key mem => by
        obtain ⟨side, isPort⟩ := Process.mem_allPorts.mp mem
        exact known got isPort
      rw [same] at shows
      rw [here, ← placed]
      exact congrArg some (Prod.ext (by cases dir <;> rfl) shows)
    · refine Option.map_congr fun has isHas => ?_
      have declared : next.decl other has = net.decl other has :=
        decl_congr fun side => decls_congr fun key mem => by
          rw [ported.port_of_lt (known isHas mem)]
      rw [declared]
  · grind
  · rw [ported.ports] at isHas
    split at isHas
    · rw [← Option.some.inj isHas]
    · exact bare.free isHas
  · rw [ported.inputs, bare.inputs]
  · rw [ported.outputs, bare.outputs]

theorem Declares.addPort_error (declares : net.Declares (base ++ [(hier, decl)])) (dir : Direction)
    (port : PortDecl) (known : port.name ∈ (decl.ports dir).map (·.name)) :
    ∃ fault next,
      (discard <| Edit.addPort decl.id port.name dir port.dataType : Edit Unit).run net =
        .error fault next := by
  obtain ⟨proc, got, -, same⟩ := declares.exists_process (mem_append_right base mem_cons_self)
  simp only at got same
  rw [← same, mem_map_ports] at known
  have taken : (proc.ports dir).any fun key => (net.port? key).any (·.name = port.name) := by
    simpa [Option.any_eq_true] using known
  exact ⟨_, net, by rw [Edit.run_discard, Edit.run_addPort got, if_pos taken]⟩

end Ports

theorem Declares.fill (declares : net.Declares entries) (mem : entry ∈ entries) (helpers : Helpers)
    {others : List (Hierarchy × ProcessDecl)} (same : ∀ other, other ∈ others ↔
      other = (entry.1, { entry.2 with kind := entry.2.kind.mapInside fun _ => helpers }) ∨
        other ∈ entries ∧ other.2.id ≠ entry.2.id) :
    ∃ next, (Edit.modifyProcess entry.2.id fun proc => { proc with
        kind := proc.kind.mapInside fun inside => { inside with toHelpers := helpers } }).run net =
        .ok () next ∧ next.Declares others ∧ (∀ key, next.port? key = net.port? key) ∧
        next.inputs = net.inputs ∧ next.outputs = net.outputs := by
  obtain ⟨proc, got, placed, shows⟩ := declares.exists_process mem
  obtain ⟨changed, isChanged⟩ : ∃ changed : Process, changed = { proc with
    kind := proc.kind.mapInside fun inside => { inside with toHelpers := helpers } } := ⟨_, rfl⟩
  have runs := Edit.run_modifyProcess got fun proc => { proc with
    kind := proc.kind.mapInside fun inside => { inside with toHelpers := helpers } }
  rw [← isChanged] at runs
  have ports (dir : Direction) : changed.ports dir = proc.ports dir := by
    rw [isChanged]
    cases dir <;> rfl
  have evo := declares.inv.setProcess got fun dir => .of_eq (ports dir)
  have procs (other : ProcessId) : (net.setProcess entry.2.id changed).process? other =
      if other = entry.2.id then some changed else net.process? other := by
    rw [process?_setProcess]
    exact if_congr eq_comm rfl rfl
  have nested :=
    declares.nested.update got procs (by rw [isChanged]) (by simp [isChanged, Function.comp_def])
  refine ⟨_, runs, declares.update evo.inv nested
    (entry.1, { entry.2 with kind := entry.2.kind.mapInside fun _ => helpers }) rfl
    (fun other => ?_) same, fun _ => rfl, rfl, rfl⟩
  rw [Network.shown, procs]
  split
  · rename_i here
    rw [here, ← placed, ← shows, isChanged]
    simp [Network.decl]
  · rfl

end Network

end Dataflow
