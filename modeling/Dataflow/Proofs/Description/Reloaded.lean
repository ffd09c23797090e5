import Dataflow.Proofs.Description.Renumbered
import Dataflow.Proofs.Network.Reachable
import Dataflow.Proofs.Transform.Flattened

/-! A network that was loaded, and transformed or not, can be described, and loading the description
gives it back. -/

open List

namespace Dataflow

namespace Network

variable {net next : Network} {id : ProcessId} {proc : Process} {key : PortKey} {top : Prop}
  {dir : Direction}

/-- Networks that a description can say everything about. -/
structure Presentable (net : Network) : Prop where
  referable : net.Referable True False
  placed : net.Placed
  staffed : ∀ {id process inside}, net.process? id = some process →
    process.kind = .composite inside →
    ∀ helper ∈ inside.inputs ++ inside.outputs, ∃ other, net.process? helper = some other

namespace Referable

variable (ref : net.Referable True top)

include ref

theorem labels_of_connected {port : Port} (has : net.port? key = some port)
    (conn : port.isConnected) : net.Labels port.direction key (net.portLabel key) :=
  ⟨port, has, rfl, ref.connected trivial has conn, by rw [portLabel, has]⟩

theorem labels_of_boundary (mem : key ∈ net.boundary dir) :
    net.Labels dir key (net.portLabel key) := by
  obtain ⟨port, has⟩ :=
    Option.isSome_iff_exists.mp (ref.toConsistent.boundary (isBoundary_iff.mpr ⟨dir, mem⟩))
  obtain ⟨faces, dotless⟩ := ref.sides trivial mem has
  exact ⟨port, has, faces, dotless, by rw [portLabel, has]⟩

theorem labels_of_connects {src dst : PortKey} (connects : net.Connects src dst) :
    net.Labels .output src (net.portLabel src) ∧ net.Labels .input dst (net.portLabel dst) := by
  obtain ⟨port, has, leaves, conn⟩ := connects
  obtain ⟨peer, hasPeer, back, -⟩ := ref.linked has conn
  have enters := ref.linked.crosses has conn hasPeer leaves
  rw [← leaves, ← enters]
  exact ⟨ref.labels_of_connected has (by rw [Port.isConnected, conn]; rfl),
    ref.labels_of_connected hasPeer (by rw [Port.isConnected, back]; rfl)⟩

end Referable

namespace Built

variable {entries : List (Hierarchy × ProcessDecl)} {links : List Connection}
  {inputs outs : List String}

/-- What was referred to can be referred to. -/
theorem referable (built : net.Built entries links inputs outs) : net.Referable True False where
  toConsistent := built.declares.inv
  connected _ key port has isConn := by
    obtain ⟨far, conn⟩ := Option.isSome_iff_exists.mp isConn
    have labelled {dir reference} (labels : net.Labels dir key reference) : port.Dotless := by
      obtain ⟨too, hasToo, -, dotless, -⟩ := labels
      exact Option.mem_unique has hasToo ▸ dotless
    cases side : port.direction with
    | output =>
      obtain ⟨link, -, isSrc, -⟩ := built.wires.declared ⟨port, has, side, conn⟩
      exact labelled isSrc
    | input =>
      obtain ⟨link, -, -, isDst⟩ :=
        built.wires.declared
          ((built.declares.inv.linked.connection_eq_some has side).mp conn)
      exact labelled isDst
  sides _ side key port mem has := by
    have labelled {references keys} (labels : List.Forall₂ (net.Labels side) keys references)
        (mem : key ∈ keys) : port.direction = side ∧ port.Dotless := by
      obtain ⟨idx, bound, isKey⟩ := mem_iff_getElem.mp mem
      have label := labels.get bound (labels.length_eq ▸ bound)
      simp only [get_eq_getElem, isKey] at label
      obtain ⟨too, hasToo, faces, dotless, -⟩ := label
      exact Option.mem_unique has hasToo ▸ ⟨faces, dotless⟩
    cases side with
    | input => exact labelled built.inputs mem
    | output => exact labelled built.outputs mem
  unnested isTop := isTop.elim

end Built

theorem presentable_of_load {text : String} (loaded : Network.load text = .ok net) :
    net.Presentable := by
  obtain ⟨desc, -, coherent, built⟩ := exists_description loaded
  refine ⟨built.referable, built.placed coherent.toArranged,
    fun {id proc inside} got kind helper mem => ?_⟩
  have isDeclared := (Description.mem_placed.mp (built.declares.mem_of_process got)).1
  have isComp : (net.decl id proc).kind = .composite inside.toHelpers := by
    change proc.kind.mapInside _ = _
    rw [kind]
    rfl
  obtain ⟨other, isOther, rfl⟩ := coherent.helpers _ isDeclared _ isComp helper mem
  obtain ⟨hier, place⟩ := coherent.toArranged.exists_place isOther
  obtain ⟨has, isHas, -⟩ :=
    built.declares.exists_process (Description.mem_placed.mpr ⟨isOther, place⟩)
  exact ⟨has, isHas⟩

namespace Presentable

variable (presentable : net.Presentable)

include presentable

theorem above (got : net.process? id = some proc) :
    net.description.Above proc.hierarchy.parent? proc.hierarchy.path := by
  have distinct := nodup_map_of_ordered net.ordered_processes
  generalize count : proc.hierarchy.depth = depth
  induction depth generalizing id proc with
  | zero =>
    rw [Hierarchy.parent?, eq_nil_of_length_eq_zero count]
    exact .top
  | succ depth ih =>
    obtain ⟨parent, isParent⟩ : ∃ parent, proc.hierarchy.parent? = some parent :=
      Option.isSome_iff_exists.mp (getLast?_isSome.mpr (ne_nil_of_length_eq_add_one count))
    obtain ⟨outer, gotOuter, place⟩ := presentable.placed.rooted got isParent
    have mem : net.decl parent outer ∈ net.description.processes :=
      mem_map.mpr ⟨(parent, outer), mem_toList.mpr gotOuter, rfl⟩
    have path : proc.hierarchy.path = outer.hierarchy.path ++ [parent] :=
      congrArg Hierarchy.path place
    rw [isParent, path]
    refine .inside (Description.find?_eq_some distinct mem) (ih gotOuter ?_)
    simp only [Hierarchy.depth, path, length_append, length_singleton] at count ⊢
    omega

/-- The processes of the description can be placed. -/
theorem arranged : net.description.Arranged := by
  have distinct := nodup_map_of_ordered net.ordered_processes
  have got {decl} (mem : decl ∈ net.description.processes) :
      ∃ id proc, net.process? id = some proc ∧ decl = net.decl id proc := by
    obtain ⟨⟨id, proc⟩, isMem, rfl⟩ := mem_map.mp mem
    exact ⟨id, proc, mem_toList.mp isMem, rfl⟩
  refine ⟨distinct, Description.acyclic_of_above distinct fun decl mem => ?_,
    fun decl mem parent isParent => ?_, fun decl mem dir => ?_⟩
  · obtain ⟨id, proc, isGot, rfl⟩ := got mem
    exact ⟨_, presentable.above isGot⟩
  · obtain ⟨id, proc, isGot, rfl⟩ := got mem
    obtain ⟨children, isInside⟩ :=
      presentable.placed.housed
        (show net.parentOf? id = some parent by rw [parentOf?, isGot]; exact isParent)
    obtain ⟨outer, inside, gotOuter, kind, -⟩ := childrenOf?_eq_some.mp isInside
    refine ⟨net.decl parent outer, mem_map.mpr ⟨(parent, outer), mem_toList.mpr gotOuter, rfl⟩, rfl,
      inside.toHelpers, ?_⟩
    change outer.kind.mapInside _ = _
    rw [kind]
    rfl
  · obtain ⟨id, proc, isGot, rfl⟩ := got mem
    have names : ((net.decl id proc).ports dir).map (·.name) =
        ((proc.ports dir).filterMap net.port?).map (·.name) := by
      cases dir <;>
        simp [decl, decls, ProcessDecl.ports, Process.ports, Port.decl, Function.comp_def]
    rw [names, List.Nodup, pairwise_map, pairwise_filterMap]
    refine (presentable.referable.once isGot).imp_of_mem
      fun {first second} isFirst isSecond apart port has peer hasPeer same => apart ?_
    obtain ⟨_, hasToo, owner, side⟩ := presentable.referable.listed isGot isFirst
    obtain ⟨_, hasPeerToo, ownerPeer, sidePeer⟩ := presentable.referable.listed isGot isSecond
    obtain rfl := Option.mem_unique has hasToo
    obtain rfl := Option.mem_unique hasPeer hasPeerToo
    exact presentable.referable.named has hasPeer (owner.trans ownerPeer.symm)
      (side.trans sidePeer.symm) same

/-- The network is what its description declares. -/
theorem declares : net.Declares net.description.placed where
  inv := presentable.referable.toConsistent
  nested := presentable.placed.toNested
  shown id entry := by
    have place {id proc} (got : net.process? id = some proc) :
        net.description.place (net.decl id proc) = .ok proc.hierarchy := by
      have mem : net.decl id proc ∈ net.description.processes :=
        mem_map.mpr ⟨(id, proc), mem_toList.mpr got, rfl⟩
      obtain ⟨hier, place⟩ := presentable.arranged.exists_place mem
      have same : hier.path = proc.hierarchy.path :=
        (Description.above_of_place place).unique (presentable.above got)
      rw [place, show hier = proc.hierarchy from congrArg Hierarchy.mk same]
    obtain ⟨hier, decl⟩ := entry
    rw [Description.mem_placed]
    constructor
    · intro shown
      obtain ⟨proc, got, isEntry⟩ := Option.map_eq_some_iff.mp shown
      obtain ⟨rfl, rfl⟩ := Prod.mk.injEq .. ▸ isEntry
      exact ⟨⟨mem_map.mpr ⟨(id, proc), mem_toList.mpr got, rfl⟩, place got⟩, rfl⟩
    · rintro ⟨⟨mem, isPlace⟩, rfl⟩
      obtain ⟨⟨id, proc⟩, isMem, rfl⟩ := mem_map.mp mem
      have got := mem_toList.mp isMem
      rw [place got, Except.ok.injEq] at isPlace
      rw [Network.shown, show (net.decl id proc).id = id from rfl, got, ← isPlace]
      rfl

theorem built :
    net.Built net.description.placed net.description.connections net.description.inputs
      net.description.outputs where
  declares := presentable.declares
  wires := {
    made := fun link mem => by
      obtain ⟨src, dst, connects, rfl⟩ := presentable.referable.mem_connections.mp mem
      exact ⟨src, dst, connects, presentable.referable.labels_of_connects connects⟩
    declared := fun {src dst} connects =>
      ⟨_, presentable.referable.mem_connections.mpr ⟨src, dst, connects, rfl⟩,
      presentable.referable.labels_of_connects connects⟩ }
  inputs := forall₂_map_right_iff.mpr (forall₂_same.mpr fun key mem =>
    (presentable.referable.labels_of_boundary mem : net.Labels .input key _))
  outputs := forall₂_map_right_iff.mpr (forall₂_same.mpr fun key mem =>
    (presentable.referable.labels_of_boundary mem : net.Labels .output key _))

/-- The description of the network is coherent. -/
theorem coherent : net.description.Coherent where
  toArranged := presentable.arranged
  helpers decl mem helpers kind helper isHelper := by
    obtain ⟨⟨id, proc⟩, isMem, rfl⟩ := mem_map.mp mem
    obtain ⟨inside, isComp, rfl⟩ : ∃ inside, proc.kind = .composite inside ∧
        inside.toHelpers = helpers := by
      change proc.kind.mapInside (·.toHelpers) = _ at kind
      cases isKind : proc.kind <;> simp_all [Kind.mapInside]
    obtain ⟨other, got⟩ := presentable.staffed (mem_toList.mp isMem) isComp helper isHelper
    exact ⟨net.decl helper other, mem_map.mpr ⟨(helper, other), mem_toList.mpr got, rfl⟩, rfl⟩
  connections link mem := by
    obtain ⟨src, dst, -, isSrc, isDst⟩ := presentable.built.wires.made link mem
    have named {dir reference} :=
      @Declares.exists_labels_iff net dir reference _ presentable.declares fun _ =>
        presentable.arranged.exists_place
    exact ⟨named.mp ⟨src, isSrc⟩, named.mp ⟨dst, isDst⟩⟩
  sources := by
    -- Connections are ranked by their sources alone.
    have ranked := nodup_map_of_ordered (presentable.built.ordered_connections presentable.arranged)
    refine List.Nodup.of_map (fun src => net.description.rank { source := src, target := "" }) ?_
    rwa [map_map]
  targets := by
    have once :=
      List.Nodup.of_map _
        (nodup_map_of_ordered (presentable.built.ordered_connections presentable.arranged))
    refine once.map_on fun link mem other memToo same => ?_
    obtain ⟨src, dst, connects, rfl⟩ := presentable.referable.mem_connections.mp mem
    obtain ⟨start, stop, connectsToo, rfl⟩ := presentable.referable.mem_connections.mp memToo
    have isDst := (presentable.referable.labels_of_connects connects).2
    have isStop := (presentable.referable.labels_of_connects connectsToo).2
    dsimp only at same
    rw [← same] at isStop
    obtain rfl := isDst.unique presentable.referable.toConsistent isStop
    obtain ⟨port, has, -, conn⟩ := connects
    obtain ⟨peer, hasPeer, -, connToo⟩ := connectsToo
    rw [presentable.referable.linked.unique has hasPeer conn connToo]
  inputs reference mem := by
    obtain ⟨key, isInput, rfl⟩ := mem_map.mp mem
    exact (presentable.declares.exists_labels_iff fun _ => presentable.arranged.exists_place).mp
      ⟨key, presentable.referable.labels_of_boundary isInput⟩
  outputs reference mem := by
    obtain ⟨key, isOut, rfl⟩ := mem_map.mp mem
    exact (presentable.declares.exists_labels_iff fun _ => presentable.arranged.exists_place).mp
      ⟨key, presentable.referable.labels_of_boundary isOut⟩

end Presentable

theorem Referable.presentable (ref : net.Referable True True) : net.Presentable := by
  have leaf {id proc inside} (got : net.process? id = some proc)
      (kind : proc.kind = .composite inside) : False := by
    have isLeaf := (ref.unnested trivial got).1
    rw [kind] at isLeaf
    cases isLeaf
  have topmost {id proc} (got : net.process? id = some proc) : proc.hierarchy.parent? = none := by
    rw [(ref.unnested trivial got).2]
    rfl
  have childless {id children} (isInside : net.childrenOf? id = some children) : False := by
    obtain ⟨proc, inside, got, kind, -⟩ := childrenOf?_eq_some.mp isInside
    exact leaf got kind
  refine ⟨⟨ref.toConsistent, ref.connected, ref.sides, False.elim⟩,
    ⟨⟨fun {id parent} isParent => ?_, fun isInside => (childless isInside).elim, fun isInside =>
      (childless isInside).elim⟩, fun got isParent => ?_⟩, fun got kind => (leaf got kind).elim⟩
  · obtain ⟨proc, got, isParent⟩ := Option.bind_eq_some_iff.mp isParent
    rw [topmost got] at isParent
    cases isParent
  · rw [topmost got] at isParent
    cases isParent

theorem flat_of_run {α : Type} {rest : Unit → Edit α} {ans : α}
    (runs : (get >>= fun net => liftM net.ensureFlat >>= rest : Edit α).run net = .ok ans next) :
    net.Flat := by
  intro id proc got
  cases flat : net.ensureFlat with
  | error fault => simp [flat] at runs
  | ok _ =>
    unfold ensureFlat at flat
    split at flat
    · cases flat
    · rename_i none
      simpa using find?_eq_none.mp none (id, proc) (mem_toList.mpr got)

namespace Presentable

variable (presentable : net.Presentable)

include presentable

theorem unnested (flat : net.Flat) : net.Referable True True := by
  refine ⟨presentable.referable.toConsistent, presentable.referable.connected,
    presentable.referable.sides, fun _ id proc got => ⟨flat got, ?_⟩⟩
  have alone : proc.hierarchy.path = [] := eq_nil_iff_forall_not_mem.mpr fun comp around => by
    obtain ⟨outer, gotOuter, comp, -⟩ := presentable.placed.exists_composite got around
    simp [flat gotOuter] at comp
  exact congrArg Hierarchy.mk alone

theorem transform {pass : Pass} {edit : Edit Report} (transforms : pass.transformation? = some edit)
    {report : Report} (runs : edit.run net = .ok report next) : next.Presentable := by
  cases pass <;> simp only [Pass.transformation?, Option.some.injEq, reduceCtorEq] at transforms <;>
    subst transforms
  case flatten =>
    have flattens :=
      (Edit.ends_of_run runs).mp
        (ends_flatten presentable.referable.toConsistent presentable.placed)
    have kept := (presentable.referable.keeps_flatten.of_run runs).2.1
    refine Referable.presentable
      ⟨kept.toConsistent, kept.connected, kept.sides, fun _ id proc got => ⟨flattens.flat got, ?_⟩⟩
    obtain ⟨-, old, -, rfl⟩ :=
      (flattens.process?_eq_some presentable.referable.toConsistent presentable.placed).mp got
    rfl
  case removeRedundant =>
    exact ((presentable.unnested (flat_of_run runs)).keeps_removeRedundant.of_run
      runs).2.1.presentable
  case combToMap =>
    exact ((presentable.unnested (flat_of_run runs)).keeps_combToMap.of_run runs).2.1.presentable
  case coalesceDataParallel =>
    exact ((presentable.unnested (flat_of_run runs)).keeps_coalesceDataParallel.of_run
      runs).2.1.presentable
  case splitSegments =>
    exact ((presentable.unnested (flat_of_run runs)).keeps_splitSegments.of_run
      runs).2.1.presentable
  case fuseSections =>
    exact ((presentable.unnested (flat_of_run runs)).keeps_fuseSections.of_run runs).2.1.presentable
  case mergeParallelMaps =>
    exact ((presentable.unnested (flat_of_run runs)).keeps_mergeParallelMaps.of_run
      runs).2.1.presentable

theorem run_forM {passes : List Pass}
    (runs : (passes.forM fun pass => (Operation.perform pass).edit).run net = .ok () next) :
    next.Presentable := by
  induction passes generalizing net with
  | nil =>
    cases runs
    exact presentable
  | cons pass passes ih =>
    change ((Operation.perform pass).edit >>= fun _ => passes.forM fun pass =>
      (Operation.perform pass).edit).run net = _ at runs
    rw [EStateM.run_bind] at runs
    cases first : (Operation.perform pass).edit.run net with
    | error fault between => simp [first] at runs
    | ok _ between =>
      rw [first] at runs
      refine ih ?_ runs
      cases transforms : pass.transformation? with
      | none =>
        simp only [Operation.edit, transforms, Option.map_none, Option.getD_none] at first
        cases first
        exact presentable
      | some edit =>
        simp only [Operation.edit, transforms, Option.map_some, Option.getD_some, Edit.run_discard]
          at first
        split at first
        · rename_i report after run
          cases first
          exact presentable.transform transforms run
        · cases first

end Presentable

/--
Loading undoes describing.

A network that was loaded, and whatever passes have made of it that did not stop at a fault, can be
described. Both written forms of the description can be loaded, and what is loaded is the network
that was described, except for the keys of its ports, the order in which composites list their
children, and the names it has in store.
-/
theorem load_describe {text : String} (loaded : Network.load text = .ok net) {passes : List Pass}
    (runs : (passes.forM fun pass => (Operation.perform pass).edit).run net = .ok () next) :
    ∃ description, next.describe = .ok description ∧
      ∀ written ∈ [description.compact, description.pretty ++ "\n"], ∃ again rename,
        Network.load written = .ok again ∧ next.Renumbered rename again := by
  -- The description is coherent, so it can be built, and what is built differs in keys only.
  have presentable := (presentable_of_load loaded).run_forM runs
  obtain ⟨again, builds⟩ := Description.exists_build_iff.mpr presentable.coherent
  obtain ⟨rename, renumbered⟩ :=
    presentable.built.exists_renumbered (Description.built_of_build builds)
  refine ⟨next.description, presentable.referable.describe_eq, fun written isWritten =>
    ⟨again, rename, ?_, renumbered⟩⟩
  have parsed : Description.parse? written = some next.description := by
    simp only [mem_cons, not_mem_nil, or_false] at isWritten
    rcases isWritten with rfl | rfl
    · exact next.description.parse?_compact
    · exact next.description.parse?_pretty
  rw [Network.load, parsed]
  exact builds

end Network

/-- A section with two branches inside a composite, behind a process with a port that cannot be
referred to. -/
def Description.boxedSection : Description where
  processes :=
    let ends (name : String) : List PortDecl := [{ name }]
    let function (body : String) : Func :=
      { name := "f", params := [{ name := "x", dataType := { name := "int" } }],
        returnType := { name := "int" }, body }
    let inside (id : ProcessId) (kind : Kind Helpers) (inPorts outPorts : List PortDecl) :
        ProcessDecl :=
      { id, parent := some "box", kind, inPorts, outPorts }
    [{ id := "copy", kind := .fanout, inPorts := ends "i",
       outPorts := [{ name := "o" }, { name := "spare.o" }] },
      { id := "box", kind := .composite { inputs := ["box.in"], outputs := ["box.out"] },
        inPorts := ends "i", outPorts := ends "o" }, inside "box.in" .inport [] (ends "o"),
      inside "take" .unzip (ends "i") [{ name := "o" }, { name := "p" }],
      inside "a" (.map (function "x")) (ends "i") (ends "o"),
      inside "b" (.map (function "x")) (ends "i") (ends "o"),
      inside "c" (.map (function "y")) (ends "i") (ends "o"),
      inside "d" (.map (function "y")) (ends "i") (ends "o"),
      inside "put" .zip [{ name := "i" }, { name := "j" }] (ends "o"),
    inside "box.out" .outport (ends "i") []]
  connections := [
    { source := "copy.o", target := "box.i" }, { source := "box.in.o", target := "take.i" },
    { source := "take.o", target := "a.i" }, { source := "take.p", target := "b.i" },
    { source := "a.o", target := "c.i" }, { source := "b.o", target := "d.i" },
    { source := "c.o", target := "put.i" }, { source := "d.o", target := "put.j" },
    { source := "put.o", target := "box.out.i" }]
  inputs := ["copy.i"]
  outputs := ["box.o"]

/-- The composite is inlined, its section is cut in two, each half becomes one process, and both are
merged; what is left can be described and loaded. -/
theorem Network.load_describe_boxedSection :
    ∃ net next description again rename,
      load Description.boxedSection.compact = .ok net ∧
      ([Pass.flatten, .splitSegments, .fuseSections, .mergeParallelMaps].forM fun pass =>
        (Operation.perform pass).edit).run net = .ok () next ∧
      next.size = 2 ∧ next.describe = .ok description ∧ load description.compact = .ok again ∧
      next.Renumbered rename again := by
  obtain ⟨net, loaded, passed⟩ := Network.exists_load .boxedSection (fun net =>
    match ([Pass.flatten, .splitSegments, .fuseSections, .mergeParallelMaps].forM fun pass =>
    (Operation.perform pass).edit).run net with
    | .ok _ next => next.size = 2
    | .error .. => false) (by decide +kernel) (by decide +kernel) (by decide +kernel)
  split at passed
  · rename_i next runs
    obtain ⟨description, describes, reloads⟩ := load_describe loaded runs
    obtain ⟨again, rename, loadedAgain, renumbered⟩ := reloads description.compact mem_cons_self
    exact ⟨net, next, description, again, rename, loaded, runs, of_decide_eq_true passed, describes,
      loadedAgain, renumbered⟩
  · cases passed

end Dataflow
