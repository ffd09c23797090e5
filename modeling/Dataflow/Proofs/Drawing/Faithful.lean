import Dataflow.Proofs.Description.Loaded
import Dataflow.Proofs.Drawing.Reading
import Dataflow.Proofs.Schedule.Expand

/-!
What is read from the drawing of a network.

There is one node for each process, in the clusters of the composites around it, and one edge for
each connection. The names of nodes are different exactly if those of processes are so without what
is replaced in them.
-/

open List

namespace Dataflow

namespace Network

variable {net : Network} {id : ProcessId} {process : Process} {path start : List ProcessId}
  {depth : Nat}

/-- No text that a drawing quotes has a line break, a quote or a backslash. -/
structure Legible (net : Network) : Prop where
  processes : ∀ {id process}, net.process? id = some process →
    ∀ text ∈ Dot.quotes id process, Dot.Plain text
  ports : ∀ {key port}, net.port? key = some port → Dot.Plain port.name

instance : Decidable net.Legible :=
  decidable_of_iff
      ((∀ entry ∈ net.processes.toList, ∀ text ∈ Dot.quotes entry.1 entry.2, Dot.Plain text) ∧
        ∀ key ∈ range net.ports.nextKey, ∀ port ∈ net.port? key, Dot.Plain port.name)
    ⟨fun plain =>
      ⟨fun stored => plain.1 _ (mem_toList.mpr stored),
        fun found => plain.2 _ (mem_range.mpr (lt_nextKey found)) _ found⟩, fun legible =>
      ⟨fun _ listed => legible.processes (mem_toList.mp listed), fun _ _ _ found =>
        legible.ports found⟩⟩

/-- The processes from a composite on in the order in which they are drawn, each with the composites
around it. -/
def outline (net : Network) : Nat → List ProcessId → List (List ProcessId × ProcessId)
  | 0, _ => []
  | depth + 1, path =>
    (net.processes.toList.filter fun (_, process) => process.hierarchy.parent? =
      path.getLast?).flatMap fun (id, process) =>
      (path, id) :: if process.kind.isLeaf then [] else net.outline depth (path ++ [id])

/-- The processes directly inside the last of some composites are inside all of these. -/
def Leads (net : Network) (path : List ProcessId) : Prop :=
  ∀ id process, net.process? id = some process → process.hierarchy.parent? = path.getLast? →
    process.hierarchy.path = path

theorem leads_nil : net.Leads [] :=
  fun _ _ _ top => getLast?_eq_none_iff.mp top

section

variable (placed : net.Placed)

include placed

namespace Placed

variable (stored : net.process? id = some process)

include stored

theorem leads_concat : net.Leads (process.hierarchy.path ++ [id]) := by
  intro other has gotOther isParent
  have place := of_found stored (placed.rooted gotOther (isParent.trans getLast?_concat))
  exact congrArg Hierarchy.path place

theorem nodup_path : process.hierarchy.path.Nodup := by
  refine nodup_iff_injective_getElem.mpr fun first second same => Fin.ext ?_
  have isPath (idx : Fin process.hierarchy.path.length) := placed.exists_outer stored
    ((take_append_drop idx process.hierarchy.path).symm.trans (by rw [drop_eq_getElem_cons idx.2]))
  obtain ⟨outer, gotOuter, -, pre⟩ := isPath first
  obtain ⟨-, preToo⟩ := of_found (congrArg net.process? same ▸ gotOuter) (isPath second)
  have lengths := congrArg length (pre.symm.trans preToo)
  rw [length_take, length_take] at lengths
  omega

theorem depth_lt : process.hierarchy.path.length < net.searchDepth := by
  refine Nat.lt_succ_of_le (length_le_size (placed.nodup_path stored) fun comp around => ?_)
  obtain ⟨outer, gotOuter, -⟩ := placed.exists_composite stored around
  rw [contains_eq, gotOuter]
  rfl

end Placed

theorem Placed.mem_outline (leads : net.Leads start) :
    (path, id) ∈ net.outline depth start ↔
      ∃ process, net.process? id = some process ∧ process.hierarchy.path = path ∧ start <+: path ∧
        path.length < start.length + depth := by
  induction depth generalizing start with
  | zero =>
    refine ⟨fun mem => absurd mem not_mem_nil, ?_⟩
    rintro ⟨process, -, -, isPrefix, less⟩
    exact absurd isPrefix.length_le (Nat.not_le_of_lt less)
  | succ depth ih =>
    simp only [outline, mem_flatMap, mem_filter, mem_cons, Prod.exists, Prod.mk.injEq, mem_toList,
      decide_eq_true_eq]
    constructor
    · rintro ⟨other, has, ⟨stored, isParent⟩, ⟨rfl, rfl⟩ | inside⟩
      · exact ⟨has, stored, leads _ _ stored isParent, prefix_refl _, by omega⟩
      · split at inside
        · cases inside
        · obtain ⟨process, gotInner, isPath, isPrefix, less⟩ :=
            (ih (leads _ _ stored isParent ▸ placed.leads_concat stored)).mp inside
          exact ⟨process, gotInner, isPath, (prefix_append _ _).trans isPrefix,
            by simp at less; omega⟩
    · rintro ⟨process, stored, isPath, ⟨rest, rfl⟩, less⟩
      cases rest with
      | nil =>
        rw [append_nil] at isPath ⊢
        exact ⟨id, process, ⟨stored, congrArg getLast? isPath⟩, .inl ⟨rfl, rfl⟩⟩
      | cons comp rest =>
        -- The process is inside a composite on this level.
        obtain ⟨outer, gotOuter, isComp, place⟩ := placed.exists_outer stored isPath
        refine ⟨comp, outer, ⟨gotOuter, congrArg getLast? place⟩, .inr ?_⟩
        rw [if_neg (by simp [isComp]), ih (place ▸ placed.leads_concat gotOuter)]
        exact ⟨process, stored, isPath, ⟨rest, by simp⟩, by simp at less ⊢; omega⟩

theorem Placed.nodup_outline (leads : net.Leads start) : (net.outline depth start).Nodup := by
  induction depth generalizing start with
  | zero => exact nodup_nil
  | succ depth ih =>
    -- What is drawn inside a composite of this level has this composite around it.
    have inside (entry : ProcessId × Process)
        (mem : entry ∈ net.processes.toList.filter fun (_, process) =>
        process.hierarchy.parent? = start.getLast?) : net.Leads (start ++ [entry.1]) := by
      obtain ⟨isGot, isParent⟩ := mem_filter.mp mem
      have stored := mem_toList.mp isGot
      exact leads _ _ stored (of_decide_eq_true isParent) ▸ placed.leads_concat stored
    have around (entry : ProcessId × Process)
        (mem : entry ∈ net.processes.toList.filter fun (_, process) =>
        process.hierarchy.parent? = start.getLast?) {path id}
        (drawn : (path, id) ∈ if entry.2.kind.isLeaf then [] else net.outline depth
          (start ++ [entry.1])) : start ++ [entry.1] <+: path := by
      split at drawn
      · cases drawn
      · obtain ⟨-, -, -, isPrefix, -⟩ := (placed.mem_outline (inside entry mem)).mp drawn
        exact isPrefix
    have deeper (entry : ProcessId) : ¬ start ++ [entry] <+: start := fun isPrefix => by
      have le := isPrefix.length_le
      simp at le
    refine nodup_flatMap.mpr
      ⟨fun entry mem => nodup_cons.mpr ⟨fun drawn => deeper _ (around entry mem drawn), ?_⟩, ?_⟩
    · split
      · exact nodup_nil
      · exact ih (inside entry mem)
    · refine ((pairwise_map.mp net.nodup_toList).filter _).imp_of_mem
        fun {first second} isFirst isSecond apart => ?_
      rintro ⟨path, id⟩ drawn drawnToo
      rcases mem_cons.mp drawn with here | drawn <;>
        rcases mem_cons.mp drawnToo with hereToo | drawnToo
      · exact apart (Prod.mk.inj (here.symm.trans hereToo)).2
      · exact deeper _ ((Prod.mk.inj here).1 ▸ around second isSecond drawnToo)
      · exact deeper _ ((Prod.mk.inj hereToo).1 ▸ around first isFirst drawn)
      · have same :=
          (prefix_of_prefix_length_le (around first isFirst drawn) (around second isSecond drawnToo)
            (by simp)).eq_of_length (by simp)
        exact apart (singleton_inj.mp (append_cancel_left same))

theorem Placed.perm_outline :
    (net.outline net.searchDepth []).Perm
      (net.processes.toList.map fun (id, process) => (process.hierarchy.path, id)) := by
  have once : (net.processes.toList.map fun (id, process) => (process.hierarchy.path, id)).Nodup :=
    pairwise_map.mpr
      ((pairwise_map.mp net.nodup_toList).imp fun apart same => apart (Prod.mk.inj same).2)
  refine (perm_ext_iff_of_nodup (placed.nodup_outline leads_nil) once).mpr fun (path, id) => ?_
  rw [placed.mem_outline leads_nil, mem_map]
  constructor
  · rintro ⟨process, stored, rfl, -⟩
    exact ⟨(id, process), mem_toList.mpr stored, rfl⟩
  · rintro ⟨⟨_, process⟩, mem, same⟩
    cases same
    have stored := mem_toList.mp mem
    exact ⟨process, stored, rfl, nil_prefix, by simpa using placed.depth_lt stored⟩

end

end Network

namespace Dot

variable {net : Network} {path : List ProcessId} {depth : Nat}

theorem figuresLines_eq (figures : List Figure) :
    figuresLines figures = figures.flatMap figureLines := by
  induction figures with
  | nil => rfl
  | cons figure figures ih => rw [figuresLines, ih, flatMap_cons]

theorem shows_figures (legible : net.Legible) :
    Shows (surround path) (figuresLines (net.figures depth path.getLast?))
      ((net.outline depth path).map fun (path, id) => (surround path, (node id).toList)) [] := by
  induction depth generalizing path with
  | zero => exact shows_nil
  | succ depth ih =>
    have each (entry : ProcessId × Process)
        (mem : entry ∈ net.processes.toList.filter fun (_, process) =>
        process.hierarchy.parent? = path.getLast?) :
        Shows (surround path) (figureLines (if entry.2.kind.isLeaf then .leaf entry.1 entry.2
            else .cluster entry.1 entry.2 (net.figures depth (some entry.1))))
          (((path, entry.1) :: if entry.2.kind.isLeaf then [] else net.outline depth
            (path ++ [entry.1])).map fun (path, id) => (surround path, (node id).toList)) [] := by
      obtain ⟨id, process⟩ := entry
      have plain := legible.processes (Network.mem_toList.mp (mem_of_mem_filter mem))
      have here : Shows (surround path) _ _ _ := shows_nodeLine plain
      by_cases leaf : process.kind.isLeaf
      · simpa [leaf, figureLines] using here
      · have within : Shows (surround (path ++ [id])) _ _ _ := ih
        rw [surround, map_append, ← cons_append] at within
        have inside :=
          ((shows_header (plain id mem_cons_self)).append within).indent.block (by simp +decide)
            (by simp) (by simp [getLast?_cons])
        simpa [leaf, figureLines] using here.append inside
    have shown := shows_flatMap each
    rw [flatMap_eq_nil_iff.mpr fun _ _ => rfl] at shown
    simpa [Network.figures, Network.outline, figuresLines_eq, flatMap_map, map_flatMap] using shown

end Dot

namespace Network

variable {net : Network} {loops : List (ProcessId × ProcessId)}

/-- All connections, in the order of the processes and ports they leave. -/
def links (net : Network) : List (PortKey × PortKey) :=
  net.processes.toList.flatMap fun (_, process) => process.outPorts.filterMap fun key =>
    ((net.port? key).bind (·.connection)).map (key, ·)

/-- The name of the node for the process that a port belongs to. -/
def nodeAt? (net : Network) (key : PortKey) : Option (List Char) :=
  (net.port? key).map fun port => (Dot.node port.owner).toList

section

variable (sound : net.Consistent)

include sound

theorem Consistent.mem_links {src dst : PortKey} :
    (src, dst) ∈ net.links ↔ net.Connects src dst := by
  simp only [links, mem_flatMap, mem_filterMap, Prod.exists, Option.map_eq_some_iff,
    Option.bind_eq_some_iff, Prod.mk.injEq, mem_toList]
  constructor
  · rintro ⟨id, process, stored, key, mem, dst, ⟨port, has, conn⟩, rfl, rfl⟩
    obtain ⟨-, leaves⟩ := of_found has (sound.listed_out stored mem)
    exact ⟨port, has, leaves, conn⟩
  · rintro ⟨port, has, leaves, conn⟩
    obtain ⟨process, stored, mem⟩ := sound.owned has
    rw [leaves] at mem
    exact ⟨port.owner, process, stored, src, mem, dst, ⟨port, has, conn⟩, rfl, rfl⟩

theorem Consistent.nodup_links : net.links.Nodup := by
  have key {first second link}
      (isFirst : link ∈ ((net.port? first).bind (·.connection)).map (first, ·))
      (isSecond : link ∈ ((net.port? second).bind (·.connection)).map (second, ·)) : first =
        second := by
    obtain ⟨_, _, rfl⟩ := Option.map_eq_some_iff.mp isFirst
    obtain ⟨_, _, same⟩ := Option.map_eq_some_iff.mp isSecond
    exact (Prod.mk.inj same).1.symm
  refine nodup_flatMap.mpr ⟨fun (id, process) mem => ?_, ?_⟩
  · exact (show (process.ports .output).Nodup from sound.once (mem_toList.mp mem)).filterMap
      fun _ _ _ => key
  · refine (pairwise_map.mp net.nodup_toList).imp_of_mem
      fun {first second} isFirst isSecond apart link isLink isLinkToo => apart ?_
    obtain ⟨src, mem, leaves⟩ := mem_filterMap.mp isLink
    obtain ⟨_, memToo, leavesToo⟩ := mem_filterMap.mp isLinkToo
    obtain rfl := key leaves leavesToo
    obtain ⟨port, has, owned, -⟩ := sound.listed_out (mem_toList.mp isFirst) mem
    obtain ⟨ownedToo, -⟩ := of_found has (sound.listed_out (mem_toList.mp isSecond) memToo)
    exact owned.symm.trans ownedToo

theorem Consistent.map_arrows :
    (net.arrows loops).map
      (fun arrow => (some (Dot.node arrow.source).toList, some (Dot.node arrow.target).toList)) =
      net.links.map fun (src, dst) => (net.nodeAt? src, net.nodeAt? dst) := by
  rw [arrows, links, map_flatMap, map_flatMap]
  refine flatMap_congr fun (id, process) mem => ?_
  rw [map_filterMap, map_filterMap]
  refine filterMap_congr fun key isPort => ?_
  obtain ⟨port, has, rfl, -⟩ := sound.listed_out (mem_toList.mp mem) isPort
  cases conn : port.connection with
  | none => simp [arrow?, has, conn]
  | some other =>
    obtain ⟨peer, hasPeer, -⟩ := sound.linked has conn
    obtain ⟨consumer, gotConsumer, -⟩ := sound.owned hasPeer
    simp [arrow?, nodeAt?, has, conn, hasPeer, gotConsumer]

end

theorem Legible.arrows (legible : net.Legible) {arrow : Arrow} (mem : arrow ∈ net.arrows loops) :
    (∀ name ∈ arrow.tail, Dot.Plain name) ∧ ∀ name ∈ arrow.head, Dot.Plain name := by
  simp only [Network.arrows, mem_flatMap, mem_filterMap, arrow?, Option.bind_eq_bind,
    Option.bind_eq_some_iff] at mem
  obtain ⟨⟨id, process⟩, -, key, -, src, has, other, -, dst, hasDst, consumer, -, isArrow⟩ := mem
  cases isArrow
  have plain := legible.ports has
  have plainDst := legible.ports hasDst
  constructor <;> simp_all

theorem Legible.terminals (legible : net.Legible) (sound : net.Consistent) {term : Terminal}
    {keys : List PortKey} (mem : term ∈ net.terminals keys) : Dot.Plain term.label := by
  simp only [Network.terminals, mem_filterMap, Option.bind_eq_bind, Option.bind_eq_some_iff] at mem
  obtain ⟨⟨key, idx⟩, -, port, has, isTerm⟩ := mem
  cases isTerm
  obtain ⟨process, stored, -⟩ := sound.owned has
  have owner := legible.processes stored port.owner mem_cons_self
  have name := legible.ports has
  simp_all +decide [portLabel, Port.label, Dot.Plain]

end Network

namespace Dot

variable {net : Network}

theorem read_dot (legible : net.Legible) (sound : net.Consistent) :
    ∃ loops, nodesOf (statements net.dot) =
      (net.outline net.searchDepth []).map (fun (path, id) => (surround path, (node id).toList)) ∧
      edgesOf (statements net.dot) =
        (net.arrows loops).map fun arrow =>
          ((node arrow.source).toList, (node arrow.target).toList) := by
  obtain ⟨loops, asked, -⟩ := sound.undelayedLoops_eq
  have edges : net.loopEdges = .ok (loops.flatMap Network.loopPairs) := by
    rw [Network.loopEdges, asked]
    rfl
  have isDrawing : net.drawing.fault = none ∧
      net.drawing.arrows = net.arrows (loops.flatMap Network.loopPairs) := by
    rw [Network.drawing, edges]
    exact ⟨rfl, rfl⟩
  have shown := shows_render isDrawing.1 (shows_figures legible) (fun arrow => legible.arrows)
    fun term mem => (mem_append.mp mem).elim (legible.terminals sound) (legible.terminals sound)
  exact ⟨_, shown.1, isDrawing.2 ▸ shown.2⟩

end Dot

namespace Network

variable {net : Network} {text : String}

/-- The drawing of a network that was loaded has one node for each process, in the clusters around
it, and one edge for each connection.  Its nodes have different names exactly if the names of its
processes are different after the replacement of characters. -/
theorem dot_faithful (loaded : Network.load text = .ok net) (legible : net.Legible) :
    (Dot.nodesOf (Dot.statements net.dot)).Perm
      (net.processes.toList.map fun (id, process) =>
        (Dot.surround process.hierarchy.path, (Dot.node id).toList)) ∧
    (((Dot.nodesOf (Dot.statements net.dot)).map Prod.snd).Nodup ↔
      (net.ids.map Dot.identifier).Nodup) ∧
    ∃ links : List (PortKey × PortKey), links.Nodup ∧
      (∀ source target, (source, target) ∈ links ↔ net.Connects source target) ∧
      (Dot.edgesOf (Dot.statements net.dot)).map (Prod.map some some) =
        links.map fun (source, target) => (net.nodeAt? source, net.nodeAt? target) := by
  obtain ⟨description, -, coherent, built⟩ := exists_description loaded
  have sound := built.declares.inv
  obtain ⟨loops, isNodes, isEdges⟩ := Dot.read_dot legible sound
  have nodes : (Dot.nodesOf (Dot.statements net.dot)).Perm
      (net.processes.toList.map fun (id, process) =>
        (Dot.surround process.hierarchy.path, (Dot.node id).toList)) := by
    have drawn := (built.placed coherent.toArranged).perm_outline.map fun (path, id) =>
      (Dot.surround path, (Dot.node id).toList)
    rw [map_map] at drawn
    rw [isNodes]
    exact drawn
  refine ⟨nodes, ?_, net.links, sound.nodup_links, fun _ _ => sound.mem_links, ?_⟩
  · -- The names of nodes have the same beginning, and go on with those of processes.
    have names : net.processes.toList.map (fun entry => (Dot.node entry.1).toList) =
        (net.ids.map Dot.identifier).map fun name => ("p_" ++ name).toList := by
      rw [ids, ← Std.TreeMap.map_fst_toList_eq_keys, map_map, map_map]
      rfl
    rw [(nodes.map Prod.snd).nodup_iff, map_map]
    refine (iff_of_eq (congrArg Nodup names)).trans (List.nodup_map_iff fun first second same => ?_)
    exact String.toList_inj.mp (by simpa using same)
  · rw [isEdges, map_map]
    exact sound.map_arrows

end Network

/-- A delay inside a composite that feeds another one beside it. -/
def Description.boxedDelay (inner outer : ProcessId) : Description where
  processes := [
    { id := "c", kind := .composite {} },
    { id := outer, kind := .delay "0", inPorts := [{ name := "i" }] },
    { id := inner, parent := some "c", kind := .delay "0", outPorts := [{ name := "o" }] }]
  connections := [{ source := inner ++ ".o", target := outer ++ ".i" }]

/-- The node of a delay inside a composite is in the cluster of that one, and has its own name. -/
theorem Network.dot_faithful_boxedDelay :
    ∃ net, Network.load (Description.boxedDelay "a" "b").compact = .ok net ∧ net.Legible ∧
      (Dot.surround ["c"], (Dot.node "a").toList) ∈ Dot.nodesOf (Dot.statements net.dot) ∧
      ((Dot.nodesOf (Dot.statements net.dot)).map Prod.snd).Nodup := by
  obtain ⟨net, loaded, passed⟩ := Network.exists_load (.boxedDelay "a" "b") (fun net =>
    net.Legible && (net.process? "a").any (·.hierarchy.path = ["c"]) &&
    (net.ids.map Dot.identifier).Nodup)
    (by decide +kernel) (by decide +kernel) (by decide +kernel)
  simp only [Bool.and_eq_true, decide_eq_true_eq, Option.any_eq_true] at passed
  obtain ⟨⟨legible, process, stored, inside⟩, once⟩ := passed
  obtain ⟨nodes, distinct, -⟩ := Network.dot_faithful loaded legible
  exact ⟨net, loaded, legible,
    nodes.mem_iff.mpr (mem_map.mpr ⟨("a", process), mem_toList.mpr stored, by simp [inside]⟩),
    distinct.mpr once⟩

/-- Different processes can have nodes of one name, and the quotes around a name with a quote are
not balanced. -/
theorem Network.dot_faithful_alike :
    (∃ net, Network.load (Description.boxedDelay "a b" "a_b").compact = .ok net ∧ net.Legible ∧
      net.ids = ["a b", "a_b", "c"] ∧
      (Dot.nodesOf (Dot.statements net.dot)).map Prod.snd =
        ["p_a_b", "p_c", "p_a_b"].map String.toList) ∧
    (Dot.nodeLine "a\"" { kind := .delay "0" }).toList.count '"' = 3 := by
  obtain ⟨net, loaded, passed⟩ :=
    Network.exists_load (.boxedDelay "a b" "a_b")
    (fun net => net.Legible && net.ids = ["a b", "a_b", "c"] && (net.outline net.searchDepth []).map
      (Dot.node ·.2) = ["p_a_b", "p_c", "p_a_b"]) (by decide +kernel) (by decide +kernel)
    (by decide +kernel)
  simp only [Bool.and_eq_true, decide_eq_true_eq] at passed
  obtain ⟨⟨legible, ids⟩, names⟩ := passed
  obtain ⟨description, -, -, built⟩ := exists_description loaded
  obtain ⟨loops, nodes, -⟩ := Dot.read_dot legible built.declares.inv
  refine ⟨⟨net, loaded, legible, ids, ?_⟩, by decide +kernel⟩
  rw [nodes, ← names, map_map, map_map]
  rfl

end Dataflow
