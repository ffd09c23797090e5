import Dataflow.Proofs.Description.Wired
import Dataflow.Proofs.Transform.Innermost
import Mathlib.Data.Prod.Lex
import Mathlib.Data.String.Basic

/-! Building a description and describing the result gives the description back, in the order of the
names. -/

open List

namespace Dataflow

theorem nodup_map_of_ordered {α κ : Type} [LinearOrder κ] {key : α → κ} {sorted : List α}
    (ordered : sorted.Pairwise fun first second => key first < key second) :
    (sorted.map key).Nodup :=
  pairwise_map.mpr (ordered.imp ne_of_lt)

theorem eq_mergeSort {α κ : Type} [LinearOrder κ] {key : α → κ} {sorted entries : List α}
    (perm : sorted.Perm entries)
    (ordered : sorted.Pairwise fun first second => key first < key second) :
    sorted = entries.mergeSort fun first second => key first ≤ key second := by
  have whole := perm.trans (mergeSort_perm entries fun first second => key first ≤ key second).symm
  refine List.Perm.eq_of_pairwise (fun first second mem memToo pre behind => ?_)
    (ordered.imp le_of_lt)
    ((pairwise_mergeSort (fun _ _ _ pre behind => ?_) (fun first second => ?_) entries).imp
      of_decide_eq_true) whole
  · exact inj_on_of_nodup_map (nodup_map_of_ordered ordered) mem (whole.mem_iff.mpr memToo)
      (le_antisymm pre behind)
  · grind
  · simpa using le_total (key first) (key second)

namespace Description

variable {description : Description} {net : Network}

/-- Where a connection comes among others: by its producer, then by the position of its out-port
there. -/
def rank (description : Description) (connection : Connection) : ProcessId ×ₗ Nat :=
  match Builder.splitReference? connection.source with
  | some (owner, name) =>
    toLex (owner, ((description.find? owner).elim [] (·.outPorts)).findIdx (·.name = name))
  | none => toLex ("", 0)

/-- The description with its processes in the order of their names, and its connections in the order
of their out-ports. -/
def sorted (description : Description) : Description :=
  { description with
    processes := description.processes.mergeSort fun first second => first.id ≤ second.id
    connections := description.connections.mergeSort fun first second =>
      description.rank first ≤ description.rank second }

theorem build_eq (description : Description) :
    description.build =
      if ((Builder.build description).run {}).2.findings = [] then
        .ok ((Builder.build description).run {}).2.net
      else .error ((Builder.build description).run {}).2.findings := by
  obtain ⟨more, errors, grown⟩ := (Builder.grows_build description).appends {}
  rw [nil_append] at grown
  rw [Description.build]
  cases has : ((Builder.build description).run {}).2.findings with
  | nil => simp [hasErrors]
  | cons finding findings =>
    have isError := errors finding (by rw [← grown, has]; exact mem_cons_self)
    simp [hasErrors, isError]

theorem exists_build_iff : (∃ net, description.build = .ok net) ↔ description.Coherent := by
  rw [← (Builder.finds_build description).judges []]
  rw [build_eq]
  constructor
  · grind
  · intro clean
    exact ⟨_, if_pos clean⟩

theorem built_of_build (builds : description.build = .ok net) :
    net.Built description.placed description.connections description.inputs
      description.outputs := by
  have coherent := exists_build_iff.mp ⟨net, builds⟩
  have reaches := (Builder.finds_build description).reaches coherent []
  rw [build_eq, if_pos ((Builder.finds_build description).judges [] |>.mpr coherent)] at builds
  rwa [Except.ok.inj builds] at reaches

theorem pairwise_findIdx {ports : List PortDecl} (once : (ports.map (·.name)).Nodup) :
    ports.Pairwise fun first second =>
      ports.findIdx (·.name = first.name) < ports.findIdx (·.name = second.name) := by
  have pos {idx} (bound : idx < ports.length) : ports.findIdx (·.name = ports[idx].name) = idx := by
    refine (findIdx_eq bound).mpr ⟨by simp, fun pre less => ?_⟩
    have apart := pairwise_iff_getElem.mp (pairwise_map.mp once) pre idx (by omega) bound less
    simpa using apart
  refine pairwise_iff_getElem.mpr fun first second bound boundToo less => ?_
  rwa [pos bound, pos boundToo]

end Description

namespace Network

variable {net : Network} {description : Description} {link : Connection}

theorem Consistent.mem_connections (inv : net.Consistent) :
    link ∈ net.description.connections ↔
      ∃ src dst, net.Connects src dst ∧
        link = { source := net.portLabel src, target := net.portLabel dst } := by
  simp only [Network.description, mem_flatMap, mem_filterMap, leaving?, Option.map_eq_some_iff,
    Option.bind_eq_some_iff]
  constructor
  · rintro ⟨⟨id, proc⟩, mem, src, isPort, dst, ⟨port, has, conn⟩, rfl⟩
    obtain ⟨-, leaves⟩ :=
      of_found has (@Consistent.listed _ inv id proc .output src (mem_toList.mp mem) isPort)
    exact ⟨src, dst, ⟨port, has, leaves, conn⟩, rfl⟩
  · rintro ⟨src, dst, ⟨port, has, leaves, conn⟩, rfl⟩
    obtain ⟨proc, got, isPort⟩ := inv.owned has
    rw [leaves] at isPort
    exact ⟨(port.owner, proc), mem_toList.mpr got, src, isPort, dst, ⟨port, has, conn⟩, rfl⟩

theorem ordered_processes (net : Network) :
    net.description.processes.Pairwise fun first second => first.id < second.id :=
  pairwise_map.mpr net.ordered_toList

namespace Built

variable (built : net.Built description.placed description.connections description.inputs
    description.outputs)
  (arranged : description.Arranged)

include built arranged

theorem perm_processes : net.description.processes.Perm description.processes := by
  refine (perm_ext_iff_of_nodup (.of_map _ (nodup_map_of_ordered net.ordered_processes))
    (.of_map _ arranged.distinct)).mpr
    fun decl => ?_
  simp only [Network.description, mem_map]
  constructor
  · rintro ⟨⟨id, proc⟩, mem, rfl⟩
    exact (Description.mem_placed.mp (built.declares.mem_of_process (mem_toList.mp mem))).1
  · intro mem
    obtain ⟨hier, place⟩ := arranged.exists_place mem
    obtain ⟨proc, got, -, shows⟩ :=
      built.declares.exists_process (Description.mem_placed.mpr ⟨mem, place⟩)
    exact ⟨(decl.id, proc), mem_toList.mpr got, shows⟩

theorem rank_leaving {id : ProcessId} {proc : Process} (got : net.process? id = some proc)
    {key : PortKey} (mem : key ∈ proc.outPorts) (leaves : net.leaving? key = some link) :
    ∃ port, net.port? key = some port ∧
      description.rank link =
        toLex (id, (net.decls proc.outPorts).findIdx (·.name = port.name)) := by
  obtain ⟨port, has, rfl, side⟩ :=
    @Consistent.listed _ built.declares.inv id proc .output key got mem
  refine ⟨port, has, ?_⟩
  obtain ⟨dst, conn, rfl⟩ := Option.map_eq_some_iff.mp leaves
  rw [has] at conn
  obtain ⟨other, -, ⟨too, hasToo, -, dotless, -⟩, -⟩ := built.wires.declared ⟨port, has, side, conn⟩
  obtain rfl := Option.mem_unique has hasToo
  have isDeclared := (Description.mem_placed.mp (built.declares.mem_of_process got)).1
  have known := Description.find?_eq_some arranged.distinct isDeclared
  have labelled : net.portLabel key = port.label := by rw [portLabel, has]
  rw [Description.rank]
  simp only [labelled, Builder.splitReference?_label dotless]
  rw [show port.owner = (net.decl port.owner proc).id from rfl, known]
  rfl

theorem ordered_connections :
    net.description.connections.Pairwise fun first second =>
      description.rank first < description.rank second := by
  refine pairwise_flatMap.mpr ⟨fun (id, proc) mem => ?_, ?_⟩
  · have got := mem_toList.mp mem
    have isDeclared := (Description.mem_placed.mp (built.declares.mem_of_process got)).1
    have positions := Description.pairwise_findIdx (arranged.ports _ isDeclared .output)
    change (net.decls proc.outPorts).Pairwise _ at positions
    rw [decls, pairwise_map, pairwise_filterMap] at positions
    refine pairwise_filterMap.mpr
      (positions.imp_of_mem fun {first second} isFirst isSecond pre => ?_)
    intro link leaves other leavesToo
    obtain ⟨port, has, ranked⟩ := built.rank_leaving arranged got isFirst leaves
    obtain ⟨peer, hasPeer, rankedToo⟩ := built.rank_leaving arranged got isSecond leavesToo
    rw [ranked, rankedToo, Prod.Lex.toLex_lt_toLex]
    exact .inr ⟨rfl, pre port has peer hasPeer⟩
  · refine net.ordered_toList.imp_of_mem
      fun {first second} isFirst isSecond less link leaves other leavesToo => ?_
    obtain ⟨key, mem, leaves⟩ := mem_filterMap.mp leaves
    obtain ⟨peer, memToo, leavesToo⟩ := mem_filterMap.mp leavesToo
    obtain ⟨_, -, ranked⟩ := built.rank_leaving arranged (mem_toList.mp isFirst) mem leaves
    obtain ⟨_, -, rankedToo⟩ :=
      built.rank_leaving arranged (mem_toList.mp isSecond) memToo leavesToo
    rw [ranked, rankedToo, Prod.Lex.toLex_lt_toLex]
    exact .inl less

theorem perm_connections (sources : (description.connections.map (·.source)).Nodup) :
    net.description.connections.Perm description.connections := by
  refine (perm_ext_iff_of_nodup
    (.of_map _ (nodup_map_of_ordered (built.ordered_connections arranged))) (.of_map _ sources)).mpr
    fun link => ?_
  rw [built.declares.inv.mem_connections]
  constructor
  · rintro ⟨src, dst, connects, rfl⟩
    obtain ⟨other, mem, isSrc, isDst⟩ := built.wires.declared connects
    rwa [isSrc.portLabel_eq, isDst.portLabel_eq]
  · intro mem
    obtain ⟨src, dst, connects, isSrc, isDst⟩ := built.wires.made link mem
    exact ⟨src, dst, connects, by rw [isSrc.portLabel_eq, isDst.portLabel_eq]⟩

omit arranged in
theorem boundary_eq :
    net.description.inputs = description.inputs ∧
    net.description.outputs = description.outputs := by
  have labelled {dir keys references}
      (labels : List.Forall₂ (net.Labels dir) keys references) : keys.map net.portLabel =
        references := by
    rw [← forall₂_eq_eq_eq, forall₂_map_left_iff]
    exact labels.imp fun _ _ isLabel => isLabel.portLabel_eq
  exact ⟨labelled built.inputs, labelled built.outputs⟩

theorem description_eq (sources : (description.connections.map (·.source)).Nodup) :
    net.description = description.sorted := by
  obtain ⟨inputs, outs⟩ := built.boundary_eq
  have procs := eq_mergeSort (built.perm_processes arranged) net.ordered_processes
  have links :=
    eq_mergeSort (built.perm_connections arranged sources) (built.ordered_connections arranged)
  rw [Description.sorted, ← procs, ← links, ← inputs, ← outs]

end Built

end Network

/-- A network can be built exactly from coherent descriptions, and is described by what it was built
from. -/
theorem Description.build_mirrors (description : Description) :
    ((∃ net, description.build = .ok net) ↔ description.Coherent) ∧
    ∀ net, description.build = .ok net → net.describe = .ok description.sorted := by
  -- What is built declares what was described, and the description lists it in order.
  refine ⟨exists_build_iff, fun net builds => ?_⟩
  have coherent := exists_build_iff.mp ⟨net, builds⟩
  have built := built_of_build builds
  rw [built.declares.inv.describe_eq,
    built.description_eq coherent.toArranged coherent.sources]

/-- A delay in a loop with a composite, whose helper has a dot in its name and is declared before
it. -/
def Description.nestedLoop : Description where
  processes := [
    { id := "c.in", parent := some "c", kind := .inport, outPorts := [{ name := "o" }] },
    { id := "d", kind := .delay "0", inPorts := [{ name := "i" }], outPorts := [{ name := "o" }] },
    { id := "c", kind := .composite { inputs := ["c.in"] }, inPorts := [{ name := "i" }] }]
  connections := [{ source := "d.o", target := "c.i" }, { source := "c.in.o", target := "d.i" }]
  outputs := ["c.in.o"]

/-- A composite that is declared behind its helper is built, and described in the order of the
names. -/
theorem Description.build_mirrors_nestedLoop :
    ∃ net, nestedLoop.build = .ok net ∧ net.describe = .ok nestedLoop.sorted := by
  have inside {child parent : ProcessId} (inside : nestedLoop.Inside child parent) : child =
      "c.in" ∧ parent = "c" := by
    obtain ⟨decl, listed, rfl, isParent⟩ := inside
    simp only [nestedLoop, mem_cons, not_mem_nil, or_false] at listed
    rcases listed with rfl | rfl | rfl <;> simp_all
  have coherent : nestedLoop.Coherent := by
    refine ⟨⟨by decide, fun id leads => ?_, ?_, ?_⟩, ?_, ?_, by decide, by decide, ?_, ?_⟩
    · obtain ⟨_, first, -⟩ := Relation.TransGen.head'_iff.mp leads
      obtain ⟨_, -, last⟩ := Relation.TransGen.tail'_iff.mp leads
      exact absurd ((inside first).1.symm.trans (inside last).2) (by decide)
    · simp [nestedLoop]
    · intro decl listed direction
      simp only [nestedLoop, mem_cons, not_mem_nil, or_false] at listed
      rcases listed with rfl | rfl | rfl <;> cases direction <;> decide
    · simp [nestedLoop]
    · simp [nestedLoop, Names, ProcessDecl.ports]
    · simp [nestedLoop]
    · simp [nestedLoop, Names, ProcessDecl.ports]
  obtain ⟨net, builds⟩ := (build_mirrors nestedLoop).1.mpr coherent
  exact ⟨net, builds, (build_mirrors nestedLoop).2 net builds⟩

end Dataflow
