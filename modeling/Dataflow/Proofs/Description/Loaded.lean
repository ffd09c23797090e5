import Dataflow.Proofs.Description.Mirror
import Dataflow.Proofs.Description.Written
import Dataflow.Proofs.Network.Dissolved

/-! What is known of a network that was loaded: it is what its description says. -/

open List

namespace Dataflow

variable {desc : Description} {net : Network} {links : List Connection} {inputs outs : List String}

theorem Network.exists_description {text : String} (loaded : Network.load text = .ok net) :
    ∃ desc, Description.parse? text = some desc ∧ desc.Coherent ∧
      net.Built desc.placed desc.connections desc.inputs desc.outputs := by
  unfold Network.load at loaded
  split at loaded
  · rename_i desc parsed
    exact ⟨desc, parsed, Description.exists_build_iff.mp ⟨net, loaded⟩,
      Description.built_of_build loaded⟩
  · cases loaded

theorem Network.load_compact (desc : Description) : Network.load desc.compact = desc.build := by
  rw [Network.load, desc.parse?_compact]

theorem Builder.addProcesses_eq (every : ∀ decl ∈ desc.processes, (desc.place decl).isOk)
    (ordered : desc.placed.Pairwise fun first second => first.1.depth ≤ second.1.depth) :
    Builder.addProcesses desc =
      desc.placed.forM fun entry => Builder.addProcess entry.1 entry.2 := by
  have located : desc.processes.mapM (Builder.locate desc) =
      pure (desc.processes.map fun decl => (desc.place decl).toOption.map (·, decl)) := by
    generalize desc.processes = decls at every
    induction decls with
    | nil => rfl
    | cons decl decls ih =>
      have here : Builder.locate desc decl = pure ((desc.place decl).toOption.map (·, decl)) := by
        have placed := every decl mem_cons_self
        rw [Builder.locate]
        cases place : desc.place decl with
        | ok hier => rfl
        | error reason => simp [place, Except.isOk, Except.toBool] at placed
      rw [mapM_cons, here, ih fun other mem => every other (mem_cons_of_mem _ mem)]
      rfl
  have placed :
      (desc.processes.map fun decl => (desc.place decl).toOption.map (·, decl)).reduceOption =
      desc.placed := by
    rw [List.reduceOption, filterMap_map]
    rfl
  have sorted : desc.placed.mergeSort (fun first second => first.1.depth ≤ second.1.depth) =
      desc.placed :=
    mergeSort_of_pairwise (ordered.imp fun le => decide_eq_true le)
  rw [Builder.addProcesses, located, pure_bind, placed, sorted]

/-- What is built when everything is added in the order of its declaration. -/
def Description.buildInOrder (description : Description) : Building :=
  ((do
    description.placed.forM fun entry => Builder.addProcess entry.1 entry.2
    description.processes.forM Builder.fillComposite
    description.connections.forM Builder.addConnection
    description.inputs.forM Builder.addInput
    description.outputs.forM Builder.addOutput : Builder Unit).run {}).2

theorem Network.exists_load (desc : Description) (test : Network → Bool)
    (every : ∀ decl ∈ desc.processes, (desc.place decl).isOk)
    (ordered : desc.placed.Pairwise fun first second => first.1.depth ≤ second.1.depth)
    (passes : (!hasErrors desc.buildInOrder.findings && test desc.buildInOrder.net) = true) :
    ∃ net, Network.load desc.compact = .ok net ∧ test net = true := by
  obtain ⟨clean, passed⟩ := Bool.and_eq_true_iff.mp passes
  have builds : desc.build = .ok desc.buildInOrder.net := by
    have same : ((Builder.build desc).run {}).2 = desc.buildInOrder := by
      rw [Builder.build, Builder.addProcesses_eq every ordered]
      rfl
    rw [Description.build, same, if_neg (by simpa using clean)]
  exact ⟨_, (Network.load_compact desc).trans builds, passed⟩

/-- In a network that was built, processes are where the description places them. -/
theorem Network.Built.placed (built : net.Built desc.placed links inputs outs)
    (arranged : desc.Arranged) : net.Placed where
  toNested := built.declares.nested
  rooted {id proc parent} got isParent := by
    have mem (id : ProcessId) (proc : Process) (got : net.process? id = some proc) :
        net.decl id proc ∈ desc.processes ∧ desc.place (net.decl id proc) = .ok proc.hierarchy := by
      have shown : net.shown id = some (proc.hierarchy, net.decl id proc) := by
        rw [Network.shown, got]; rfl
      exact Description.mem_placed.mp ((built.declares.shown id _).mp shown).1
    obtain ⟨isMem, place⟩ := mem id proc got
    obtain ⟨children, isInside⟩ :=
      built.declares.nested.housed
        (show net.parentOf? id = some parent by rw [parentOf?, got]; exact isParent)
    obtain ⟨outer, -, gotOuter, -⟩ := childrenOf?_eq_some.mp isInside
    obtain ⟨isMemOuter, placeOuter⟩ := mem parent outer gotOuter
    have isParentToo : (net.decl id proc).parent = some (net.decl parent outer).id := by
      exact isParent
    exact ⟨outer, gotOuter,
      Description.child_of_place arranged.distinct place isMemOuter placeOuter isParentToo⟩

/-- In a network that was built, the boundary is on its sides. -/
theorem Network.Built.sided {entries : List (Hierarchy × ProcessDecl)}
    (built : net.Built entries links inputs outs) : net.Sided := by
  intro side key mem
  have labelled {references keys} (labels : List.Forall₂ (net.Labels side) keys references)
      (mem : key ∈ keys) : ∃ port, net.port? key = some port ∧ port.direction = side := by
    induction labels with
    | nil => cases mem
    | cons head _ ih =>
      rcases mem_cons.mp mem with rfl | behind
      · obtain ⟨port, has, facing, -⟩ := head
        exact ⟨port, has, facing⟩
      · exact ih behind
  cases side with
  | input => exact labelled built.inputs mem
  | output => exact labelled built.outputs mem

end Dataflow
