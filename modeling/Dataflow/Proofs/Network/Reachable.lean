import Dataflow.Compilation.Run
import Dataflow.Proofs.Description.Build
import Dataflow.Proofs.Transform.Referable

/-! Whatever is done to a network from outside, and wherever it stops at a fault, the network stays
well formed. -/

namespace Dataflow

/-- What can be done to a network from outside. -/
inductive Operation where
  /-- Adds a process under a given name. -/
  | addProcess (id : ProcessId) (kind : Kind Composite) (hierarchy : Hierarchy)
  /-- Adds a process under a fresh name. -/
  | addFresh (stem : String) (kind : Kind Composite) (hierarchy : Hierarchy)
  /-- Removes a process. -/
  | removeProcess (id : ProcessId)
  /-- Adds a port to a process. -/
  | addPort (owner : ProcessId) (name : String) (direction : Direction) (dataType : Option DataType)
  /-- Connects two ports. -/
  | connect (source target : PortKey)
  /-- Breaks a connection. -/
  | disconnect (key : PortKey)
  /-- Makes a port an input of the graph. -/
  | addInput (key : PortKey)
  /-- Makes a port an output of the graph. -/
  | addOutput (key : PortKey)
  /-- Puts one port in the place of another on the boundary. -/
  | replaceBoundary (old new : PortKey)
  /-- Moves the outer ports of a region to other processes. -/
  | redirect (oldStart oldStop newStart newStop : ProcessId)
  /-- Removes a process and everything it leads to. -/
  | destroyChain (start : ProcessId)
  /-- Performs a pass. -/
  | perform (pass : Pass)

namespace Operation

/-- The edit that an operation makes. -/
def edit : Operation → Edit Unit
  | .addProcess id kind hierarchy => discard <| Edit.addProcess id kind hierarchy
  | .addFresh stem kind hierarchy => discard <| Edit.addFresh stem kind hierarchy
  | .removeProcess id => discard <| Edit.removeProcess id
  | .addPort owner name direction dataType => discard <| Edit.addPort owner name direction dataType
  | .connect source target => Edit.connect source target
  | .disconnect key => discard <| Edit.disconnect key
  | .addInput key => Edit.addInput key
  | .addOutput key => Edit.addOutput key
  | .replaceBoundary old new => discard <| Edit.replaceBoundary old new
  | .redirect oldStart oldStop newStart newStop => Edit.redirect oldStart oldStop newStart newStop
  | .destroyChain start => discard <| Edit.destroyChain start
  | .perform pass => (pass.transformation?.map discard).getD (pure ())

/-- What an operation asks of its arguments, besides what it checks itself: a boundary port has to
be live. -/
def Allowed (net : Network) : Operation → Prop
  | .replaceBoundary _ new => net.Live [new]
  | _ => True

/-- The network that an operation leaves, whether it succeeds or stops at a fault. -/
def apply (operation : Operation) (net : Network) : Network :=
  operation.edit.after net

/-- The network that operations make of the empty one, each in turn and whether it succeeds or
not. -/
def build (operations : List Operation) : Network :=
  operations.foldl (fun net operation => operation.apply net) {}

/-- The operations that add processes at the top level, each with its in-ports and its out-ports,
which all have the same type. -/
@[simp] def addAll (dataType : Option DataType)
    (processes : List (ProcessId × Kind Composite × List String × List String)) : List Operation :=
  processes.flatMap fun (id, kind, ins, outs) =>
    .addProcess id kind {} ::
      (ins.map (.addPort id · .input dataType) ++ outs.map (.addPort id · .output dataType))

theorem keeps_transformation {pass : Pass} {edit : Edit Report}
    (some : pass.transformation? = some edit) {net : Network} (ref : net.Referable False False) :
    edit.Keeps False False net fun _ _ => True := by
  cases pass <;> simp only [Pass.transformation?, Option.some.injEq, reduceCtorEq] at some <;>
    subst some
  case flatten => exact ref.keeps_flatten
  case removeRedundant => exact ref.keeps_removeRedundant
  case combToMap => exact ref.keeps_combToMap
  case coalesceDataParallel => exact ref.keeps_coalesceDataParallel
  case splitSegments => exact ref.keeps_splitSegments
  case fuseSections => exact ref.keeps_fuseSections
  case mergeParallelMaps => exact ref.keeps_mergeParallelMaps

theorem keeps_edit {net : Network} (inv : net.Consistent) {op : Operation}
    (allowed : op.Allowed net) : op.edit.Keeps False False net fun _ _ => True := by
  have ref := inv.referable
  have each {α : Type} {edit : Edit α} (call : Call) {change : α → Option PortKey}
      (made : call.edit = change <$> edit)
      (allowed : call.Allowed net) : edit.Keeps False False net fun _ _ => True :=
    Edit.keeps_of_call call made allowed ref fun _ evo => ⟨evo.inv.referable, trivial⟩
  cases op with
  | addProcess id kind hier => exact (ref.keeps_addProcess id False.elim).discard
  | addFresh stem kind hier => exact (ref.keeps_addFresh stem False.elim).discard
  | removeProcess id => exact ref.keeps_removeProcess id
  | addPort owner name dir dataType =>
    exact (each (.addPort owner name dir dataType) rfl trivial).discard
  | connect src dst => exact each (.connect src dst) rfl trivial
  | disconnect key => exact (each (.disconnect key) rfl trivial).discard
  | addInput key => exact each (.addInput key) rfl trivial
  | addOutput key => exact each (.addOutput key) rfl trivial
  | replaceBoundary old new => exact (each (.replaceBoundary old new) rfl allowed).discard
  | redirect oldStart oldStop newStart newStop => exact ref.keeps_redirect ..
  | destroyChain start => exact ref.keeps_destroyChain start
  | perform pass =>
    cases some : pass.transformation? with
    | none =>
      simp only [edit, some, Option.map_none, Option.getD_none]
      exact ref.keeps_pure trivial
    | some transformation =>
      simp only [edit, some, Option.map_some, Option.getD_some]
      exact (keeps_transformation some ref).discard

theorem proceeds_apply {op : Operation} {net : Network} (inv : net.Consistent)
    (allowed : op.Allowed net) : net.Proceeds (op.apply net) :=
  (Edit.Ends.mono (keeps_edit inv allowed) (fun _ _ held => held.1) fun _ proceeds =>
    proceeds).after

end Operation

namespace Network

/-- The networks that operations make of the empty network and of those that were loaded. -/
inductive Reachable : Network → Prop where
  /-- The empty network. -/
  | empty : Reachable {}
  /-- A network that was loaded. -/
  | load {text : String} {net : Network} (loaded : Network.load text = .ok net) : Reachable net
  /-- What an operation leaves. -/
  | step {net : Network} (operation : Operation) (reachable : Reachable net)
    (allowed : operation.Allowed net) : Reachable (operation.apply net)

variable {net : Network}

theorem Reachable.foldl (reachable : net.Reachable) {ops : List Operation}
    (allowed : ∀ op ∈ ops, ∀ net, op.Allowed net) :
    (ops.foldl (fun net op => op.apply net) net).Reachable := by
  induction ops generalizing net with
  | nil => exact reachable
  | cons op ops ih =>
    exact ih (reachable.step op (allowed op List.mem_cons_self net)) fun other mem =>
      allowed other (List.mem_cons_of_mem _ mem)

theorem Reachable.proceeds (reachable : net.Reachable) : Proceeds {} net := by
  induction reachable with
  | empty => exact .refl Consistent.empty
  | load loaded => exact proceeds_of_load loaded
  | step op _ allowed ih => exact ih.trans (Operation.proceeds_apply ih.inv allowed)

theorem Reachable.inv (reachable : net.Reachable) : net.Consistent :=
  reachable.proceeds.inv

/-- As long as fewer ports were added than there are keys, every reachable network is well
formed. -/
theorem Reachable.wellFormed (reachable : net.Reachable) (few : net.ports.nextKey < UInt32.size) :
    net.WellFormed where
  toConsistent := reachable.inv
  keysFit := Nat.le_of_lt few

/-- Two copiers in a row; moving the second one into a third one stops after its in-port, at a
missing process. -/
def halfMoved : Network :=
  Operation.build
    (Operation.addAll none [("a", .fanout, ["in"], ["out"]), ("b", .fanout, ["in"], ["out"]),
        ("c", .fanout, [], [])] ++
      [.connect 1 2, .addInput 0, .addOutput 3, .redirect "b" "b" "c" "d"])

/-- A move that stops halfway leaves a well-formed network, in which the first copier feeds the
third one. -/
theorem wellFormed_halfMoved :
    halfMoved.Reachable ∧ halfMoved.ports.nextKey < UInt32.size ∧
    (halfMoved.neighbours "a" .output).toOption = some ["c"] ∧ halfMoved.WellFormed := by
  have reachable : halfMoved.Reachable := Reachable.empty.foldl (by simp [Operation.Allowed])
  have few : halfMoved.ports.nextKey < UInt32.size := by decide +kernel
  exact ⟨reachable, few, by decide +kernel, reachable.wellFormed few⟩

end Network

end Dataflow
