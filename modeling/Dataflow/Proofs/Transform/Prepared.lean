import Dataflow.Proofs.Transform.Excise
import Dataflow.Proofs.Transform.Sever

/-!
Networks that every transformation can be applied to.

A transformation takes elementary steps: it replaces a region by one process, splices an idle
process out, names a comb for what it is, or cuts the branches of a section. What lasts through each
of these steps lasts through every transformation.
-/

namespace Dataflow.Network

variable {net next : Network} {entry exit : PortKey} {kept : Network → Prop}

/-- No process is inside another one. -/
def TopLevel (net : Network) : Prop :=
  ∀ {id process}, net.process? id = some process → process.hierarchy.parent? = none

/-- Idle processes that are left cannot be spliced out. -/
def Tidy (net : Network) : Prop :=
  ∀ {id process}, net.process? id = some process → isRedundant process → net.Immovable process

/-- The same network, in which some combs may be called maps. -/
structure Retold (net next : Network) : Prop where
  evolves : net.Evolves next
  processes : ∀ id, next.process? id = net.process? id ∨
    ∃ process function, net.process? id = some process ∧ process.kind = .comb function ∧
      next.process? id = some { process with kind := .map function }
  declared : ∀ key, (next.port? key).map Port.unlinked = (net.port? key).map Port.unlinked
  connects : ∀ {source target}, next.Connects source target ↔ net.Connects source target
  inputs : next.inputs = net.inputs
  outputs : next.outputs = net.outputs

/-- A property of ready networks that no step of a transformation takes away. -/
structure Lasting (kept : Network → Prop) : Prop where
  replaced : ∀ {net next : Network} {start stop fresh : ProcessId} {gone : List ProcessId}
    {entry exit : PortKey} {kind : Kind Composite} {hierarchy : Hierarchy}, net.Ready →
    net.Excisable start stop gone entry exit → kind.isMapShaped →
    net.Replaced gone entry exit fresh kind hierarchy next → kept net → kept next
  spliced : ∀ {net next : Network} {id : ProcessId} {process : Process} {entry exit : PortKey},
    net.Ready → net.process? id = some process → isRedundant process → ¬ net.Immovable process →
    net.Excised id entry exit next → kept net → kept next
  retold : ∀ {net next : Network}, net.Retold next → kept net → kept next
  severed : ∀ {net next : Network} {region : Section} {chains : List (List ProcessId)} {cut : Cut},
    net.Severs region chains cut next → kept net → kept next

theorem lasting_true : Lasting fun _ => True :=
  ⟨fun _ _ _ _ _ => trivial, fun _ _ _ _ _ _ => trivial, fun _ _ => trivial, fun _ _ => trivial⟩

/-- A network that every transformation can be applied to, with a property that lasts. -/
structure Prepared (kept : Network → Prop) (net : Network) : Prop where
  ready : net.Ready
  top : net.TopLevel
  lasting : Lasting kept
  holds : kept net

/-- A replacement that keeps a network ready keeps it prepared. -/
theorem Prepared.replaced {start stop fresh : ProcessId} {gone : List ProcessId}
    {kind : Kind Composite} {hier : Hierarchy} (prep : net.Prepared kept) (ready : next.Ready)
    (top : hier.parent? = none) (exc : net.Excisable start stop gone entry exit)
    (shaped : kind.isMapShaped) (repl : net.Replaced gone entry exit fresh kind hier next) :
    next.Prepared kept := by
  refine ⟨ready, fun {id proc} got => ?_, prep.lasting,
    prep.lasting.replaced prep.ready exc shaped repl prep.holds⟩
  rcases repl.process_cases got with ⟨-, rfl⟩ | ⟨-, pre⟩
  · exact top
  · exact prep.top pre

theorem Prepared.severed {reg : Section} {chains : List (List ProcessId)} {cut : Cut}
    (prep : net.Prepared kept) (severs : net.Severs reg chains cut next)
    (top : cut.hierarchy.parent? = none) : next.Prepared kept := by
  refine ⟨severs.readyNext, fun {id proc} got => ?_, prep.lasting,
    prep.lasting.severed severs prep.holds⟩
  rcases severs.cuts.process_cases got with ⟨-, rfl⟩ | ⟨-, rfl⟩ | pre
  · exact top
  · exact top
  · exact prep.top pre

end Dataflow.Network
