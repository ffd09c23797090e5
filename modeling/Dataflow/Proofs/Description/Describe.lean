import Dataflow.Description.OfNetwork
import Dataflow.Proofs.Network.Flow

/-! A consistent network can always be described, and what its description says. -/

open List

namespace Dataflow

/-- The declaration of a port. -/
def Port.decl (port : Port) : PortDecl :=
  { name := port.name, dataType := port.dataType }

namespace Network

variable {net : Network} {id : ProcessId} {proc : Process} {keys : List PortKey}

/-- The declarations of live ports. -/
def decls (net : Network) (keys : List PortKey) : List PortDecl :=
  (keys.filterMap net.port?).map Port.decl

/-- The declaration of a process. -/
def decl (net : Network) (id : ProcessId) (process : Process) : ProcessDecl where
  id
  parent := process.hierarchy.parent?
  kind := process.kind.mapInside (·.toHelpers)
  inPorts := net.decls process.inPorts
  outPorts := net.decls process.outPorts

/-- The connection that leaves a port. -/
def leaving? (net : Network) (key : PortKey) : Option Connection :=
  ((net.port? key).bind (·.connection)).map fun other =>
    { source := net.portLabel key, target := net.portLabel other }

/-- What a description of the network says. -/
def description (net : Network) : Description where
  processes := net.processes.toList.map fun (id, process) => net.decl id process
  connections :=
    net.processes.toList.flatMap fun (_, process) => process.outPorts.filterMap net.leaving?
  inputs := net.inputs.map net.portLabel
  outputs := net.outputs.map net.portLabel

section

variable (live : ∀ key ∈ keys, ∃ port, net.port? key = some port)

include live

theorem mapM_portDecl : keys.mapM net.portDecl = .ok (net.decls keys) := by
  induction keys with
  | nil => rfl
  | cons key keys ih =>
    obtain ⟨port, has⟩ := live key mem_cons_self
    rw [mapM_cons, ih fun other mem => live other (mem_cons_of_mem _ mem)]
    simp [portDecl, port_eq_ok.mpr has, decls, has, Port.decl, bind, Except.bind, pure, Except.pure]

theorem mapM_connectionFrom :
    keys.mapM net.connectionFrom = .ok (keys.map net.leaving?) := by
  refine mapM_eq_ok fun key mem => ?_
  obtain ⟨port, has⟩ := live key mem
  simp [connectionFrom, peer_eq_ok has, leaving?, has, bind, Except.bind, pure, Except.pure]

end

theorem Consistent.describe_eq (inv : net.Consistent) : net.describe = .ok net.description := by
  have parts : net.processes.toList.mapM (fun (id, proc) => net.describeProcess id proc) =
      .ok (net.processes.toList.map fun (id, proc) =>
      (net.decl id proc, proc.outPorts.filterMap net.leaving?)) := by
    refine mapM_eq_ok fun (id, proc) mem => ?_
    have live (dir : Direction) : ∀ key ∈ proc.ports dir, ∃ port, net.port? key = some port :=
        fun key isPort => by
      obtain ⟨port, has, -⟩ := inv.listed (mem_toList.mp mem) isPort
      exact ⟨port, has⟩
    have entering : proc.inPorts.mapM net.portDecl = .ok (net.decls proc.inPorts) :=
      mapM_portDecl (live .input)
    have leaving : proc.outPorts.mapM net.portDecl = .ok (net.decls proc.outPorts) :=
      mapM_portDecl (live .output)
    have leading : proc.outPorts.mapM net.connectionFrom = .ok (proc.outPorts.map net.leaving?) :=
      mapM_connectionFrom (live .output)
    simp [describeProcess, processDecl, entering, leaving, leading, decl, List.reduceOption,
      filterMap_map, bind, Except.bind, pure, Except.pure]
  simp [describe, parts, description, flatMap_map, bind, Except.bind, pure, Except.pure]

end Network

end Dataflow
