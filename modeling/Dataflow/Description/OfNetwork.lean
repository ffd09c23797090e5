import Dataflow.Description.Format
import Dataflow.Digest.Sha256
import Dataflow.Network.Basic

/-! Describing a network, and the fingerprint that its description gives it. -/

namespace Dataflow.Network

def portDecl (net : Network) (key : PortKey) : Except Fault PortDecl := do
  let port ← net.port key
  return { name := port.name, dataType := port.dataType }

def processDecl (net : Network) (id : ProcessId) (process : Process) :
    Except Fault ProcessDecl := do
  let inPorts ← process.inPorts.mapM net.portDecl
  let outPorts ← process.outPorts.mapM net.portDecl
  return {
    id
    parent := process.hierarchy.parent?
    kind := process.kind.mapInside (·.toHelpers)
    inPorts
    outPorts }

/-- The connection that leaves a port, if there is one. -/
def connectionFrom (net : Network) (key : PortKey) : Except Fault (Option Connection) := do
  let peer ← net.peer key
  return peer.map fun other => { source := net.portLabel key, target := net.portLabel other }

/-- The declaration of a process and the connections that leave it. -/
def describeProcess (net : Network) (id : ProcessId) (process : Process) :
    Except Fault (ProcessDecl × List Connection) := do
  let decl ← net.processDecl id process
  let connections ← process.outPorts.mapM net.connectionFrom
  return (decl, connections.reduceOption)

/-- The description of a network, with processes in the order of their names. -/
def describe (net : Network) : Except Fault Description := do
  let parts ← net.processes.toList.mapM fun (id, process) => net.describeProcess id process
  return {
    processes := parts.map (·.1)
    connections := parts.flatMap (·.2)
    inputs := net.inputs.map net.portLabel
    outputs := net.outputs.map net.portLabel }

/-- The hash of the description, which port keys have no part in. -/
def fingerprint (net : Network) : Except Fault String := do
  return Sha256.hexDigest (← net.describe).compact

end Dataflow.Network
