import Dataflow.Description.Format
import Dataflow.Diagnostic
import Dataflow.Network.Edit

/-! Building the network that a description describes, with everything that is wrong with the
description. -/

namespace Dataflow

/-- A network under construction, with what was found wrong on the way. -/
structure Building where
  net : Network := {}
  findings : List Diagnostic := []

/-- A step of the construction, which goes on after a finding. -/
abbrev Builder := StateM Building

namespace Builder

def report (finding : Diagnostic) : Builder Unit :=
  modify fun building => { building with findings := building.findings ++ [finding] }

/-- Reports that the description is malformed. -/
def malformed (subject : Option ProcessId) (message : String) : Builder Unit :=
  report { severity := .error, subject, message, code := some .malformed }

/-- Reports a reference to something that does not exist. -/
def unknown (subject : Option ProcessId) (message : String) : Builder Unit :=
  report { severity := .error, subject, message, code := some .unknownReference }

/-- Makes an edit; a fault is reported about `subject`, with `context` in front of its words. -/
def attempt (subject : Option ProcessId) (context : String) (edit : Edit Unit) : Builder Bool := do
  let building ← get
  match edit.run building.net with
  | .ok _ net =>
    set { building with net }
    return true
  | .error fault net =>
    set { building with net }
    malformed subject (context ++ fault.message)
    return false

end Builder

/-- Why a process has no place in the hierarchy. -/
inductive Misplacement where
  | cyclic
  | missing (parent : ProcessId)

namespace Description

/-- The declaration of a process, of which the last one counts. -/
def find? (description : Description) (id : ProcessId) : Option ProcessDecl :=
  description.processes.reverse.find? (·.id = id)

/-- The composites around the process `self`, found by going from parent to parent; `path` is what
was found so far. -/
def climb (description : Description) (self : ProcessId) :
    Nat → List ProcessId → Option ProcessId → Except Misplacement (List ProcessId)
  | _, path, none => .ok path
  | 0, _, some _ => .error .cyclic
  | fuel + 1, path, some parent =>
    -- A parent that was met before closes a loop, so a path never names a process twice.
    if parent = self ∨ parent ∈ path then .error .cyclic
    else
      match description.find? parent with
      | none => .error (.missing parent)
      | some decl => climb description self fuel (parent :: path) decl.parent

/-- The place of a process in the hierarchy. -/
def place (description : Description) (decl : ProcessDecl) : Except Misplacement Hierarchy := do
  let path ← description.climb decl.id (description.processes.length + 1) [] decl.parent
  return { path }

end Description

namespace Builder

/-- The place of a process, with a report if it has none. -/
def locate (description : Description) (decl : ProcessDecl) :
    Builder (Option (Hierarchy × ProcessDecl)) := do
  match description.place decl with
  | .ok hierarchy => return some (hierarchy, decl)
  | .error .cyclic =>
    malformed (some decl.id) ("parent chain of '" ++ decl.id ++ "' is cyclic")
    return none
  | .error (.missing parent) =>
    unknown (some decl.id) ("parent '" ++ parent ++ "' of '" ++ decl.id ++ "' does not exist")
    return none

/-- Adds a process with its ports at its place; the inside of a composite is filled later. -/
def addProcess (hierarchy : Hierarchy) (decl : ProcessDecl) : Builder Unit := do
  let kind := decl.kind.mapInside fun _ => {}
  if ← attempt (some decl.id) "" (discard <| Edit.addProcess decl.id kind hierarchy) then
    let addPort (direction : Direction) (port : PortDecl) : Builder Unit :=
      discard <| attempt (some decl.id) ""
        (discard <| Edit.addPort decl.id port.name direction port.dataType)
    decl.inPorts.forM (addPort .input)
    decl.outPorts.forM (addPort .output)

/-- Adds all processes, parents before children. -/
def addProcesses (description : Description) : Builder Unit := do
  let placed ← description.processes.mapM (locate description)
  let sorted := placed.reduceOption.mergeSort fun first second => first.1.depth ≤ second.1.depth
  sorted.forM fun (hierarchy, decl) => addProcess hierarchy decl

/-- Gives a composite its helpers, all of which have to exist. -/
def fillComposite (decl : ProcessDecl) : Builder Unit := do
  if let .composite helpers := decl.kind then
    if (← get).net.contains decl.id then
      (helpers.inputs ++ helpers.outputs).forM fun helper => do
        unless (← get).net.contains helper do
          unknown (some decl.id)
            ("boundary helper '" ++ helper ++ "' of composite '" ++ decl.id ++ "' does not exist")
      let fill (process : Process) : Process :=
        { process with
          kind := process.kind.mapInside fun inside => { inside with toHelpers := helpers } }
      discard <| attempt (some decl.id) "" (Edit.modifyProcess decl.id fill)

/-- A port reference taken apart at its last dot. -/
def splitReference? (reference : String) : Option (ProcessId × String) :=
  let backwards := reference.toList.reverse
  match backwards.dropWhile (· ≠ '.') with
  | [] => none
  | _ :: owner =>
    some (String.ofList owner.reverse, String.ofList (backwards.takeWhile (· ≠ '.')).reverse)

/-- The port of a process with a given name. -/
def namedPort? (net : Network) (process : Process) (direction : Direction) (name : String) :
    Option PortKey :=
  (process.ports direction).find? fun key => (net.port? key).any (·.name = name)

/-- The port that a reference names, with a report if there is none. -/
def resolve (direction : Direction) (reference : String) : Builder (Option PortKey) := do
  let net := (← get).net
  match splitReference? reference with
  | none =>
    malformed none ("port reference '" ++ reference ++ "' must have the form 'process.port'")
    return none
  | some (owner, name) =>
    match net.process? owner with
    | none =>
      unknown none ("port reference '" ++ reference ++ "' names unknown process '" ++ owner ++ "'")
      return none
    | some process =>
      match namedPort? net process direction name with
      | some key => return some key
      | none =>
        unknown (some owner)
          ("'" ++ owner ++ "' has no " ++ direction.text ++ " port named '" ++ name ++ "'")
        return none

/-- Adds a connection between the ports that its ends name. -/
def addConnection (connection : Connection) : Builder Unit := do
  let source ← resolve .output connection.source
  let target ← resolve .input connection.target
  if let (some source, some target) := (source, target) then
    let context := "cannot connect '" ++ connection.source ++ "' to '" ++ connection.target ++ "': "
    discard <| attempt none context (Edit.connect source target)

def addInput (reference : String) : Builder Unit := do
  if let some key ← resolve .input reference then discard <| attempt none "" (Edit.addInput key)

def addOutput (reference : String) : Builder Unit := do
  if let some key ← resolve .output reference then discard <| attempt none "" (Edit.addOutput key)

/-- Builds everything a description declares. -/
def build (description : Description) : Builder Unit := do
  addProcesses description
  description.processes.forM fillComposite
  description.connections.forM addConnection
  description.inputs.forM addInput
  description.outputs.forM addOutput

end Builder

/-- The network that a description describes, or everything that is wrong with the description. -/
def Description.build (description : Description) : Except (List Diagnostic) Network :=
  let building := ((Builder.build description).run {}).2
  if hasErrors building.findings then .error building.findings else .ok building.net

/-- The finding that a text is no description. -/
def Description.unreadable : Diagnostic where
  severity := .error
  message := "invalid network description"
  code := some .malformed
  hint := some "expected an object with `processes`, `connections`, `inputs` and `outputs`"

/-- The network that a text describes, or everything that is wrong with the text. -/
def Network.load (text : String) : Except (List Diagnostic) Network :=
  match Description.parse? text with
  | some description => description.build
  | none => .error [Description.unreadable]

end Dataflow
