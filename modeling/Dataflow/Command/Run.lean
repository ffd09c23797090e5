import Dataflow.Command.Arguments
import Dataflow.Compilation.Run
import Dataflow.Drawing.Dot
import Dataflow.Files.Error

/-! The command: what it reads, writes and tells, in terms of the world around it. -/

namespace Dataflow.Command

/-- What the command needs from the world. -/
structure World (m : Type → Type) where
  read : String → m (Except FileError String)
  write : String → String → m (Except FileError Unit)
  print : String → m Unit
  tell : String → m Unit

/-- The name under which the command speaks. -/
def programName : String := "syncflow"

/-- A line about the work of the command. -/
def line (text : String) : String :=
  programName ++ ": " ++ text ++ "\n"

/-- A line about a failure of the command. -/
def errorLine (text : String) : String :=
  line ("error: " ++ text)

def findingLines (findings : List Diagnostic) : String :=
  String.join (findings.map fun finding => line finding.text)

/-- What is told about one step of a run. -/
def stepLines (verbose : Bool) (step : RunStep) : String :=
  findingLines step.findings ++
    if verbose && step.performed then line (step.pass.name ++ " complete") else ""

def sectionLine (net : Network) (region : Section) : Except Fault String := do
  match ← net.dataParallelLength? region with
  | some length => return region.text ++ ": data-parallel, length " ++ toString length ++ "\n"
  | none => return region.text ++ ": not data-parallel\n"

/-- The text of an artifact, or why there is none. -/
def render (state : Compilation) : Artifact → Except String String
  | .schedule =>
    match state.schedule with
    | some schedule => .ok schedule.text
    | none => .error "no schedule was produced"
  | .network =>
    match state.network.describe with
    | .ok description => .ok (description.pretty ++ "\n")
    | .error fault => .error fault.message
  | .dot => .ok state.network.dot
  | .sections =>
    match state.network.sections >>= (·.mapM (sectionLine state.network)) with
    | .ok lines => .ok (String.join lines)
    | .error fault => .error fault.message
  | .buildInfo =>
    match state.provenance with
    | some provenance => .ok provenance.text
    | none => .error "no provenance was recorded"

/-- The text of an artifact and what is told on the way; without a text the compilation has failed.
-/
def compile (invocation : Invocation) (source : String) : String × Option String :=
  match Compilation.load source with
  | .error findings => (findingLines findings, none)
  | .ok state =>
    let loaded :=
      if invocation.verbose then line ("loaded " ++ toString state.network.size ++ " processes")
      else ""
    let run := state.run invocation.options (invocation.artifact.terminal invocation.options)
    let told := loaded ++ String.join (run.steps.map (stepLines invocation.verbose))
    if run.failing.isSome then (told, none)
    else
      match render run.state invocation.artifact with
      | .ok text => (told, some text)
      | .error message => (told ++ errorLine message, none)

variable {m : Type → Type} [Monad m]

/-- Writes an artifact, and tells the exit status. -/
def deliver (world : World m) (invocation : Invocation) (text : String) : m Nat := do
  match invocation.output with
  | none =>
    world.print text
    return 0
  | some path =>
    match ← world.write path text with
    | .ok () => return 0
    | .error error =>
      world.tell (errorLine ("writing output: " ++ error.message))
      return 2

/-- Compiles a description, and tells the exit status. -/
def execute (world : World m) (invocation : Invocation) : m Nat := do
  if invocation.verbose then
    world.tell (line ("source = " ++ invocation.source))
    world.tell (line ("emit   = " ++ invocation.artifact.title))
  match ← world.read invocation.source with
  | .error error =>
    world.tell (errorLine (invocation.source ++ ": " ++ error.message))
    return 2
  | .ok source =>
    let (told, text) := compile invocation source
    world.tell told
    match text with
    | some text => deliver world invocation text
    | none => return 1

def usage : String :=
  "Usage: " ++ programName ++ " [OPTIONS] <SOURCE>\n\n" ++
    "Options:\n" ++
    "  -o, --output <OUTPUT>      Output file path (stdout if omitted)\n" ++
    "      --emit <EMIT>          schedule, network, dot, sections or build-info\n" ++
    "      --strategy <STRATEGY>  coalesce or split\n" ++
    "      --no-parallel          Skip the data-parallel passes\n" ++
    "      --verbose              Print passes\n" ++
    "  -h, --help                 Print help\n" ++
    "  -V, --version              Print version\n"

/-- Answers a request, and tells the exit status. -/
def answer (world : World m) : Request → m Nat
  | .version => do
    world.print (programName ++ " " ++ Provenance.version ++ "\n")
    return 0
  | .help => do
    world.print usage
    return 0
  | .compile invocation => execute world invocation

end Dataflow.Command
