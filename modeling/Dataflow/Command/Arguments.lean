import Dataflow.Compilation.Pass

/-! The arguments of the command. -/

namespace Dataflow.Command

/-- What the command writes. -/
inductive Artifact where
  | schedule
  | network
  | dot
  /-- The sections, and whether they are data-parallel. -/
  | sections
  | buildInfo
deriving DecidableEq

namespace Artifact

/-- The word that asks for an artifact. -/
def word : Artifact → String
  | .schedule => "schedule"
  | .network => "network"
  | .dot => "dot"
  | .sections => "sections"
  | .buildInfo => "build-info"

def title : Artifact → String
  | .schedule => "Schedule"
  | .network => "Network"
  | .dot => "Dot"
  | .sections => "Sections"
  | .buildInfo => "BuildInfo"

def ofWord? (word : String) : Option Artifact :=
  [schedule, network, dot, sections, buildInfo].find? (·.word = word)

/-- The last pass that an artifact needs. -/
def terminal (options : Options) : Artifact → Pass
  | .schedule | .buildInfo => .schedule
  | .network | .dot => options.lastTransformation
  | .sections => .combToMap

end Artifact

def strategyOfWord? : String → Option Strategy
  | "coalesce" => some .coalesce
  | "split" => some .split
  | _ => none

/-- An option, which may be given once. -/
inductive Flag where
  | output
  | emit
  | strategy
  | noParallel
  | verbose
  | version
  | help
deriving DecidableEq

namespace Flag

def word : Flag → String
  | .output => "--output"
  | .emit => "--emit"
  | .strategy => "--strategy"
  | .noParallel => "--no-parallel"
  | .verbose => "--verbose"
  | .version => "--version"
  | .help => "--help"

def ofWord? (word : String) : Option Flag :=
  [output, emit, strategy, noParallel, verbose, version, help].find? (·.word = word)

def ofLetter? : Char → Option Flag
  | 'o' => some .output
  | 'V' => some .version
  | 'h' => some .help
  | _ => none

def takesValue : Flag → Bool
  | .output | .emit | .strategy => true
  | .noParallel | .verbose | .version | .help => false

end Flag

/-- Why arguments cannot be understood. -/
inductive UsageError where
  /-- There is no such option. -/
  | unknownOption (argument : String)
  /-- An option was given without its value. -/
  | missingValue (flag : Flag)
  /-- An option was given a value that it does not take. -/
  | badValue (flag : Flag) (value : String)
  /-- An option was given twice. -/
  | repeated (flag : Flag)
  /-- There is more than one path, or an empty one. -/
  | badPath (path : String)
  /-- There is no path. -/
  | missingPath
deriving DecidableEq

def UsageError.message : UsageError → String
  | .unknownOption argument => "unexpected argument '" ++ argument ++ "' found"
  | .missingValue flag => "a value is required for '" ++ flag.word ++ "' but none was supplied"
  | .badValue flag value => "invalid value '" ++ value ++ "' for '" ++ flag.word ++ "'"
  | .repeated flag => "the argument '" ++ flag.word ++ "' cannot be used multiple times"
  | .badPath path => "unexpected path '" ++ path ++ "'"
  | .missingPath => "the path of a network description is required"

/-- What a compilation on the command line is asked to do. -/
structure Invocation where
  source : String
  /-- The path to write to, if not the standard output. -/
  output : Option String := none
  artifact : Artifact := .schedule
  options : Options := {}
  verbose : Bool := false
deriving DecidableEq

/-- What the command is asked to do. -/
inductive Request where
  | compile (invocation : Invocation)
  | version
  | help
deriving DecidableEq

/-- The arguments understood so far. -/
structure Reading where
  /-- The path of the description. -/
  source : Option String := none
  /-- The options that were given. -/
  given : List Flag := []
  /-- What they ask for; its source is filled in at the end. -/
  invocation : Invocation := { source := "" }

namespace Reading

def takePath (reading : Reading) (path : String) : Except UsageError Reading :=
  if reading.source.isSome ∨ path = "" then .error (.badPath path)
  else .ok { reading with source := some path }

/-- Sets what an option with a value asks for. -/
def assign (invocation : Invocation) (flag : Flag) (value : String) : Option Invocation :=
  match flag with
  | .output => if value = "" then none else some { invocation with output := some value }
  | .emit => (Artifact.ofWord? value).map fun artifact => { invocation with artifact }
  | .strategy => (strategyOfWord? value).map fun strategy =>
    { invocation with options := { invocation.options with strategy } }
  | _ => none

/-- Sets what an option without a value asks for. -/
def enable (invocation : Invocation) : Flag → Invocation
  | .noParallel => { invocation with options := { invocation.options with dataParallel := false } }
  | .verbose => { invocation with verbose := true }
  | _ => invocation

def takeValue (reading : Reading) (flag : Flag) (value : String) : Except UsageError Reading :=
  if flag ∈ reading.given then .error (.repeated flag)
  else
    match assign reading.invocation flag value with
    | some invocation => .ok { reading with given := flag :: reading.given, invocation }
    | none => .error (.badValue flag value)

def takeFlag (reading : Reading) (flag : Flag) : Except UsageError Reading :=
  if flag ∈ reading.given then .error (.repeated flag)
  else .ok { reading with
      given := flag :: reading.given, invocation := enable reading.invocation flag }

/-- The request, once all arguments are understood. -/
def close (reading : Reading) : Except UsageError Request :=
  match reading.source with
  | some source => .ok (.compile { reading.invocation with source })
  | none => .error .missingPath

end Reading

/-- An argument by its form. -/
inductive Argument where
  /-- A path, or the value of the option before it. -/
  | plain (text : String)
  | separator
  | option (flag : Flag) (attached : Option String)
  | unknown (text : String)
deriving DecidableEq

namespace Argument

/-- The form of an option in words, whose value stands behind an equals sign. -/
def ofWords (text : String) : Argument :=
  let chars := text.toList
  let word := String.ofList (chars.takeWhile (· ≠ '='))
  let attached := match chars.dropWhile (· ≠ '=') with
    | [] => none
    | _ :: value => some (String.ofList value)
  match Flag.ofWord? word with
  | some flag => .option flag attached
  | none => .unknown text

/-- The form of an option in letters, whose value follows with or without an equals sign. -/
def ofLetters (text : String) (letter : Char) (rest : List Char) : Argument :=
  match Flag.ofLetter? letter with
  | none => .unknown text
  | some flag =>
    -- An option without a value leaves the letters behind it to others, but the first one decides.
    if !flag.takesValue then .option flag none
    else
      match rest with
      | [] => .option flag none
      | '=' :: value => .option flag (some (String.ofList value))
      | value => .option flag (some (String.ofList value))

def ofText (text : String) : Argument :=
  match text.toList with
  | ['-', '-'] => .separator
  | '-' :: '-' :: _ => ofWords text
  | '-' :: letter :: rest => ofLetters text letter rest
  | _ => .plain text

end Argument

def readPaths (reading : Reading) (arguments : List String) : Except UsageError Request := do
  (← arguments.foldlM Reading.takePath reading).close

/-- Reads arguments from left to right; the first error, or a request to tell something, decides. -/
def readArguments (reading : Reading) : List String → Except UsageError Request
  | [] => reading.close
  | text :: rest =>
    match Argument.ofText text with
    | .plain path => do readArguments (← reading.takePath path) rest
    | .separator => readPaths reading rest
    | .unknown argument => .error (.unknownOption argument)
    | .option flag attached =>
      if flag.takesValue then
        match attached, rest with
        | some value, rest => do readArguments (← reading.takeValue flag value) rest
        | none, [] => .error (.missingValue flag)
        | none, value :: rest =>
          -- Only a plain argument is a value; anything else leaves the option without one.
          match Argument.ofText value with
          | .plain value => do readArguments (← reading.takeValue flag value) rest
          | _ => .error (.missingValue flag)
      else
        match attached, flag with
        | some value, _ => .error (.badValue flag value)
        | none, .version => .ok .version
        | none, .help => .ok .help
        | none, _ => do readArguments (← reading.takeFlag flag) rest

/-- What the arguments of the command ask for. -/
def parse (arguments : List String) : Except UsageError Request :=
  readArguments {} arguments

end Dataflow.Command
