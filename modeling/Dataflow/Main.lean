import Dataflow.Command.Run

/-! The command line. -/

namespace Dataflow.Command

/-- The number and the words with which the system refuses a file. -/
def refusal? : IO.Error → Option (UInt32 × String)
  | .alreadyExists _ code text | .inappropriateType _ code text | .interrupted _ code text
  | .invalidArgument _ code text | .noFileOrDirectory _ code text | .noSuchThing _ code text
  | .permissionDenied _ code text | .resourceExhausted _ code text => some (code, text)
  | .hardwareFault code text | .illegalOperation code text | .otherError code text
  | .protocolError code text
  | .resourceBusy code text | .resourceVanished code text | .timeExpired code text
  | .unsatisfiedConstraints code text | .unsupportedOperation code text => some (code, text)
  | .unexpectedEof | .userError _ => none

def fileError (error : IO.Error) : FileError :=
  match refusal? error with
  | some (code, text) => .system code.toNat text
  | none => .system 0 (toString error)

def readText (path : String) : IO (Except FileError String) := do
  try
    let bytes ← IO.FS.withFile path .read (·.readBinToEnd)
    match String.fromUTF8? bytes with
    | some text => return .ok text
    | none => return .error .notText
  catch error => return .error (fileError error)

def writeText (path text : String) : IO (Except FileError Unit) := do
  try
    IO.FS.withFile path .write fun handle => do
      handle.putStr text
      handle.flush
    return .ok ()
  catch error => return .error (fileError error)

def console : World IO where
  read := readText
  write := writeText
  print text := do
    let stream ← IO.getStdout
    stream.putStr text
    stream.flush
  tell text := do
    let stream ← IO.getStderr
    stream.putStr text

end Dataflow.Command

/-- Understands the arguments and does what they ask for. -/
def main (arguments : List String) : IO UInt32 := do
  match Dataflow.Command.parse arguments with
  | .ok request => return UInt32.ofNat (← Dataflow.Command.answer Dataflow.Command.console request)
  | .error error =>
    Dataflow.Command.console.tell ("error: " ++ error.message ++ "\n")
    return 2
