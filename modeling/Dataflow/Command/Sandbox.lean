import Dataflow.Command.Run
import Dataflow.Files.Tree

/-! The command in a world of its own, with files in memory. -/

namespace Dataflow.Command

open Files (Tree Place Entry Device)

/-- Files, and what was written to the two outputs. -/
structure Sandbox where
  tree : Tree
  out : String := ""
  err : String := ""

namespace Sandbox

def print (sandbox : Sandbox) (text : String) : Sandbox :=
  { sandbox with out := sandbox.out ++ text }

/-- Writes to the standard error output. -/
def tell (sandbox : Sandbox) (text : String) : Sandbox :=
  { sandbox with err := sandbox.err ++ text }

def read (sandbox : Sandbox) (path : String) : Except FileError String := do
  match ← sandbox.tree.open? path with
  | .file content =>
    match String.fromUTF8? content with
    | some text => return text
    | none => throw .notText
  | _ => return ""

def writeDevice (sandbox : Sandbox) (text : String) : Device → Except FileError Sandbox
  | .null | .input => .ok sandbox
  | .full => if text.isEmpty then .ok sandbox else .error .noSpace
  | .output => .ok (sandbox.print text)
  | .error => .ok (sandbox.tell text)

/-- Writes a text to what stands at a path, or to a new file. -/
def write (sandbox : Sandbox) (path text : String) : Except FileError Sandbox := do
  let place ← sandbox.tree.create? path
  match sandbox.tree.entry? place with
  | some (.device device) => sandbox.writeDevice text device
  | _ => return { sandbox with tree := sandbox.tree.put place (.file text.toUTF8) }

/-- The text of the file at a place, if there is one. -/
def textAt? (sandbox : Sandbox) (place : Place) : Option String :=
  match sandbox.tree.entry? place with
  | some (.file content) => String.fromUTF8? content
  | _ => none

/-- A sandbox as the world of the command. -/
def world : World (StateM Sandbox) where
  read path := do return (← get).read path
  write path text := do
    match (← get).write path text with
    | .ok sandbox =>
      set sandbox
      return .ok ()
    | .error error => return .error error
  print text := modify (·.print text)
  tell text := modify (·.tell text)

end Sandbox

end Dataflow.Command
