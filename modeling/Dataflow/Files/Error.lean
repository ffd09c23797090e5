/-! Why a file cannot be read or written. -/

namespace Dataflow

/-- Why a file cannot be read or written. -/
inductive FileError where
  /-- There is no such file, or no directory to put it into. -/
  | notFound
  /-- A name on the way belongs to something else than a directory. -/
  | notDirectory
  /-- The path names a directory. -/
  | isDirectory
  /-- There is no room for the content. -/
  | noSpace
  /-- A name or the whole path is too long. -/
  | nameTooLong
  /-- The content is no text. -/
  | notText
  /-- Any other reason, with the number and the words of the system. -/
  | system (code : Nat) (text : String)
deriving DecidableEq

namespace FileError

/-- The words of the system with its number for them. -/
def systemMessage (text : String) (code : Nat) : String :=
  text ++ " (os error " ++ toString code ++ ")"

def message : FileError → String
  | .notFound => systemMessage "No such file or directory" 2
  | .notDirectory => systemMessage "Not a directory" 20
  | .isDirectory => systemMessage "Is a directory" 21
  | .noSpace => systemMessage "No space left on device" 28
  | .nameTooLong => systemMessage "File name too long" 36
  | .notText => "stream did not contain valid UTF-8"
  | .system code text => systemMessage text code

end FileError

end Dataflow
