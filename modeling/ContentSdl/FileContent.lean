/-! # What is found under the name of a file -/

namespace ContentSdl

inductive FileContent where
  | missing
  | bytes (bs : ByteArray)

inductive FileError where
  | notFound
  | invalidData
  deriving DecidableEq, Repr

namespace FileError

def message : FileError → String
  | .notFound => "No such file or directory (os error 2)"
  | .invalidData => "stream did not contain valid UTF-8"

end FileError

namespace FileContent

def ofText (text : String) : FileContent := .bytes text.toUTF8

/-- The text of a file that is there and is UTF-8. -/
def text : FileContent → Except FileError String
  | .missing => .error .notFound
  | .bytes bs => match String.fromUTF8? bs with
    | some s => .ok s
    | none => .error .invalidData

end FileContent

end ContentSdl
