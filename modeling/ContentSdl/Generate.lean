import ContentSdl.ContentType.Decode
import ContentSdl.FileContent
import ContentSdl.Run

/-! # Types for the fields of a text or file -/

namespace ContentSdl

inductive GenerateError where
  | parse (e : ParseError)
  | file (e : FileError)
  deriving DecidableEq, Repr

namespace GenerateError

def message : GenerateError → String
  | .parse e => "content model parse error: " ++ e.message
  | .file e => "IO error: " ++ e.message

end GenerateError

def generateFromText (text parent : String) (s : Style) : Except GenerateError Built := do
  let fs ← (parseFields text).mapError .parse
  return buildSchema fs parent s

def generateFromFile (content : FileContent) (parent : String) (s : Style) :
    Except GenerateError Built := do
  let text ← content.text.mapError .file
  generateFromText text parent s

end ContentSdl
