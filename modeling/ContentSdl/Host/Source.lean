import ContentSdl.ContentType.Decode
import ContentSdl.FileContent

/-! # Where content types come from -/

namespace ContentSdl

inductive HostError where
  | source (message : String)
  | config (e : Json.DecodeError)
  | parse (e : ParseError)
  | file (e : FileError)
  deriving DecidableEq, Repr

namespace HostError

def message : HostError → String
  | .source message => "content source error: " ++ message
  | .config e => "configuration error: " ++ e.message
  | .parse e => "content model parse error: " ++ e.message
  | .file e => "IO error: " ++ e.message

end HostError

/-- A source that cannot be reached, the export of a content model, or content types at hand. -/
inductive Source where
  | failing (message : String)
  | file (content : FileContent)
  | given (contentTypes : List ContentType)

namespace Source

def fetch : Source → Except HostError (List ContentType)
  | .failing message => .error (.source message)
  | .file content => do
    let text ← content.text.mapError .file
    (parseContentTypes text).mapError .parse
  | .given contentTypes => .ok contentTypes

end Source

end ContentSdl
