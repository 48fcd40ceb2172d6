import ContentSdl.Json.Problem

/-! # Why a content model is not accepted -/

namespace ContentSdl

inductive ParseError where
  | json (e : Json.DecodeError)
  | missingAttribute (field name : String)
  | invalidStructure (message : String)
  deriving DecidableEq, Repr

namespace ParseError

def message : ParseError → String
  | .json e => "JSON parsing error: " ++ e.message
  | .missingAttribute field name => Json.missingAttributeMessage field name
  | .invalidStructure message => "invalid content model structure: " ++ message

end ParseError

end ContentSdl
