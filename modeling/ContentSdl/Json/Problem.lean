import ContentSdl.Json.Lexeme
import ContentSdl.Json.Value
import ContentSdl.Text.Quoted
import ContentSdl.Double.Layout

/-! # Why a JSON text or value does not decode -/

namespace ContentSdl.Json

/-- What is found where something else is expected. -/
inductive Found where
  | null
  | bool (b : Bool)
  | number (n : Number)
  | string (s : String)
  | array
  | object
  deriving DecidableEq, Repr

/-- JSON of the wrong shape. -/
inductive Problem where
  | wrongType (found : Found) (expected : String)
  | missingMember (name : String)
  | repeatedMember (name : String)
  | tooFew (length : Nat) (record : String) (size : Nat)
  | tooMany (length : Nat)
  | notTargets
  | missingAttribute (field name : String)
  deriving DecidableEq, Repr

inductive DecodeError where
  | fault (f : Fault)
  | problem (p : Problem)
  deriving DecidableEq, Repr

namespace Found

def describe : Found → String
  | .null => "null"
  | .bool b => "boolean `" ++ (if b then "true" else "false") ++ "`"
  | .number (.int n) => "integer `" ++ toString n ++ "`"
  | .number (.real x) => "floating point `" ++ String.ofList x.chars ++ "`"
  | .string s => "string " ++ Text.quoted s
  | .array => "sequence"
  | .object => "map"

end Found

/-- How a field that lacks an attribute is reported. -/
def missingAttributeMessage (field name : String) : String :=
  "missing required attribute '" ++ name ++ "' on field '" ++ field ++ "'"

namespace Problem

def message : Problem → String
  | .wrongType found expected => "invalid type: " ++ found.describe ++ ", expected " ++ expected
  | .missingMember name => "missing field `" ++ name ++ "`"
  | .repeatedMember name => "duplicate field `" ++ name ++ "`"
  | .tooFew length record size =>
    "invalid length " ++ toString length ++ ", expected " ++ record ++ " with " ++ toString size ++
      " elements"
  | .tooMany length =>
    "invalid length " ++ toString length ++ ", expected fewer elements in array"
  | .notTargets => "data did not match any variant of untagged enum ReferenceTo"
  | .missingAttribute field name => missingAttributeMessage field name

end Problem

namespace DecodeError

/-- Faults of the text are told apart by their kind alone. -/
def message : DecodeError → String
  | .fault .truncated => "the text ends too early"
  | .fault .malformed => "the text is not JSON"
  | .problem p => p.message

end DecodeError

end ContentSdl.Json
