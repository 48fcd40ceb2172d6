import ContentSdl.OrderedMap
import ContentSdl.Json.Writer

/-! # The fields of an output type -/

namespace ContentSdl

open Json (Value)

/-- Looks up the value of one field in a record. -/
structure Accessor where
  uid : String
  deriving DecidableEq, Repr, Inhabited

namespace Accessor

/-- The member of that uid, or null. -/
def resolve (a : Accessor) (source : Value) : Value := (source.member? a.uid).getD .null

end Accessor

/-- The type of a field, which says how to find the value unless that goes by the name of the field. -/
inductive FieldType where
  | named (type : String)
  | resolved (type : String) (accessor : Accessor)
  deriving DecidableEq, Repr, Inhabited

namespace FieldType

def type : FieldType → String
  | .named type => type
  | .resolved type _ => type

def accessor? : FieldType → Option Accessor
  | .named _ => none
  | .resolved _ accessor => some accessor

def value : FieldType → Value
  | .named type => .string type
  | .resolved type _ => .object [("type", .string type)]

end FieldType

abbrev FieldMap := OrderedMap FieldType

/-- The body of a declaration: entries `uid:Type` with commas between them. -/
def fieldMapBody (m : FieldMap) : String :=
  String.intercalate "," (m.entries.map fun e => e.1 ++ ":" ++ e.2.type)

def fieldMapValue (m : FieldMap) : Value := .object (m.entries.map fun e => (e.1, e.2.value))

/-- The system fields of an entry with their types. -/
def systemFields : List (String × String) :=
  [("uid", "String!"), ("locale", "String"), ("created_at", "Date"), ("updated_at", "Date"),
    ("created_by", "String"), ("updated_by", "String")]

/-- Adds the system fields that the content type does not declare itself. -/
def withSystemFields (m : FieldMap) : FieldMap :=
  systemFields.foldl (fun m f => m.insertIfNew f.1 (.named f.2)) m

end ContentSdl
