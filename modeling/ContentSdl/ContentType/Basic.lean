import ContentSdl.Field.Wire

/-! # Content types -/

namespace ContentSdl

open Json (Value)

/-- A named schema. -/
structure ContentType where
  uid : String
  title : String
  schema : List Field
  deriving DecidableEq, Inhabited

namespace ContentType

/-- The title is the uid unless one is given. -/
def make (uid : String) (schema : List Field) : ContentType := ⟨uid, uid, schema⟩

/-- The name of the object type of its entries. -/
def typeName (c : ContentType) (typePrefix : String) : String := typePrefix ++ "_" ++ c.uid

def value (c : ContentType) : Value :=
  .object [("uid", .string c.uid), ("title", .string c.title),
    ("schema", .array (fieldValues c.schema))]

end ContentType

/-- The text of a list of content types. -/
def contentTypesText (cs : List ContentType) : String :=
  (Value.array (cs.map ContentType.value)).text

/-- The text of a list of content types in an envelope. -/
def envelopeText (cs : List ContentType) : String :=
  (Value.object [("content_types", .array (cs.map ContentType.value))]).text

end ContentSdl
