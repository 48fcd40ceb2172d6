import ContentSdl.Declaration

/-! # Type definitions that are registered with the host -/

namespace ContentSdl

/-- An object type by its fields; further fields may be inferred. -/
structure ObjectType where
  name : String
  interfaces : List String
  fields : FieldMap
  infer : Bool
  deriving DecidableEq

namespace ObjectType

/-- An object type that is a node. -/
def node (name : String) (fields : FieldMap) : ObjectType := ⟨name, ["Node"], fields, false⟩

def clauses (o : ObjectType) : String :=
  (if o.interfaces.isEmpty then "" else " implements " ++ String.intercalate " & " o.interfaces) ++
    if o.infer then " @infer" else ""

def render (o : ObjectType) : String := renderObject o.name o.clauses (fieldMapBody o.fields)

end ObjectType

inductive TypeDefinition where
  | sdl (text : String)
  | object (type : ObjectType)
  deriving DecidableEq

namespace TypeDefinition

def render : TypeDefinition → String
  | .sdl text => text
  | .object type => type.render

end TypeDefinition

/-- The texts registered so far, and in how many calls. -/
structure SchemaDocument where
  types : List String := []
  calls : Nat := 0
  deriving DecidableEq, Repr, Inhabited

namespace SchemaDocument

def create (d : SchemaDocument) (ts : List TypeDefinition) : SchemaDocument :=
  ⟨d.types ++ ts.map TypeDefinition.render, d.calls + 1⟩

/-- One declaration a line. -/
def text (d : SchemaDocument) : String := String.intercalate "\n" d.types

end SchemaDocument

end ContentSdl
