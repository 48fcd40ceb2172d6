import ContentSdl.FieldMap
import ContentSdl.ScalarType

/-! # Declarations of the schema definition language -/

namespace ContentSdl

inductive Body where
  | text (s : String)
  | fields (m : FieldMap)
  deriving DecidableEq

namespace Body

def render : Body → String
  | .text s => s
  | .fields m => fieldMapBody m

end Body

/-- An object type, which may be a node with inferred fields, or a union. -/
inductive Declaration where
  | object (name : String) (node : Bool) (body : Body)
  | union (name : String) (members : List String)
  deriving DecidableEq

/-- An object type with its clauses. -/
def renderObject (name clauses body : String) : String :=
  "type " ++ name ++ clauses ++ " \x7b " ++ body ++ " \x7d"

namespace Declaration

def name : Declaration → String
  | .object name _ _ => name
  | .union name _ => name

def render : Declaration → String
  | .object name node body =>
    renderObject name (if node then " implements Node @infer" else "") body.render
  | .union name members => "union " ++ name ++ " = " ++ String.intercalate " | " members

end Declaration

/-- The declaration of the link type. -/
def linkDeclaration : Declaration := .object linkName false (.text "title: String href: String")

/-- The type of assets. -/
def assetsDeclaration (name : String) : Declaration := .object name true (.text "url: String")

/-- The field that every placeholder declares, and its type. -/
def placeholderField : String × String := ("title", "String!")

/-- The declaration of a reference target, of which nothing else is known. -/
def placeholder (name : String) : Declaration :=
  .object name true (.text (placeholderField.1 ++ ": " ++ placeholderField.2))

end ContentSdl
