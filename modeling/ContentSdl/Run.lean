import ContentSdl.Build
import ContentSdl.Field.Wire

/-! # Runs that build several schemas -/

namespace ContentSdl

open Json (Value)

/-- What one build produced. -/
structure Built where
  fields : FieldMap
  declarations : List Declaration
  references : List Reference
  files : List FileField
  log : List LogEvent

namespace Built

/-- The declarations as text. -/
def types (b : Built) : List String := b.declarations.map Declaration.render

def value (b : Built) : Value :=
  .object [("fields", fieldMapValue b.fields), ("types", .array (b.types.map .string)),
    ("references", .array (b.references.map fun r =>
      .object [("parent", .string r.parent), ("uid", .string r.uid)])),
    ("fileFields", .array (b.files.map fun f =>
      .object [("parent", .string f.parent), ("field", f.field.value)]))]

def text (b : Built) : String := b.value.text

end Built

namespace Build

/-- Visits the fields of an object and tells their types. -/
def walk (s : Style) (fs : List Field) (parent : String) (b : Build) : FieldMap × Build :=
  (fieldMap s parent fs, visitAll s parent fs b)

def finish (fields : FieldMap) (b : Build) : Built :=
  ⟨fields, b.declarations, b.references, b.files, b.log⟩

end Build

/-- Schemas that are built one after another on one registry. -/
structure Run where
  style : Style
  registry : Registry := {}
  deriving DecidableEq, Inhabited

namespace Run

/-- Builds the types of a schema whose fields belong to an object of the given name. -/
def build (run : Run) (fs : List Field) (parent : String) : Built × Run :=
  let (fields, b) := Build.walk run.style fs parent { registry := run.registry }
  (b.finish fields, { run with registry := b.registry })

end Run

/-- Builds the types of one schema. -/
def buildSchema (fs : List Field) (parent : String) (s : Style) : Built := ((Run.mk s {}).build fs parent).1

end ContentSdl
