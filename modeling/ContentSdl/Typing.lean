import ContentSdl.Field.Basic
import ContentSdl.FieldMap
import ContentSdl.FirstBy
import ContentSdl.ScalarType
import ContentSdl.TypeName

/-! # The output types of fields -/

namespace ContentSdl

/-- What all types of a run have in common. -/
structure Style where
  typePrefix : String
  options : Options
  deriving DecidableEq, Repr, Inhabited

/-- The type of a field with distinct targets: the target or the union of them. -/
def referenceName (typePrefix : String) : List String → String
  | [target] => targetName typePrefix target
  | targets => unionName typePrefix targets

/-- The fields of all variants, the first of each uid. -/
def mergedSchema (variants : List Block) : List Field := firstBy Field.uid (variants.flatMap Block.schema)

namespace Field

/-- The type of a field of an object, if it has one. References are lists of non-null type whatever
the field says. -/
def type? (s : Style) (parent : String) (f : Field) : Option FieldType :=
  let wrap inner := s.options.wrap inner f.multiple f.mandatory
  match f.kind with
  | .scalar kind =>
    if kind.needsAccessor then some (.resolved (wrap kind.outputType) ⟨f.uid⟩)
    else some (.named (wrap kind.outputType))
  | .file => some (.named (wrap (assetsName s.typePrefix)))
  | .group schema =>
    if schema.isEmpty then none else some (.named (wrap (objectName parent f.uid)))
  | .globalField definition schema =>
    if schema.isEmpty then none
    else some (.named (wrap (globalName s.options parent f.uid definition)))
  | .blocks variants =>
    if variants.isEmpty then none else some (.named (wrap (objectName parent f.uid)))
  | .reference targets =>
    if targets.isEmpty then none
    else some (.named (s.options.wrap (referenceName s.typePrefix (distinct targets)) true true))
  | .unknown _ => none

end Field

/-- The types of the fields of an object; those that have none are left out. -/
def fieldEntries (s : Style) (parent : String) (fs : List Field) : List (String × FieldType) :=
  fs.filterMap fun f => (f.type? s parent).map (f.uid, ·)

def fieldMap (s : Style) (parent : String) (fs : List Field) : FieldMap :=
  .ofList (fieldEntries s parent fs)

theorem fieldEntries_append (s : Style) (parent : String) (fs gs : List Field) :
    fieldEntries s parent (fs ++ gs) = fieldEntries s parent fs ++ fieldEntries s parent gs :=
  List.filterMap_append

end ContentSdl
