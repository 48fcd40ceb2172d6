import ContentSdl.Field.Basic
import ContentSdl.Json.Writer

/-! # Fields as JSON -/

namespace ContentSdl

open Json (Value)

/-- A member that is left out when there is nothing to say. -/
def optionalMember (name : String) : Option String → List (String × Value)
  | none => []
  | some s => [(name, .string s)]

mutual
def FieldKind.members : FieldKind → List (String × Value)
  | .scalar _ | .file | .unknown _ => []
  | .group schema => [("schema", .array (fieldValues schema))]
  | .globalField definition schema =>
    [("schema", .array (fieldValues schema)), ("reference_to", .string definition)]
  | .blocks variants => [("blocks", .array (blockValues variants))]
  | .reference targets => [("reference_to", .array (targets.map .string))]

def Field.value : Field → Value
  | ⟨uid, displayName, mandatory, multiple, kind⟩ =>
    .object ([("uid", .string uid), ("data_type", .string kind.tag)] ++
      optionalMember "display_name" displayName ++
      [("mandatory", .bool mandatory), ("multiple", .bool multiple)] ++ kind.members)

def Block.value : Block → Value
  | ⟨uid, title, schema⟩ =>
    .object ([("uid", .string uid)] ++ optionalMember "title" title ++
      [("schema", .array (fieldValues schema))])

def fieldValues : List Field → List Value
  | [] => []
  | f :: fs => f.value :: fieldValues fs

def blockValues : List Block → List Value
  | [] => []
  | b :: bs => b.value :: blockValues bs
end

theorem fieldValues_eq_map (fs : List Field) : fieldValues fs = fs.map Field.value := by
  induction fs with
  | nil => rfl
  | cons f fs ih => rw [fieldValues, ih, List.map_cons]

theorem blockValues_eq_map (bs : List Block) : blockValues bs = bs.map Block.value := by
  induction bs with
  | nil => rfl
  | cons b bs ih => rw [blockValues, ih, List.map_cons]

/-- The text of a list of fields. -/
def fieldsText (fs : List Field) : String := (Value.array (fieldValues fs)).text

end ContentSdl
