import ContentSdl.Field.Basic
import ContentSdl.Json.Decoder

/-! # Decoding fields from JSON -/

namespace ContentSdl

open Json (Node Decoded Origin Shape)

inductive FieldMember where
  | uid
  | dataType
  | displayName
  | mandatory
  | multiple
  | schema
  | blocks
  | referenceTo
  deriving DecidableEq, Repr

namespace FieldMember

def name : FieldMember → String
  | .uid => "uid"
  | .dataType => "data_type"
  | .displayName => "display_name"
  | .mandatory => "mandatory"
  | .multiple => "multiple"
  | .schema => "schema"
  | .blocks => "blocks"
  | .referenceTo => "reference_to"

end FieldMember

def fieldShape : Shape FieldMember where
  title := "struct RawField"
  members := [.uid, .dataType, .displayName, .mandatory, .multiple, .schema, .blocks, .referenceTo]
  name := FieldMember.name
  required := [.uid, .dataType]

inductive BlockMember where
  | uid
  | title
  | schema
  deriving DecidableEq, Repr

namespace BlockMember

def name : BlockMember → String
  | .uid => "uid"
  | .title => "title"
  | .schema => "schema"

end BlockMember

def blockShape : Shape BlockMember where
  title := "struct BlockDef"
  members := [.uid, .title, .schema]
  name := BlockMember.name
  required := [.uid]

/-- The targets of a value: none, one or a list. -/
def targetsOfValue? : Json.Value → Option (List String)
  | .null => some []
  | .string s => some [s]
  | .array vs => vs.mapM fun
    | .string s => some s
    | _ => none
  | _ => none

/-- Targets are read as a value before it is asked what it is. -/
def decodeTargets (room : Nat) (n : Node) : Decoded (List String) := do
  let v ← Json.fromFault (n.value room)
  match targetsOfValue? v with
  | some targets => return targets
  | none => .error (.problem .notTargets)

/-- What the members of a field say, whatever the field's kind makes of them. -/
structure FieldDraft where
  uid : String := ""
  dataType : String := ""
  displayName : Option String := none
  mandatory : Bool := false
  multiple : Bool := false
  schema : List Field := []
  variants : List Block := []
  targets : List String := []

namespace FieldDraft

/-- The kind of the field; a global field has one definition. -/
def kind (d : FieldDraft) : Decoded FieldKind :=
  if d.dataType = "file" then .ok .file
  else if d.dataType = "group" then .ok (.group d.schema)
  else if d.dataType = "global_field" then
    match d.targets with
    | [definition] => .ok (.globalField definition d.schema)
    | _ => .error (.problem (.missingAttribute d.uid "reference_to"))
  else if d.dataType = "blocks" then .ok (.blocks d.variants)
  else if d.dataType = "reference" then .ok (.reference d.targets)
  else match ScalarKind.ofTag? d.dataType with
    | some kind => .ok (.scalar kind)
    | none => .ok (.unknown d.dataType)

def finish (d : FieldDraft) : Decoded Field :=
  d.kind.map (⟨d.uid, d.displayName, d.mandatory, d.multiple, ·⟩)

/-- Decodes a member, given the decoders of lists of fields and of blocks. -/
def put (fields : Node → Decoded (List Field)) (blocks : Node → Decoded (List Block)) (room : Nat)
    (d : FieldDraft) (m : FieldMember) (n : Node) : Decoded FieldDraft :=
  match m with
  | .uid => (Json.decodeString n).map ({ d with uid := · })
  | .dataType => (Json.decodeString n).map ({ d with dataType := · })
  | .displayName => (Json.decodeNullable Json.decodeString n).map ({ d with displayName := · })
  | .mandatory => (Json.decodeBool n).map ({ d with mandatory := · })
  | .multiple => (Json.decodeBool n).map ({ d with multiple := · })
  | .schema => (Json.decodeNullable fields n).map ({ d with schema := ·.getD [] })
  | .blocks => (Json.decodeNullable blocks n).map ({ d with variants := ·.getD [] })
  | .referenceTo => (decodeTargets room n).map ({ d with targets := · })

end FieldDraft

def emptyBlock : Block := ⟨"", none, []⟩

/-- Decodes a member, given the decoder of lists of fields. -/
def putBlock (fields : Node → Decoded (List Field)) (b : Block) (m : BlockMember) (n : Node) :
    Decoded Block :=
  match m with
  | .uid => (Json.decodeString n).map ({ b with uid := · })
  | .title => (Json.decodeNullable Json.decodeString n).map ({ b with title := · })
  | .schema => (fields n).map ({ b with schema := · })

mutual
def decodeFields (origin : Origin) : Nat → Node → Decoded (List Field)
  | 0 => Json.decodeList none
  | room + 1 => Json.decodeList (some (decodeField origin room))

def decodeField (origin : Origin) : Nat → Node → Decoded Field
  | 0, n => Json.decodeRecord fieldShape origin none {} n >>= FieldDraft.finish
  | room + 1, n =>
    Json.decodeRecord fieldShape origin
      (some (FieldDraft.put (decodeFields origin room) (decodeBlocks origin room) room)) {} n >>=
      FieldDraft.finish

def decodeBlocks (origin : Origin) : Nat → Node → Decoded (List Block)
  | 0 => Json.decodeList none
  | room + 1 => Json.decodeList (some (decodeBlock origin room))

def decodeBlock (origin : Origin) : Nat → Node → Decoded Block
  | 0 => Json.decodeRecord blockShape origin none emptyBlock
  | room + 1 =>
    Json.decodeRecord blockShape origin (some (putBlock (decodeFields origin room))) emptyBlock
end

/-- The fields of a text, decoded while it is read. -/
def fieldsOfText (text : String) : Decoded (List Field) :=
  Json.decodeText (decodeFields .text Json.nestingLimit) text

/-- The fields of a value, however deep it is nested. -/
def fieldsOfValue (v : Json.Value) : Decoded (List Field) :=
  decodeFields .value v.height v.node

end ContentSdl
