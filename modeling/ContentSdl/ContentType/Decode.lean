import ContentSdl.ContentType.Basic
import ContentSdl.Field.Decode
import ContentSdl.ParseError

/-! # Decoding content models from JSON -/

namespace ContentSdl

open Json (Value Node Decoded Shape)

inductive ContentTypeMember where
  | uid
  | title
  | schema
  deriving DecidableEq, Repr

namespace ContentTypeMember

def name : ContentTypeMember → String
  | .uid => "uid"
  | .title => "title"
  | .schema => "schema"

end ContentTypeMember

def contentTypeShape : Shape ContentTypeMember where
  title := "struct ContentType"
  members := [.uid, .title, .schema]
  name := ContentTypeMember.name
  required := [.uid]

def putContentType (fields : Node → Decoded (List Field)) (c : ContentType) (m : ContentTypeMember)
    (n : Node) : Decoded ContentType :=
  match m with
  | .uid => (Json.decodeString n).map ({ c with uid := · })
  | .title => (Json.decodeString n).map ({ c with title := · })
  | .schema => (fields n).map ({ c with schema := · })

def decodeContentType (room : Nat) : Node → Decoded ContentType :=
  Json.decodeRecord contentTypeShape .value
    (match room with
      | 0 => none
      | room + 1 => some (putContentType (decodeFields .value room))) ⟨"", "", []⟩

def decodeContentTypes : Nat → Node → Decoded (List ContentType)
  | 0 => Json.decodeList none
  | room + 1 => Json.decodeList (some (decodeContentType room))

/-- The list of content types of a value: itself, or the one in an envelope. -/
def contentTypeList (v : Value) : Except ParseError Value :=
  match v with
  | .array _ => .ok v
  | .object _ => match v.member? "content_types" with
    | some list => .ok list
    | none => .error (.invalidStructure "object without a 'content_types' member")
  | _ => .error (.invalidStructure ("expected an array or object, found " ++ v.text))

def parseFields (text : String) : Except ParseError (List Field) :=
  (fieldsOfText text).mapError .json

def contentTypesOfValue (v : Value) : Except ParseError (List ContentType) := do
  let list ← contentTypeList v
  (decodeContentTypes list.height list.node).mapError .json

/-- A text must be JSON as a whole before it is asked whether it describes content types. -/
def parseContentTypes (text : String) : Except ParseError (List ContentType) := do
  let v ← (Value.ofText Json.nestingLimit text).mapError (.json ∘ .fault)
  contentTypesOfValue v

end ContentSdl
