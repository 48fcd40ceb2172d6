import ContentSdl.ContentType.Basic
import ContentSdl.ParseError

/-! # Uids of sibling fields: non-empty and distinct -/

namespace ContentSdl

inductive SchemaError where
  | parse (e : ParseError)
  | emptyUid (parent : String)
  | duplicateField (parent uid : String)
  deriving DecidableEq, Repr

namespace SchemaError

def message : SchemaError → String
  | .parse e => "parse error: " ++ e.message
  | .emptyUid parent => "field with empty uid under '" ++ parent ++ "'"
  | .duplicateField parent uid => "duplicate field uid '" ++ uid ++ "' under '" ++ parent ++ "'"

end SchemaError

/-- Paths are joined by points; the empty path is left out. -/
def childPath (path uid : String) : String := if path = "" then uid else path ++ "." ++ uid

/-- Whether a uid may follow the uids of earlier siblings. -/
def checkUid (path : String) (seen : List String) (uid : String) : Except SchemaError Unit :=
  if uid = "" then .error (.emptyUid path)
  else if uid ∈ seen then .error (.duplicateField path uid)
  else .ok ()

mutual
/-- The first violation, depth first: a field's own uid, then its schemas, then its later siblings. -/
def checkFields (path : String) (seen : List String) : List Field → Except SchemaError Unit
  | [] => .ok ()
  | ⟨uid, _, _, _, kind⟩ :: fs => do
    checkUid path seen uid
    checkKind (childPath path uid) kind
    checkFields path (uid :: seen) fs

def checkKind (path : String) : FieldKind → Except SchemaError Unit
  | .group schema => checkFields path [] schema
  | .globalField _ schema => checkFields path [] schema
  | .blocks variants => checkBlocks path variants
  | .scalar _ | .file | .reference _ | .unknown _ => .ok ()

def checkBlocks (path : String) : List Block → Except SchemaError Unit
  | [] => .ok ()
  | ⟨uid, _, schema⟩ :: bs => do
    checkFields (childPath path uid) [] schema
    checkBlocks path bs
end

def validateFields (fs : List Field) : Except SchemaError Unit := checkFields "" [] fs

namespace ContentType

def validate (c : ContentType) : Except SchemaError Unit := checkFields c.uid [] c.schema

end ContentType

end ContentSdl
