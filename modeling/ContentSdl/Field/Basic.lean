/-! # Fields of a content type -/

namespace ContentSdl

/-- Kinds of primitive values. -/
inductive ScalarKind where
  | text
  | isoDate
  | number
  | boolean
  | json
  | link
  deriving DecidableEq, Repr, Inhabited

namespace ScalarKind

def all : List ScalarKind := [.text, .isoDate, .number, .boolean, .json, .link]

/-- The tag of the kind in a content model. -/
def tag : ScalarKind → String
  | .text => "text"
  | .isoDate => "isodate"
  | .number => "number"
  | .boolean => "boolean"
  | .json => "json"
  | .link => "link"

def ofTag? (tag : String) : Option ScalarKind := all.find? (·.tag = tag)

theorem mem_all (k : ScalarKind) : k ∈ all := by cases k <;> decide

theorem tag_of_ofTag? {tag : String} {k : ScalarKind} (h : ofTag? tag = some k) : k.tag = tag := by
  simpa using List.find?_some h

end ScalarKind

mutual
/-- What a field holds. A kind that is not known is kept by its tag. -/
inductive FieldKind where
  | scalar (kind : ScalarKind)
  | file
  | group (schema : List Field)
  | globalField (definition : String) (schema : List Field)
  | blocks (variants : List Block)
  | reference (targets : List String)
  | unknown (tag : String)

/-- A field of a schema; its uid tells it from its siblings. -/
structure Field where
  uid : String
  displayName : Option String
  mandatory : Bool
  multiple : Bool
  kind : FieldKind

/-- A variant of a blocks field. -/
structure Block where
  uid : String
  title : Option String
  schema : List Field
end

namespace FieldKind

/-- The tag of the kind in a content model. -/
def tag : FieldKind → String
  | .scalar kind => kind.tag
  | .file => "file"
  | .group _ => "group"
  | .globalField .. => "global_field"
  | .blocks _ => "blocks"
  | .reference _ => "reference"
  | .unknown tag => tag

/-- The tags that have a kind of their own. -/
def knownTags : List String :=
  ScalarKind.all.map ScalarKind.tag ++ ["file", "group", "global_field", "blocks", "reference"]

end FieldKind

namespace Field

/-- An optional field with one value. -/
def make (uid : String) (kind : FieldKind) : Field := ⟨uid, none, false, false, kind⟩

end Field

instance : Inhabited Field := ⟨.make "" .file⟩

mutual
def FieldKind.equal : (a b : FieldKind) → Decidable (a = b)
  | .scalar a, .scalar b => decidable_of_iff (a = b) (by simp)
  | .file, .file => isTrue rfl
  | .group a, .group b => match equalFields a b with
    | isTrue h => isTrue (h ▸ rfl)
    | isFalse h => isFalse fun e => h (FieldKind.group.inj e)
  | .globalField d a, .globalField e b =>
    if hd : d = e then match equalFields a b with
      | isTrue h => isTrue (hd ▸ h ▸ rfl)
      | isFalse h => isFalse fun e => h (FieldKind.globalField.inj e).2
    else isFalse fun e => hd (FieldKind.globalField.inj e).1
  | .blocks a, .blocks b => match equalBlocks a b with
    | isTrue h => isTrue (h ▸ rfl)
    | isFalse h => isFalse fun e => h (FieldKind.blocks.inj e)
  | .reference a, .reference b => decidable_of_iff (a = b) (by simp)
  | .unknown a, .unknown b => decidable_of_iff (a = b) (by simp)
  | .scalar _, .file | .scalar _, .group _ | .scalar _, .globalField .. | .scalar _, .blocks _
  | .scalar _, .reference _ | .scalar _, .unknown _
  | .file, .scalar _ | .file, .group _ | .file, .globalField .. | .file, .blocks _
  | .file, .reference _ | .file, .unknown _
  | .group _, .scalar _ | .group _, .file | .group _, .globalField .. | .group _, .blocks _
  | .group _, .reference _ | .group _, .unknown _
  | .globalField .., .scalar _ | .globalField .., .file | .globalField .., .group _
  | .globalField .., .blocks _ | .globalField .., .reference _ | .globalField .., .unknown _
  | .blocks _, .scalar _ | .blocks _, .file | .blocks _, .group _ | .blocks _, .globalField ..
  | .blocks _, .reference _ | .blocks _, .unknown _
  | .reference _, .scalar _ | .reference _, .file | .reference _, .group _
  | .reference _, .globalField .. | .reference _, .blocks _ | .reference _, .unknown _
  | .unknown _, .scalar _ | .unknown _, .file | .unknown _, .group _ | .unknown _, .globalField ..
  | .unknown _, .blocks _ | .unknown _, .reference _ => isFalse nofun

def Field.equal : (a b : Field) → Decidable (a = b)
  | ⟨u, d, m, n, a⟩, ⟨v, e, o, p, b⟩ =>
    if h : u = v ∧ d = e ∧ m = o ∧ n = p then match FieldKind.equal a b with
      | isTrue hk => isTrue (by obtain ⟨rfl, rfl, rfl, rfl⟩ := h; rw [hk])
      | isFalse hk => isFalse fun e => hk (Field.mk.inj e).2.2.2.2
    else isFalse fun e => h (by obtain ⟨hu, hd, hm, hn, -⟩ := Field.mk.inj e; exact ⟨hu, hd, hm, hn⟩)

def Block.equal : (a b : Block) → Decidable (a = b)
  | ⟨u, d, a⟩, ⟨v, e, b⟩ =>
    if h : u = v ∧ d = e then match equalFields a b with
      | isTrue hs => isTrue (by obtain ⟨rfl, rfl⟩ := h; rw [hs])
      | isFalse hs => isFalse fun e => hs (Block.mk.inj e).2.2
    else isFalse fun e => h (by obtain ⟨hu, hd, -⟩ := Block.mk.inj e; exact ⟨hu, hd⟩)

def equalFields : (a b : List Field) → Decidable (a = b)
  | [], [] => isTrue rfl
  | [], _ :: _ | _ :: _, [] => isFalse nofun
  | a :: as, b :: bs => match Field.equal a b, equalFields as bs with
    | isTrue h, isTrue hs => isTrue (h ▸ hs ▸ rfl)
    | isFalse h, _ => isFalse fun e => h (List.cons.inj e).1
    | _, isFalse h => isFalse fun e => h (List.cons.inj e).2

def equalBlocks : (a b : List Block) → Decidable (a = b)
  | [], [] => isTrue rfl
  | [], _ :: _ | _ :: _, [] => isFalse nofun
  | a :: as, b :: bs => match Block.equal a b, equalBlocks as bs with
    | isTrue h, isTrue hs => isTrue (h ▸ hs ▸ rfl)
    | isFalse h, _ => isFalse fun e => h (List.cons.inj e).1
    | _, isFalse h => isFalse fun e => h (List.cons.inj e).2
end

instance : DecidableEq FieldKind := FieldKind.equal
instance : DecidableEq Field := Field.equal
instance : DecidableEq Block := Block.equal

end ContentSdl
