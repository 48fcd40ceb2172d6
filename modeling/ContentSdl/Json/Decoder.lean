import ContentSdl.Json.Reader
import ContentSdl.Json.Problem

/-! # Decoding the nodes of a JSON document -/

namespace ContentSdl.Json

/-- Whether a node comes from a text that is being read or from a finished value. -/
inductive Origin where
  | text
  | value
  deriving DecidableEq, Repr

abbrev Decoded (α : Type) := Except DecodeError α

def fromFault {α : Type} (r : Except Fault α) : Decoded α := r.mapError .fault

/-- A node that is not of the expected type: a fault in it comes first. -/
def wrongType {α : Type} (expected : String) (n : Node) : Decoded α :=
  let report (found : Found) : Decoded α := .error (.problem (.wrongType found expected))
  match n with
  | .broken f => .error (.fault f)
  | .null => report .null
  | .bool b => report (.bool b)
  | .number n => fromFault n.decoded >>= fun n => report (.number n)
  | .string s => fromFault s.decoded >>= fun s => report (.string s)
  | .array .. => report .array
  | .object .. => report .object

def decodeString : Node → Decoded String
  | .string s => fromFault s.decoded
  | n => wrongType "a string" n

def decodeBool : Node → Decoded Bool
  | .bool b => .ok b
  | n => wrongType "a boolean" n

/-- Null stands for an absent value. -/
def decodeNullable {α : Type} (decode : Node → Decoded α) : Node → Decoded (Option α)
  | .null => .ok none
  | n => (decode n).map some

/-- A list by the decoder of its elements, which is lacking where no container may be opened. -/
def decodeList {α : Type} (element? : Option (Node → Decoded α)) : Node → Decoded (List α)
  | .array ns ending => match element? with
    | none => .error (.fault .malformed)
    | some element => do
      let as ← ns.mapM element
      fromFault (stop ending)
      return as
  | n => wrongType "a sequence" n

/-- The members of a record in the order of their positions, those first that have no default. -/
structure Shape (μ : Type) where
  title : String
  members : List μ
  name : μ → String
  required : List μ

/-- The values that a node gives to members of a record, in the order of the node up to a fault or
problem that lies outside of them, and how the record ends. -/
structure Entries (μ : Type) where
  given : List (μ × Node)
  ending : Decoded Unit

namespace Entries

def cons {μ : Type} (m : μ) (n : Node) (e : Entries μ) : Entries μ := ⟨(m, n) :: e.given, e.ending⟩

def none {μ : Type} (ending : Decoded Unit) : Entries μ := ⟨[], ending⟩

end Entries

namespace Shape

variable {μ : Type} [DecidableEq μ] (shape : Shape μ)

def member? (key : String) : Option μ := shape.members.find? (shape.name · = key)

/-- At the end of an object, members without a default that were not seen are missing. -/
def missing (seen : List μ) : Decoded Unit :=
  match shape.required.find? (· ∉ seen) with
  | some m => .error (.problem (.missingMember (shape.name m)))
  | none => .ok ()

/-- The entries of an object; other members are skipped. -/
def objectEntries (ending : Option Fault) : List μ → List (Lexeme String × Node) → Entries μ
  | seen, [] => .none (fromFault (stop ending) >>= fun _ => shape.missing seen)
  | seen, (key, n) :: rest => match key.decoded with
    | .error f => .none (.error (.fault f))
    | .ok key => match shape.member? key with
      | none => match n.skim with
        | .error f => .none (.error (.fault f))
        | .ok () => objectEntries ending seen rest
      | some m =>
        if m ∈ seen then .none (.error (.problem (.repeatedMember key)))
        else (objectEntries ending (m :: seen) rest).cons m n

/-- At the end of an array, the next member must have a default. -/
def tooFew (next : Option μ) (length : Nat) : Decoded Unit :=
  match next with
  | some m =>
    if m ∈ shape.required then
      .error (.problem (.tooFew length shape.title shape.members.length))
    else .ok ()
  | none => .ok ()

/-- More elements than members: a text is refused at the first of them, a value as a whole. -/
def tooMany (origin : Origin) (length : Nat) : Decoded Unit :=
  match origin with
  | .text => .error (.fault .malformed)
  | .value => .error (.problem (.tooMany length))

/-- The entries of an array with `length` elements, member by member. -/
def arrayEntries (origin : Origin) (length : Nat) (ending : Option Fault) :
    List μ → List Node → Entries μ
  | ms, [] => .none (fromFault (stop ending) >>= fun _ => shape.tooFew ms.head? length)
  | [], _ :: _ => .none (tooMany origin length)
  | m :: ms, n :: rest => (arrayEntries origin length ending ms rest).cons m n

end Shape

/-- Puts the entries one after another into a draft of a record. -/
def Entries.fill {μ σ : Type} (put : σ → μ → Node → Decoded σ) (start : σ) (e : Entries μ) :
    Decoded σ := do
  let draft ← e.given.foldlM (fun draft m => put draft m.1 m.2) start
  e.ending
  return draft

/-- A record, written as an object or as the array of its members, by the decoder of a member, which
is lacking where no container may be opened. -/
def decodeRecord {μ σ : Type} [DecidableEq μ] (shape : Shape μ) (origin : Origin)
    (put? : Option (σ → μ → Node → Decoded σ)) (start : σ) (n : Node) : Decoded σ :=
  match n with
  | .array ns ending => match put? with
    | none => .error (.fault .malformed)
    | some put => (shape.arrayEntries origin ns.length ending shape.members ns).fill put start
  | .object ms ending => match put? with
    | none => .error (.fault .malformed)
    | some put => (shape.objectEntries ending [] ms).fill put start
  | n => wrongType shape.title n

/-- Decodes a text while reading it; what follows the value is looked at last. -/
def decodeText {α : Type} (decode : Node → Decoded α) (text : String) : Decoded α :=
  let d := Document.ofChars text.toList
  d.finish (.fault .malformed) (decode d.root)

end ContentSdl.Json
