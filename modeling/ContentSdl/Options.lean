import ContentSdl.Json.Decoder

/-! # Options of the generated types -/

namespace ContentSdl

open Json (Node Decoded Shape)

structure Options where
  /-- No type is marked as non-null. -/
  disableMandatory : Bool := false
  /-- A global field has one type for all its users, named after its definition. -/
  separateGlobals : Bool := false
  deriving DecidableEq, Repr, Inhabited

namespace Options

/-- A type as a list and as non-null, where asked for. -/
def wrap (o : Options) (inner : String) (multiple mandatory : Bool) : String :=
  let outer := if multiple then "[" ++ inner ++ "]" else inner
  if mandatory && !o.disableMandatory then outer ++ "!" else outer

end Options

inductive OptionsMember where
  | disableMandatory
  | separateGlobals
  deriving DecidableEq, Repr

namespace OptionsMember

def name : OptionsMember → String
  | .disableMandatory => "disableMandatoryFields"
  | .separateGlobals => "createSeparateGlobalFieldTypes"

end OptionsMember

def optionsShape : Shape OptionsMember where
  title := "struct SchemaOptions"
  members := [.disableMandatory, .separateGlobals]
  name := OptionsMember.name
  required := []

namespace Options

def put (o : Options) (m : OptionsMember) (n : Node) : Decoded Options :=
  match m with
  | .disableMandatory => (Json.decodeBool n).map ({ o with disableMandatory := · })
  | .separateGlobals => (Json.decodeBool n).map ({ o with separateGlobals := · })

def decode : Node → Decoded Options := Json.decodeRecord optionsShape .text (some put) {}

/-- The options that a text gives; those it does not mention are off. -/
def ofText (text : String) : Decoded Options := Json.decodeText decode text

end Options

end ContentSdl
