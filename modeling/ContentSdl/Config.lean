import ContentSdl.Options
import ContentSdl.Typing

/-! # Configuration of the schema generation -/

namespace ContentSdl

open Json (Node Decoded Shape)

def defaultPrefix : String := "Contentstack"

/-- Nothing is generated unless it is enabled. -/
structure Config where
  enabled : Bool := false
  typePrefix : String := defaultPrefix
  options : Options := {}
  deriving DecidableEq, Repr, Inhabited

namespace Config

def style (c : Config) : Style := ⟨c.typePrefix, c.options⟩

def enable (c : Config) : Config := { c with enabled := true }

end Config

inductive ConfigMember where
  | enabled
  | typePrefix
  | option (m : OptionsMember)
  deriving DecidableEq, Repr

namespace ConfigMember

def name : ConfigMember → String
  | .enabled => "enableSchemaGeneration"
  | .typePrefix => "typePrefix"
  | .option m => m.name

end ConfigMember

def configShape : Shape ConfigMember where
  title := "struct PluginConfig"
  members := [.enabled, .typePrefix, .option .disableMandatory, .option .separateGlobals]
  name := ConfigMember.name
  required := []

namespace Config

def put (c : Config) (m : ConfigMember) (n : Node) : Decoded Config :=
  match m with
  | .enabled => (Json.decodeBool n).map ({ c with enabled := · })
  | .typePrefix => (Json.decodeString n).map ({ c with typePrefix := · })
  | .option m => (c.options.put m n).map ({ c with options := · })

def decode : Node → Decoded Config := Json.decodeRecord configShape .text (some put) {}

/-- The configuration that a text gives; what it does not mention has its default. -/
def ofText (text : String) : Decoded Config := Json.decodeText decode text

end Config

end ContentSdl
