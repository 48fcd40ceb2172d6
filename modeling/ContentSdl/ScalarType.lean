import ContentSdl.Field.Basic

/-! # Types of scalar fields -/

namespace ContentSdl

/-- The type of links, which is declared once and for all. -/
def linkName : String := "linktype"

namespace ScalarKind

def outputType : ScalarKind → String
  | .text => "String"
  | .isoDate => "Date"
  | .number => "Int"
  | .boolean => "Boolean"
  | .json => "JSON"
  | .link => linkName

/-- Whether the value has to be looked up by the uid of the field. -/
def needsAccessor : ScalarKind → Bool
  | .text | .number | .json => true
  | .isoDate | .boolean | .link => false

end ScalarKind

end ContentSdl
