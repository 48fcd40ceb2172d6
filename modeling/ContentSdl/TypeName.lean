import ContentSdl.Options

/-! # Names of generated types -/

namespace ContentSdl

/-- The name of an object type that belongs to one parent: of a group or a blocks field. -/
def objectName (parent uid : String) : String := parent ++ "_" ++ uid

/-- The name of the object type of a global field. -/
def globalName (o : Options) (parent uid definition : String) : String :=
  if o.separateGlobals then definition else objectName parent uid

/-- The name of the type of a reference target. -/
def targetName (typePrefix target : String) : String := typePrefix ++ "_" ++ target

/-- The name of a union lists its members without a separator. -/
def unionName (typePrefix : String) (targets : List String) : String :=
  String.join (targets.map (targetName typePrefix)) ++ "_Union"

def assetsName (typePrefix : String) : String := typePrefix ++ "_assets"

end ContentSdl
