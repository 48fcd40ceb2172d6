import ContentSdl.Declaration
import ContentSdl.Log
import ContentSdl.Registry
import ContentSdl.Typing

/-! # Building the types of a schema, depth first -/

namespace ContentSdl

/-- A reference field that awaits the resolution of its links. -/
structure Reference where
  parent : String
  uid : String
  deriving DecidableEq, Repr, Inhabited

/-- A file field that awaits the resolution of its asset. -/
structure FileField where
  parent : String
  field : Field
  deriving DecidableEq, Inhabited

/-- What has come of a build so far, each list in the order of discovery. -/
structure Build where
  registry : Registry
  declarations : List Declaration := []
  references : List Reference := []
  files : List FileField := []
  log : List LogEvent := []

namespace Build

def report (level : LogLevel) (message : String) (b : Build) : Build :=
  { b with log := b.log ++ [⟨level, message⟩] }

/-- Adds a declaration unless its name is already declared. -/
def emit (d : Declaration) (b : Build) : Build :=
  if (b.registry.declare d.name).1 then
    report .trace ("Declaring type '" ++ d.name ++ "'")
      { b with
        registry := (b.registry.declare d.name).2
        declarations := b.declarations ++ [d] }
  else b

def emitAll (ds : List Declaration) (b : Build) : Build := ds.foldl (fun b d => b.emit d) b

def addReference (r : Reference) (b : Build) : Build := { b with references := b.references ++ [r] }

def addFile (f : FileField) (b : Build) : Build := { b with files := b.files ++ [f] }

/-- Records a user of a global field definition. -/
def use (definition user : String) (b : Build) : Build :=
  { b with registry := b.registry.record definition user }

/-- A field that contributes nothing. -/
def skip (what uid parent why : String) : Build → Build :=
  report .debug ("Skipping " ++ what ++ " '" ++ uid ++ "' under '" ++ parent ++ "': " ++ why)

theorem emit_of_declared {d : Declaration} {b : Build} (h : d.name ∈ b.registry.declared) :
    b.emit d = b := by
  simp [emit, Registry.declare, h]

theorem emit_of_new {d : Declaration} {b : Build} (h : d.name ∉ b.registry.declared) :
    b.emit d = report .trace ("Declaring type '" ++ d.name ++ "'")
      { b with
        registry := { b.registry with declared := d.name :: b.registry.declared }
        declarations := b.declarations ++ [d] } := by
  simp [emit, Registry.declare, h]

end Build

/-- The declarations that a reference to distinct targets needs: a placeholder for each, and the union
if there is more than one. -/
def referenceDeclarations (typePrefix : String) (targets : List String) : List Declaration :=
  let names := targets.map (targetName typePrefix)
  names.map placeholder ++
    if 1 < targets.length then [.union (unionName typePrefix targets) names] else []

/-- Takes visits, each under the uid of its field, one after another. -/
def runVisits (visits : List (String × (Build → Build))) (b : Build) : Build :=
  visits.foldl (fun b v => v.2 b) b

mutual
/-- Adds what a field of an object contributes. Declarations follow those of the fields inside; a
shared global field is visited only at its first use. -/
def Field.visit (s : Style) (parent : String) : Field → Build → Build
  | ⟨_, _, _, _, .scalar _⟩ => id
  | ⟨uid, displayName, mandatory, multiple, .file⟩ => fun b =>
    (b.addFile ⟨parent, ⟨uid, displayName, mandatory, multiple, .file⟩⟩).emit
      (assetsDeclaration (assetsName s.typePrefix))
  | ⟨uid, _, _, _, .group schema⟩ =>
    if schema.isEmpty then Build.skip "group" uid parent "empty schema"
    else
      let name := objectName parent uid
      let visits := visitsOf s name schema
      fun b => (runVisits visits b).emit (.object name true (.fields (fieldMap s name schema)))
  | ⟨uid, _, _, _, .globalField definition schema⟩ =>
    if schema.isEmpty then Build.skip "global field" uid parent "empty schema"
    else
      let name := globalName s.options parent uid definition
      let visits := visitsOf s name schema
      fun b =>
        let first := !(s.options.separateGlobals && b.registry.has definition)
        let b := b.use definition parent
        if first then
          (runVisits visits b).emit (.object name true (.fields (fieldMap s name schema)))
        else b
  | ⟨uid, _, _, _, .blocks variants⟩ =>
    if variants.isEmpty then Build.skip "blocks" uid parent "no blocks"
    else
      let name := objectName parent uid
      let visits := firstBy (·.1) (variantVisits s name variants)
      fun b => (runVisits visits b).emit
        (.object name false (.fields (fieldMap s name (mergedSchema variants))))
  | ⟨uid, _, _, _, .reference targets⟩ =>
    if targets.isEmpty then Build.skip "reference" uid parent "no targets"
    else fun b =>
      (b.emitAll (referenceDeclarations s.typePrefix (distinct targets))).addReference ⟨parent, uid⟩
  | ⟨uid, _, _, _, .unknown tag⟩ =>
    Build.report .debug ("Skipping field '" ++ uid ++ "' of unknown type '" ++ tag ++ "'")

def visitsOf (s : Style) (parent : String) : List Field → List (String × (Build → Build))
  | [] => []
  | f :: fs => (f.uid, f.visit s parent) :: visitsOf s parent fs

def variantVisits (s : Style) (parent : String) : List Block → List (String × (Build → Build))
  | [] => []
  | ⟨_, _, schema⟩ :: bs => visitsOf s parent schema ++ variantVisits s parent bs
end

/-- Visits the fields of an object in order. -/
def visitAll (s : Style) (parent : String) (fs : List Field) (b : Build) : Build :=
  fs.foldl (fun b f => f.visit s parent b) b

@[simp] theorem visitAll_nil (s : Style) (parent : String) (b : Build) :
    visitAll s parent [] b = b := rfl

@[simp] theorem visitAll_cons (s : Style) (parent : String) (f : Field) (fs : List Field) (b : Build) :
    visitAll s parent (f :: fs) b = visitAll s parent fs (f.visit s parent b) := rfl

theorem visitAll_append (s : Style) (parent : String) (fs gs : List Field) (b : Build) :
    visitAll s parent (fs ++ gs) b = visitAll s parent gs (visitAll s parent fs b) :=
  List.foldl_append

theorem visitsOf_eq_map (s : Style) (parent : String) (fs : List Field) :
    visitsOf s parent fs = fs.map fun f => (f.uid, f.visit s parent) := by
  induction fs with
  | nil => rfl
  | cons f fs ih => rw [visitsOf, ih, List.map_cons]

theorem runVisits_visitsOf (s : Style) (parent : String) (fs : List Field) (b : Build) :
    runVisits (visitsOf s parent fs) b = visitAll s parent fs b := by
  rw [visitsOf_eq_map, runVisits, List.foldl_map, visitAll]

theorem variantVisits_eq (s : Style) (parent : String) (bs : List Block) :
    variantVisits s parent bs = visitsOf s parent (bs.flatMap Block.schema) := by
  induction bs with
  | nil => rfl
  | cons b bs ih =>
    obtain ⟨uid, title, schema⟩ := b
    rw [variantVisits, ih, List.flatMap_cons]
    simp only [visitsOf_eq_map, List.map_append]

theorem runVisits_variantVisits (s : Style) (parent : String) (bs : List Block) (b : Build) :
    runVisits (firstBy (·.1) (variantVisits s parent bs)) b =
      visitAll s parent (mergedSchema bs) b := by
  rw [variantVisits_eq, visitsOf_eq_map, firstBy_map, ← visitsOf_eq_map, runVisits_visitsOf]
  rfl

namespace Field

variable (s : Style) (parent uid : String) (displayName : Option String) (mandatory multiple : Bool)
  (b : Build)

theorem visit_group {schema : List Field} (h : schema ≠ []) :
    visit s parent ⟨uid, displayName, mandatory, multiple, .group schema⟩ b =
      (visitAll s (objectName parent uid) schema b).emit
        (.object (objectName parent uid) true
          (.fields (fieldMap s (objectName parent uid) schema))) := by
  simp [visit, h, runVisits_visitsOf]

theorem visit_globalField (definition : String) {schema : List Field} (h : schema ≠ []) :
    visit s parent ⟨uid, displayName, mandatory, multiple, .globalField definition schema⟩ b =
      if s.options.separateGlobals && b.registry.has definition then b.use definition parent
      else
        (visitAll s (globalName s.options parent uid definition) schema
          (b.use definition parent)).emit
          (.object (globalName s.options parent uid definition) true
            (.fields (fieldMap s (globalName s.options parent uid definition) schema))) := by
  rw [visit]
  simp only [List.isEmpty_iff, h, if_false, runVisits_visitsOf]
  cases s.options.separateGlobals && b.registry.has definition <;> rfl

theorem visit_blocks {variants : List Block} (h : variants ≠ []) :
    visit s parent ⟨uid, displayName, mandatory, multiple, .blocks variants⟩ b =
      (visitAll s (objectName parent uid) (mergedSchema variants) b).emit
        (.object (objectName parent uid) false
          (.fields (fieldMap s (objectName parent uid) (mergedSchema variants)))) := by
  simp [visit, h, runVisits_variantVisits]

end Field

end ContentSdl
