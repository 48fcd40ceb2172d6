import ContentSdl.Config
import ContentSdl.Host.Definition
import ContentSdl.Host.Source
import ContentSdl.Run
import ContentSdl.Validation

/-! # Registering the types of all content types -/

namespace ContentSdl

/-- What a registration covers, for the passes that resolve links and assets. -/
structure Report where
  contentTypes : Nat := 0
  skipped : List String := []
  references : List Reference := []
  files : List FileField := []
  globals : List (String × List String) := []
  deriving DecidableEq, Inhabited

/-- What the content types built so far come to. -/
structure Plan where
  run : Run
  declarations : List Declaration := [linkDeclaration]
  objects : List ObjectType := []
  report : Report := {}
  log : List LogEvent := []

namespace Plan

/-- Builds a content type, unless its schema is invalid. -/
def add (p : Plan) (c : ContentType) : Plan :=
  match c.validate with
  | .error e =>
    { p with
      report := { p.report with skipped := p.report.skipped ++ [c.uid] }
      log := p.log ++
        [⟨.warn, "Skipping content type '" ++ c.uid ++ "': " ++ e.message⟩] }
  | .ok () =>
    let name := c.typeName p.run.style.typePrefix
    let (built, run) := p.run.build c.schema name
    { run := run
      declarations := p.declarations ++ built.declarations
      objects := p.objects ++ [.node name (withSystemFields built.fields)]
      report := { p.report with
        contentTypes := p.report.contentTypes + 1
        references := p.report.references ++ built.references
        files := p.report.files ++ built.files }
      log := p.log ++ built.log }

def ofContentTypes (s : Style) (cs : List ContentType) : Plan :=
  cs.foldl add { run := { style := s } }

end Plan

/-- The text of the placeholder that may stand for an object type. -/
def placeholderText (o : ObjectType) : String := (placeholder o.name).render

/-- The object type that takes in its placeholder: more fields may be inferred, and there is a title. -/
def ObjectType.takeIn (o : ObjectType) : ObjectType :=
  { o with
    infer := true
    fields := o.fields.insertIfNew placeholderField.1 (.named placeholderField.2) }

/-- Takes the first placeholder of an object type out of the declarations, if there is one. -/
def foldPlaceholder (ds : List Declaration) (o : ObjectType) : List Declaration × ObjectType :=
  if ds.any (·.render = placeholderText o) then
    (ds.eraseP (·.render = placeholderText o), o.takeIn)
  else (ds, o)

def foldPlaceholders (ds : List Declaration) : List ObjectType → List Declaration × List ObjectType
  | [] => (ds, [])
  | o :: os =>
    let (ds, o) := foldPlaceholder ds o
    let (ds, os) := foldPlaceholders ds os
    (ds, o :: os)

namespace Plan

/-- Moves placeholders into the object types of the same run. -/
def fold (p : Plan) : Plan :=
  let (declarations, objects) := foldPlaceholders p.declarations p.objects
  { p with
    declarations := declarations
    objects := objects
    log := p.log ++ (objects.filter (·.infer)).map fun o =>
      ⟨.debug, "Merging reference placeholder into '" ++ o.name ++ "'"⟩ }

/-- The declarations, then the object types of the content types. -/
def definitions (p : Plan) : List TypeDefinition :=
  p.declarations.map (.sdl ·.render) ++ p.objects.map .object

end Plan

/-- How a registration ends, what it hands over, and what it reports on the way. -/
structure Outcome where
  result : Except HostError Report
  definitions? : Option (List TypeDefinition)
  log : List LogEvent

/-- Does nothing unless it is enabled, not even ask the source; else hands over all definitions at
once, unless the source fails. -/
def customize (config : Config) (source : Source) : Outcome :=
  if !config.enabled then ⟨.ok {}, none, [⟨.info, "Schema generation disabled"⟩]⟩
  else match source.fetch with
    | .error e => ⟨.error e, none, []⟩
    | .ok cs =>
      let p := (Plan.ofContentTypes config.style cs).fold
      { result := .ok { p.report with globals := p.run.registry.globals.entries }
        definitions? := some p.definitions
        log := ⟨.info, "Generating types for " ++ toString cs.length ++ " content types"⟩ :: p.log ++
          [⟨.debug, "Registering " ++ toString p.definitions.length ++ " type definitions"⟩] }

namespace SchemaDocument

def apply (d : SchemaDocument) (o : Outcome) : SchemaDocument :=
  match o.definitions? with
  | some ts => d.create ts
  | none => d

end SchemaDocument

end ContentSdl
