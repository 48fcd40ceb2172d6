import ContentSdl.Proofs.Events

/-! # A walk in one pass, which makes the map of an object's fields while it visits them -/

namespace ContentSdl

mutual
/-- Visits a field and tells its type. The type of an object is declared with the map that the walk of
its fields returns, and a shared definition that is known is not walked. -/
def Field.pass (s : Style) (parent : String) : Field → Build → Option FieldType × Build
  | ⟨uid, _, mandatory, multiple, .scalar kind⟩, b =>
    let type := s.options.wrap kind.outputType multiple mandatory
    (some (if kind.needsAccessor then .resolved type ⟨uid⟩ else .named type), b)
  | ⟨uid, displayName, mandatory, multiple, .file⟩, b =>
    let name := assetsName s.typePrefix
    let b := b.addFile ⟨parent, ⟨uid, displayName, mandatory, multiple, .file⟩⟩
    (some (.named (s.options.wrap name multiple mandatory)), b.emit (assetsDeclaration name))
  | ⟨uid, _, mandatory, multiple, .group schema⟩, b =>
    if schema = [] then (none, Build.skip "group" uid parent "empty schema" b)
    else
      let name := objectName parent uid
      let (nested, b) := passAll s name schema .empty b
      (some (.named (s.options.wrap name multiple mandatory)),
        b.emit (.object name true (.fields nested)))
  | ⟨uid, _, mandatory, multiple, .globalField definition schema⟩, b =>
    if schema = [] then (none, Build.skip "global field" uid parent "empty schema" b)
    else
      let name := globalName s.options parent uid definition
      let type := FieldType.named (s.options.wrap name multiple mandatory)
      if s.options.separateGlobals && b.registry.has definition then
        (some type, b.use definition parent)
      else
        let (nested, b) := passAll s name schema .empty (b.use definition parent)
        (some type, b.emit (.object name true (.fields nested)))
  | ⟨uid, _, mandatory, multiple, .blocks variants⟩, b =>
    if variants = [] then (none, Build.skip "blocks" uid parent "no blocks" b)
    else
      let name := objectName parent uid
      let (nested, b) := passAll s name (mergedSchema variants) .empty b
      (some (.named (s.options.wrap name multiple mandatory)),
        b.emit (.object name false (.fields nested)))
  | ⟨uid, _, _, _, .reference targets⟩, b =>
    if targets = [] then (none, Build.skip "reference" uid parent "no targets" b)
    else
      let targets := distinct targets
      (some (.named (s.options.wrap (referenceName s.typePrefix targets) true true)),
        (b.emitAll (referenceDeclarations s.typePrefix targets)).addReference ⟨parent, uid⟩)
  | ⟨uid, _, _, _, .unknown tag⟩, b =>
    (none, b.report .debug ("Skipping field '" ++ uid ++ "' of unknown type '" ++ tag ++ "'"))
termination_by f => sizeOf f
decreasing_by
  · simp; omega
  · simp; omega
  · have := sizeOf_mergedSchema_le variants
    simp only [Field.mk.sizeOf_spec, FieldKind.blocks.sizeOf_spec]
    omega

/-- Visits fields in order, and adds those that have a type to a map. -/
def passAll (s : Style) (parent : String) : List Field → FieldMap → Build → FieldMap × Build
  | [], m, b => (m, b)
  | f :: fs, m, b =>
    match f.pass s parent b with
    | (some type, b) => passAll s parent fs (m.insert f.uid type) b
    | (none, b) => passAll s parent fs m b
termination_by fs => sizeOf fs
end

end ContentSdl
