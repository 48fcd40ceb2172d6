import ContentSdl.Proofs.FieldMaps
import ContentSdl.Proofs.ObjectsKept
import ContentSdl.Proofs.Visits

/-! # When every node that is declared has a field

An object type is declared by a visit of its field, with the fields inside, so it has none if all of
them are dropped. -/

namespace ContentSdl

/-- The fields by which an object type is declared, as those of groups, global fields and blocks are. -/
def Declaration.fields? : Declaration → Option FieldMap
  | .object _ _ (.fields m) => some m
  | .object _ _ (.text _) | .union .. => none

namespace Build

theorem mem_declarations_emit (d d' : Declaration) (b : Build) :
    d ∈ (b.emit d').declarations ↔
      d ∈ b.declarations ∨ d'.name ∉ b.registry.declared ∧ d = d' := by
  by_cases h : d'.name ∈ b.registry.declared
  · simp [emit_of_declared h, h]
  · simp [emit_of_new h, h, report]

theorem mem_declarations_emitAll {d : Declaration} {ds : List Declaration} (h : d ∉ ds) (b : Build) :
    d ∈ (b.emitAll ds).declarations ↔ d ∈ b.declarations := by
  induction ds generalizing b with
  | nil => rfl
  | cons d' ds ih =>
    obtain ⟨hne, hds⟩ := not_or.mp (mt List.mem_cons.mpr h)
    rw [emitAll, List.foldl_cons]
    exact (ih hds (b.emit d')).trans (by simp [mem_declarations_emit, hne])

end Build

theorem fields?_of_mem_referenceDeclarations {typePrefix : String} {targets : List String}
    {d : Declaration} (h : d ∈ referenceDeclarations typePrefix targets) : d.fields? = none := by
  rw [referenceDeclarations] at h
  rcases List.mem_append.mp h with h | h
  · obtain ⟨name, -, rfl⟩ := List.mem_map.mp h
    rfl
  · obtain ⟨-, h⟩ := List.mem_ite_nil_right.mp h
    rw [List.mem_singleton.mp h]
    rfl

namespace Field

/-- Whether the object type of a field is a node: that of blocks is none. -/
def isNode (f : Field) : Bool :=
  match f.kind with
  | .blocks _ => false
  | _ => true

def ownType (s : Style) (name : String) (f : Field) : Declaration :=
  .object name f.isNode (.fields (fieldMap s name f.inner))

section

variable {s : Style} {parent : String} {f : Field} {b : Build}

/-- A field that is walked declares its object type after those of the fields inside. -/
theorem visit_of_below {name : String} {b' : Build} (h : f.below? s parent b = some (name, b')) :
    f.visit s parent b = (visitAll s name f.inner b').emit (f.ownType s name) ∧
      b'.declarations = b.declarations := by
  obtain ⟨uid, displayName, mandatory, multiple, kind⟩ := f
  cases kind with
  | scalar | file | reference | unknown => cases h
  | group schema =>
    obtain ⟨hne, ⟨⟩⟩ := Option.ite_none_left_eq_some.mp h
    exact ⟨visit_group s parent uid displayName mandatory multiple b hne, rfl⟩
  | globalField definition schema =>
    obtain ⟨hnot, ⟨⟩⟩ := Option.ite_none_left_eq_some.mp h
    obtain ⟨hne, new⟩ := not_or.mp hnot
    rw [visit_globalField s parent uid displayName mandatory multiple b definition hne, if_neg new]
    exact ⟨rfl, rfl⟩
  | blocks variants =>
    obtain ⟨hne, ⟨⟩⟩ := Option.ite_none_left_eq_some.mp h
    exact ⟨visit_blocks s parent uid displayName mandatory multiple b hne, rfl⟩

theorem mem_declarations_of_not_below (h : f.below? s parent b = none) {d : Declaration}
    (hd : d.fields? ≠ none) : d ∈ (f.visit s parent b).declarations ↔ d ∈ b.declarations := by
  obtain ⟨uid, displayName, mandatory, multiple, kind⟩ := f
  cases kind with
  | scalar | unknown => rw [visit]; rfl
  | file =>
    have hne : d ≠ assetsDeclaration (assetsName s.typePrefix) := fun e => hd (by rw [e]; rfl)
    rw [visit, Build.mem_declarations_emit]
    simp [hne, Build.addFile]
  | group schema =>
    have empty : schema = [] := by simpa [below?] using h
    subst empty
    rw [visit]
    rfl
  | globalField definition schema =>
    by_cases empty : schema = []
    · subst empty
      rw [visit]
      rfl
    · have known : (s.options.separateGlobals && b.registry.has definition) = true := by
        simpa [below?, empty] using h
      rw [visit_globalField s parent uid displayName mandatory multiple b definition empty, if_pos known]
      rfl
  | blocks variants =>
    have empty : variants = [] := by simpa [below?] using h
    subst empty
    rw [visit]
    rfl
  | reference targets =>
    rw [visit]
    split
    · rfl
    · exact Build.mem_declarations_emitAll (fun hm => hd (fields?_of_mem_referenceDeclarations hm)) b

end

end Field

/-- The object type that a visit declares, unless its name is taken when the fields inside are done. -/
def Visit.declaration? (s : Style) (v : Visit) : Option Declaration :=
  match v.field.below? s v.parent v.before with
  | none => none
  | some (name, b) =>
    if name ∈ (visitAll s name v.field.inner b).registry.declared then none
    else some (v.field.ownType s name)

theorem Visit.exists_ownType {s : Style} (v : Visit) {d : Declaration}
    (h : v.declaration? s = some d) : ∃ name, d = v.field.ownType s name := by
  rw [declaration?] at h
  cases below : v.field.below? s v.parent v.before with
  | none => simp [below] at h
  | some b =>
    rw [below] at h
    obtain ⟨-, h⟩ := Option.ite_none_left_eq_some.mp h
    exact ⟨b.1, (Option.some.inj h).symm⟩

section

variable {s : Style} {d : Declaration}

private theorem mem_declarations_visitAll_of_each {parent : String} {fs : List Field}
    (each : ∀ f ∈ fs, ∀ b : Build, d ∈ (f.visit s parent b).declarations ↔
      d ∈ b.declarations ∨ ∃ v ∈ f.trace s parent b, v.declaration? s = some d) (b : Build) :
    d ∈ (visitAll s parent fs b).declarations ↔
      d ∈ b.declarations ∨ ∃ v ∈ traceOf s parent fs b, v.declaration? s = some d := by
  induction fs generalizing b with
  | nil => simp
  | cons f fs ih =>
    obtain ⟨hf, hfs⟩ := List.forall_mem_cons.mp each
    rw [visitAll_cons, ih hfs, hf, traceOf_cons]
    simp only [List.mem_append, or_and_right, exists_or, or_assoc]

theorem mem_declarations_visit (hd : d.fields? ≠ none) (f : Field) (parent : String) (b : Build) :
    d ∈ (f.visit s parent b).declarations ↔
      d ∈ b.declarations ∨ ∃ v ∈ f.trace s parent b, v.declaration? s = some d := by
  induction f using Field.tree_induction generalizing parent b with
  | step f ih =>
    rw [Field.trace, List.exists_mem_cons_iff]
    cases h : f.below? s parent b with
    | none =>
      rw [Field.mem_declarations_of_not_below h hd]
      simp [Visit.declaration?, h]
    | some below =>
      obtain ⟨name, b'⟩ := below
      obtain ⟨visit, same⟩ := Field.visit_of_below h
      -- The own name is tested last: a field inside may have taken it.
      have inside := mem_declarations_visitAll_of_each
        (fun g hg b => ih g (f.inner_subset_children hg) name b) b'
      have own : Visit.declaration? s ⟨parent, f, b⟩ = some d ↔
          (f.ownType s name).name ∉ (visitAll s name f.inner b').registry.declared ∧
            d = f.ownType s name := by
        simp only [Visit.declaration?, h, Option.ite_none_left_eq_some, Option.some_inj]
        exact and_congr_right fun _ => eq_comm
      rw [visit, Build.mem_declarations_emit, inside, same, own, or_assoc, or_comm (b := _ ∧ _)]

end

/-- What a build declares by fields is the object type of a visit. -/
theorem mem_declarations_build (run : Run) (fs : List Field) (parent name : String) (node : Bool)
    (m : FieldMap) : .object name node (.fields m) ∈ (run.build fs parent).1.declarations ↔
      ∃ v ∈ traceOf run.style parent fs { registry := run.registry },
        v.declaration? run.style = some (.object name node (.fields m)) := by
  have byFields : (Declaration.object name node (.fields m)).fields? ≠ none := Option.some_ne_none m
  have walked := mem_declarations_visitAll_of_each (s := run.style)
    (fun f (_ : f ∈ fs) b => mem_declarations_visit byFields f parent b) { registry := run.registry }
  exact walked.trans (or_iff_right List.not_mem_nil)

theorem entries_fieldMap_ne_nil_iff (s : Style) (parent : String) (fs : List Field) :
    (fieldMap s parent fs).entries ≠ [] ↔ ∃ f ∈ fs, f.dropped = false := by
  have keys : (fieldMap s parent fs).entries.map (·.1) = _ := (tabulates_fieldMap s parent fs).keys
  rw [ne_eq, ← List.map_eq_nil_iff (f := (·.1)), keys, List.eq_nil_iff_forall_not_mem]
  simp [mem_distinct]

def emptyNodeText (name : String) : String := renderObject name " implements Node @infer" ""

theorem Emission.render_eq_emptyNodeText_iff (s : Style) (e : Emission) :
    (e.declaration s).render = emptyNodeText (e.declaration s).name ↔
      ∃ m, e.declaration s = .object (e.declaration s).name true (.fields m) ∧ m.entries = [] := by
  have empty (name : String) : emptyNodeText name = (Declaration.object name true (.text "")).render :=
    rfl
  cases e with
  | assets =>
    rw [empty, declaration, assetsDeclaration, Declaration.name, Declaration.render_object_eq_iff]
    simp [Body.render]
  | placeholder target =>
    rw [empty, declaration, ContentSdl.placeholder, Declaration.name, Declaration.render_object_eq_iff]
    simp [Body.render, placeholderField]
  | union targets =>
    rw [empty, declaration]
    simp [Declaration.render_union_ne]
  | object name node schema =>
    rw [empty, declaration, Declaration.name, Declaration.render_object_eq_iff]
    simp [Body.render, fieldMapBody_eq_empty_iff]

/-- Every node that is declared by fields has one. -/
def NodesHaveFields (ds : List Declaration) : Prop :=
  ∀ name m, .object name true (.fields m) ∈ ds → m.entries ≠ []

theorem nodesHaveFields_iff_render (run : Run) (fs : List Field) (parent : String) :
    NodesHaveFields (run.build fs parent).1.declarations ↔
      ∀ d ∈ (run.build fs parent).1.declarations, d.render ≠ emptyNodeText d.name := by
  rw [run.declarations_build]
  constructor
  · intro h d hd text
    obtain ⟨e, -, rfl⟩ := List.mem_map.mp hd
    obtain ⟨m, same, empty⟩ := (e.render_eq_emptyNodeText_iff run.style).mp text
    exact h _ m (same ▸ hd) empty
  · intro h name m hd empty
    obtain ⟨e, -, he⟩ := List.mem_map.mp hd
    apply h _ hd
    have text := e.render_eq_emptyNodeText_iff run.style
    rw [he] at text
    exact text.mpr ⟨m, rfl, empty⟩

/-- A build declares a node without fields, and writes it with an empty body, just if one of the groups
and global fields whose type it declares holds none but dropped fields. -/
theorem nodesHaveFields_iff (run : Run) (fs : List Field) (parent : String) :
    let built := (run.build fs parent).1
    let visits := traceOf run.style parent fs { registry := run.registry }
    (NodesHaveFields built.declarations ↔
      ∀ v ∈ visits, v.field.isNode = true → (v.declaration? run.style).isSome = true →
        ∃ f ∈ v.field.inner, f.dropped = false) ∧
      (NodesHaveFields built.declarations ↔
        ∀ d ∈ built.declarations, d.render ≠ emptyNodeText d.name) := by
  intro built visits
  refine ⟨?_, nodesHaveFields_iff_render run fs parent⟩
  constructor
  · intro h v hv node declares
    obtain ⟨d, hd⟩ := Option.isSome_iff_exists.mp declares
    obtain ⟨name, rfl⟩ := v.exists_ownType hd
    rw [← entries_fieldMap_ne_nil_iff run.style name]
    apply h name
    rw [← node]
    exact (mem_declarations_build run fs parent ..).mpr ⟨v, hv, hd⟩
  · intro h name m hm
    obtain ⟨v, hv, hd⟩ := (mem_declarations_build run fs parent ..).mp hm
    obtain ⟨name', own⟩ := v.exists_ownType hd
    rw [Field.ownType, Declaration.object.injEq, Body.fields.injEq] at own
    obtain ⟨-, node, rfl⟩ := own
    rw [entries_fieldMap_ne_nil_iff]
    exact h v hv node.symm (Option.isSome_of_mem hd)

/-- A group that holds only a field of unknown kind is valid and becomes a node without fields. -/
theorem not_nodesHaveFields_unknown :
    let fs : List Field := [.make "card" (.group [.make "tags" (.unknown "taxonomy")])]
    let built := ((Run.mk ⟨"CS", {}⟩ {}).build fs "CS_page").1
    validateFields fs = .ok () ∧
      built.types = ["type CS_page_card implements Node @infer \x7b  \x7d"] ∧
      ¬NodesHaveFields built.declarations := by
  refine ⟨by decide, by decide, fun h => ?_⟩
  exact h "CS_page_card" ⟨[], by decide⟩ (by decide) rfl

end ContentSdl
