import ContentSdl.Proofs.FieldTree

/-! # The types that the entries of a field map wrap -/

namespace ContentSdl

namespace Field

/-- The fields of the object type that a field stands for. -/
def inner (f : Field) : List Field :=
  match f.kind with
  | .group schema => schema
  | .globalField _ schema => schema
  | .blocks variants => mergedSchema variants
  | .scalar _ | .file | .reference _ | .unknown _ => []

theorem inner_subset_children (f : Field) : f.inner ⊆ f.children := by
  obtain ⟨uid, displayName, mandatory, multiple, kind⟩ := f
  cases kind with
  | blocks variants => exact mergedSchema_subset variants
  | scalar | file | group | globalField | reference | unknown => exact fun _ h => h

/-- The name of the type of a field, without the marks of lists and of non-null types. -/
def typeName? (s : Style) (parent : String) (f : Field) : Option String :=
  match f.kind with
  | .scalar kind => some kind.outputType
  | .file => some (assetsName s.typePrefix)
  | .group schema => if schema = [] then none else some (objectName parent f.uid)
  | .globalField definition schema =>
    if schema = [] then none else some (globalName s.options parent f.uid definition)
  | .blocks variants => if variants = [] then none else some (objectName parent f.uid)
  | .reference targets =>
    if targets = [] then none else some (referenceName s.typePrefix (distinct targets))
  | .unknown _ => none

/-- Whether the type of a field is a list: always for references. -/
def isList (f : Field) : Bool :=
  match f.kind with
  | .reference _ => true
  | _ => f.multiple

/-- Whether the type of a field is to be non-null: always for references. -/
def isRequired (f : Field) : Bool :=
  match f.kind with
  | .reference _ => true
  | _ => f.mandatory

/-- The type of a field is the name of its type, marked as the field asks. -/
theorem map_type_type? (s : Style) (parent : String) (f : Field) :
    (f.type? s parent).map FieldType.type =
      (f.typeName? s parent).map fun n => s.options.wrap n f.isList f.isRequired := by
  obtain ⟨uid, displayName, mandatory, multiple, kind⟩ := f
  cases kind with
  | scalar kind =>
    simp only [type?, typeName?, Option.map_some, isList, isRequired]
    split <;> rfl
  | file | unknown => rfl
  | group | globalField | blocks | reference =>
    simp only [type?, typeName?, List.isEmpty_iff, apply_ite (Option.map _), Option.map_none,
      Option.map_some, FieldType.type, isList, isRequired]

end Field

/-- An entry of a field map comes from a field with its uid. -/
theorem mem_entries_fieldMap {s : Style} {parent : String} {fs : List Field}
    {e : String × FieldType} (h : e ∈ (fieldMap s parent fs).entries) :
    ∃ f ∈ fs, f.uid = e.1 ∧ f.type? s parent = some e.2 := by
  obtain ⟨f, hf, he⟩ := List.mem_filterMap.mp (OrderedMap.mem_ofList h)
  obtain ⟨t, ht, rfl⟩ := Option.map_eq_some_iff.mp he
  exact ⟨f, hf, rfl, ht⟩

/-- Every entry of a field map wraps a type with a property: that of a field with its uid. -/
def WrapsOnly (s : Style) (parent : String) (fs : List Field) (p : String → Prop) (m : FieldMap) :
    Prop :=
  ∀ e ∈ m.entries, ∃ f ∈ fs, ∃ n, f.uid = e.1 ∧ f.typeName? s parent = some n ∧
    e.2.type = s.options.wrap n f.isList f.isRequired ∧ p n

theorem wrapsOnly_fieldMap {s : Style} {parent : String} {fs : List Field} {p : String → Prop}
    (h : ∀ f ∈ fs, ∀ n, f.typeName? s parent = some n → p n) :
    WrapsOnly s parent fs p (fieldMap s parent fs) := by
  intro e he
  obtain ⟨f, hf, uid, ht⟩ := mem_entries_fieldMap he
  have wrapped := f.map_type_type? s parent
  rw [ht, Option.map_some] at wrapped
  obtain ⟨n, hn, type⟩ := Option.map_eq_some_iff.mp wrapped.symm
  exact ⟨f, hf, n, uid, hn, type.symm, h f hf n hn⟩

end ContentSdl
