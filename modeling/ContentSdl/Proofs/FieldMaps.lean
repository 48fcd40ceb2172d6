import ContentSdl.Proofs.InsertionOrder
import ContentSdl.Proofs.OnePass
import ContentSdl.Proofs.WrappedTypes

/-! # The field map of a build is a function of the fields alone -/

namespace ContentSdl

open Json (Value)

namespace Field

/-- Whether a field is left out of the object type: it is of unknown kind, or has nothing inside. -/
def dropped (f : Field) : Bool :=
  match f.kind with
  | .scalar _ | .file => false
  | .group schema | .globalField _ schema => schema.isEmpty
  | .blocks variants => variants.isEmpty
  | .reference targets => targets.isEmpty
  | .unknown _ => true

/-- The accessor of the type of a field: texts, numbers and JSON are looked up by uid. -/
def accessor? (f : Field) : Option Accessor :=
  match f.kind with
  | .scalar .text | .scalar .number | .scalar .json => some ⟨f.uid⟩
  | _ => none

theorem type?_eq_none_iff (s : Style) (parent : String) (f : Field) :
    f.type? s parent = none ↔ f.dropped = true := by
  obtain ⟨uid, displayName, mandatory, multiple, kind⟩ := f
  cases kind with
  | scalar kind => cases kind <;> simp [type?, dropped, ScalarKind.needsAccessor]
  | file | unknown => simp [type?, dropped]
  | group | globalField | blocks | reference => simp [type?, dropped]

theorem uid_of_accessor? {f : Field} {a : Accessor} (h : f.accessor? = some a) : a.uid = f.uid := by
  rw [accessor?] at h
  split at h <;> cases h <;> rfl

theorem accessor?_of_type? {s : Style} {parent : String} {f : Field} {t : FieldType}
    (h : f.type? s parent = some t) : t.accessor? = f.accessor? := by
  obtain ⟨uid, displayName, mandatory, multiple, kind⟩ := f
  cases kind with
  | scalar kind =>
    cases kind with
    | text | number | json | isoDate | boolean | link => cases h; rfl
  | file => cases h; rfl
  | unknown => cases h
  | group | globalField | blocks | reference =>
    simp only [type?, Option.ite_none_left_eq_some] at h
    obtain ⟨-, h⟩ := h
    cases h
    rfl

/-- What an object type says of one of its fields. -/
structure Typed (s : Style) (parent : String) (f : Field) (t : FieldType) : Prop where
  type : ∃ n, f.typeName? s parent = some n ∧
    t.type = (if f.isList then "[" ++ n ++ "]" else n) ++
      if f.isRequired && !s.options.disableMandatory then "!" else ""
  accessor : t.accessor? = f.accessor?

theorem typed_of_type? {s : Style} {parent : String} {f : Field} {t : FieldType}
    (h : f.type? s parent = some t) : f.Typed s parent t := by
  have wrapped := f.map_type_type? s parent
  rw [h, Option.map_some] at wrapped
  obtain ⟨n, hn, type⟩ := Option.map_eq_some_iff.mp wrapped.symm
  refine ⟨⟨n, hn, type.symm.trans ?_⟩, accessor?_of_type? h⟩
  rw [Options.wrap]
  cases f.isRequired && !s.options.disableMandatory <;> simp

end Field

theorem map_fst_fieldEntries (s : Style) (parent : String) (fs : List Field) :
    (fieldEntries s parent fs).map (·.1) = (fs.filter fun f => !f.dropped).map Field.uid := by
  induction fs with
  | nil => rfl
  | cons f fs ih =>
    have htype := f.type?_eq_none_iff s parent
    rw [fieldEntries, List.filterMap_cons, List.filter_cons]
    cases ht : f.type? s parent with
    | none =>
      rw [ht] at htype
      simpa [fieldEntries, htype.mp rfl] using ih
    | some t =>
      have hkept : f.dropped = false := by simpa [ht] using htype
      simpa [fieldEntries, hkept] using ih

/-- A field that no later one replaces gives its key a type. -/
theorem get?_fieldMap {s : Style} {parent : String} {before after : List Field} {f : Field}
    {t : FieldType} (ht : f.type? s parent = some t)
    (last : ∀ g ∈ after, g.uid = f.uid → g.dropped = true) :
    (fieldMap s parent (before ++ f :: after)).get? f.uid = some t := by
  have entry : fieldEntries s parent (f :: after) = (f.uid, t) :: fieldEntries s parent after := by
    simp [fieldEntries, ht]
  rw [fieldMap, fieldEntries_append, entry]
  apply OrderedMap.get?_ofList_append
  intro e he
  obtain ⟨g, hg, htype⟩ := List.mem_filterMap.mp he
  obtain ⟨u, hu, rfl⟩ := Option.map_eq_some_iff.mp htype
  intro uid
  rw [(g.type?_eq_none_iff s parent).mpr (last g hg uid)] at hu
  cases hu

/-- An accessor finds the member of its uid in every record. -/
structure Accessor.Finds (a : Accessor) (key : String) : Prop where
  member : ∀ ms v, (ms.map (·.1)).Nodup → (key, v) ∈ ms → a.resolve (.object ms) = v
  absent : ∀ ms, key ∉ ms.map (·.1) → a.resolve (.object ms) = .null
  other : ∀ v, (∀ ms, v ≠ .object ms) → a.resolve v = .null

theorem Accessor.finds (a : Accessor) : a.Finds a.uid where
  member ms v nodup h := by
    rw [resolve, Value.member?, lookup_of_mem nodup h, Option.getD_some]
  absent ms h := by
    have absent : ms.lookup a.uid = none := by
      rw [List.lookup_eq_none_iff]
      intro m hm
      have other : a.uid ≠ m.1 := fun e => h (e ▸ List.mem_map_of_mem hm)
      simpa using other
    rw [resolve, Value.member?, absent, Option.getD_none]
  other v h := by
    cases v with
    | object ms => exact absurd rfl (h ms)
    | null | bool | number | string | array => rfl

/-- A map lists the fields that are not dropped by their first occurrences, and types each key as the
last of its fields. -/
structure FieldMap.Tabulates (s : Style) (parent : String) (fs : List Field) (m : FieldMap) :
    Prop where
  keys : m.keys = distinct ((fs.filter fun f => !f.dropped).map Field.uid)
  values : ∀ before f after, fs = before ++ f :: after → f.dropped = false →
    (∀ g ∈ after, g.uid = f.uid → g.dropped = true) →
      ∃ t, m.get? f.uid = some t ∧ f.Typed s parent t
  accessors : ∀ key t a, m.get? key = some t → t.accessor? = some a → a.Finds key

theorem tabulates_fieldMap (s : Style) (parent : String) (fs : List Field) :
    FieldMap.Tabulates s parent fs (fieldMap s parent fs) where
  keys := by
    rw [fieldMap, OrderedMap.keys_ofList, map_fst_fieldEntries]
  values before f after hfs kept last := by
    cases ht : f.type? s parent with
    | none => rw [(f.type?_eq_none_iff s parent).mp ht] at kept; cases kept
    | some t =>
      subst hfs
      exact ⟨t, get?_fieldMap ht last, Field.typed_of_type? ht⟩
  accessors key t a hget ha := by
    obtain ⟨f, -, rfl, ht⟩ := mem_entries_fieldMap (OrderedMap.mem_entries_of_get? hget)
    rw [Field.accessor?_of_type? ht] at ha
    rw [← Field.uid_of_accessor? ha]
    exact a.finds

example :
    let fs : List Field := [.make "a" (.scalar .text), .make "b" .file, .make "a" (.group []),
      .make "a" (.scalar .number)]
    ((Run.mk ⟨"CS", {}⟩ {}).build fs "CS_page").1.fields.entries =
      [("a", .resolved "Int" ⟨"a"⟩), ("b", .named "CS_assets")] := by
  decide

end ContentSdl
