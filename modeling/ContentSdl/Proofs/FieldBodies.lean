import ContentSdl.Proofs.WrappedTypes

/-! # What the body of a declaration tells of its fields

Keys and types are written as they are, with a colon in every entry and commas between entries. -/

namespace ContentSdl

theorem exists_rest_of_cons {m : FieldMap} {e : String × FieldType}
    {es : List (String × FieldType)} (h : m.entries = e :: es) :
    ∃ rest : List Char, rest.head? ≠ some ' ' ∧
      (fieldMapBody m).toList = e.1.toList ++ ':' :: (e.2.type.toList ++ rest) := by
  rw [fieldMapBody, h]
  cases es with
  | nil => exact ⟨[], nofun, by simp⟩
  | cons e' es =>
    refine ⟨',' :: (String.intercalate "," ((e' :: es).map fun e => e.1 ++ ":" ++ e.2.type)).toList,
      by simp, ?_⟩
    rw [List.map_cons, List.map_cons, String.intercalate_cons_cons]
    simp only [String.toList_append, List.append_assoc]
    rfl

theorem fieldMapBody_eq_empty_iff (m : FieldMap) : fieldMapBody m = "" ↔ m.entries = [] := by
  constructor
  · intro h
    cases hm : m.entries with
    | nil => rfl
    | cons e es =>
      obtain ⟨rest, -, chars⟩ := exists_rest_of_cons hm
      rw [h] at chars
      simp at chars
  · intro h
    simp [fieldMapBody, h]

/-- A text that holds neither of the delimiters of bodies. -/
def Undelimited (text : String) : Prop := ',' ∉ text.toList ∧ ':' ∉ text.toList

instance : DecidablePred Undelimited := fun _ => inferInstanceAs (Decidable (_ ∧ _))

@[simp] theorem undelimited_append (a b : String) :
    Undelimited (a ++ b) ↔ Undelimited a ∧ Undelimited b := by
  simp only [Undelimited, String.toList_append, List.mem_append, not_or]
  exact and_and_and_comm

theorem Undelimited.join {texts : List String} (h : ∀ t ∈ texts, Undelimited t) :
    Undelimited (String.join texts) := by
  simp only [Undelimited, String.toList_join, List.mem_flatMap, not_exists, not_and]
  exact ⟨fun t ht => (h t ht).1, fun t ht => (h t ht).2⟩

theorem undelimited_underscore : Undelimited "_" := by decide

/-- The texts between the occurrences of a delimiter, and before and after all of them. -/
def pieces (delimiter : Char) (text : String) : List String :=
  (text.split delimiter).toList.map String.Slice.copy

theorem pieces_intercalate {delimiter : Char} {texts : List String}
    (h : ∀ t ∈ texts, delimiter ∉ t.toList) (hne : texts ≠ []) :
    pieces delimiter (String.intercalate (String.singleton delimiter) texts) = texts := by
  rw [pieces, String.toList_split_intercalate h, if_neg hne]

/-- The parts of a body between its commas, each cut at its colons. -/
def bodyParts (body : String) : List (List String) := (pieces ',' body).map (pieces ':')

theorem pieces_entry {key type : String} (hkey : Undelimited key) (htype : Undelimited type) :
    pieces ':' (key ++ ":" ++ type) = [key, type] := by
  have joined : key ++ ":" ++ type = String.intercalate (String.singleton ':') [key, type] := by
    rw [String.intercalate_cons_cons, String.intercalate_singleton]
    rfl
  rw [joined]
  apply pieces_intercalate
  · simp [hkey.2, htype.2]
  · exact List.cons_ne_nil _ _

theorem comma_notMem_entry {key type : String} (hkey : Undelimited key) (htype : Undelimited type) :
    ',' ∉ (key ++ ":" ++ type).toList := by
  simp [hkey.1, htype.1]

namespace FieldMap

/-- The keys with the names of their types: all of a map but the accessors. -/
def keyTypes (m : FieldMap) : List (String × String) := m.entries.map fun e => (e.1, e.2.type)

/-- No key and no type holds a delimiter. -/
def Undelimited (m : FieldMap) : Prop :=
  ∀ e ∈ m.keyTypes, ContentSdl.Undelimited e.1 ∧ ContentSdl.Undelimited e.2

instance (m : FieldMap) : Decidable m.Undelimited := inferInstanceAs (Decidable (∀ e ∈ _, _ ∧ _))

theorem fieldMapBody_eq (m : FieldMap) :
    fieldMapBody m = String.intercalate "," (m.keyTypes.map fun e => e.1 ++ ":" ++ e.2) := by
  rw [fieldMapBody, keyTypes, List.map_map]
  rfl

theorem keyTypes_eq_nil_iff (m : FieldMap) : m.keyTypes = [] ↔ m.entries = [] :=
  List.map_eq_nil_iff

/-- A body that is cut at its delimiters falls into the keys and types. -/
theorem Undelimited.bodyParts {m : FieldMap} (h : m.Undelimited) (hne : m.entries ≠ []) :
    bodyParts (fieldMapBody m) = m.keyTypes.map fun e => [e.1, e.2] := by
  have entries : pieces ',' (fieldMapBody m) = m.keyTypes.map fun e => e.1 ++ ":" ++ e.2 := by
    rw [fieldMapBody_eq]
    apply pieces_intercalate
    · intro text htext
      obtain ⟨e, he, rfl⟩ := List.mem_map.mp htext
      exact comma_notMem_entry (h e he).1 (h e he).2
    · simpa [keyTypes_eq_nil_iff] using hne
  rw [ContentSdl.bodyParts, entries, List.map_map]
  exact List.map_congr_left fun e he => pieces_entry (h e he).1 (h e he).2

theorem Undelimited.keyTypes_eq_of_body {m m' : FieldMap} (h : m.Undelimited) (h' : m'.Undelimited)
    (heq : fieldMapBody m = fieldMapBody m') : m.keyTypes = m'.keyTypes := by
  have empty : m.entries = [] ↔ m'.entries = [] := by
    rw [← fieldMapBody_eq_empty_iff, heq, fieldMapBody_eq_empty_iff]
  -- The empty body has one empty part and not none, so cutting it does not give the empty map.
  by_cases hm : m.entries = []
  · rw [(keyTypes_eq_nil_iff m).mpr hm, (keyTypes_eq_nil_iff m').mpr (empty.mp hm)]
  · have hm' : m'.entries ≠ [] := mt empty.mpr hm
    have parts := h.bodyParts hm
    rw [heq, h'.bodyParts hm'] at parts
    exact ((List.map_inj_right fun e e' he => by simpa [Prod.ext_iff] using he).mp parts).symm

end FieldMap

theorem Undelimited.wrap {n : String} (h : Undelimited n) (o : Options) (list required : Bool) :
    Undelimited (o.wrap n list required) := by
  have marks : Undelimited "[" ∧ Undelimited "]" ∧ Undelimited "!" := by decide
  rw [Options.wrap]
  split <;> split <;> simp [h, marks]

theorem undelimited_referenceName {typePrefix : String} {targets : List String}
    (hstart : Undelimited typePrefix) (h : ∀ t ∈ targets, Undelimited t) :
    Undelimited (referenceName typePrefix targets) := by
  have target : ∀ t ∈ targets, Undelimited (targetName typePrefix t) :=
    fun t ht => by simp [targetName, hstart, undelimited_underscore, h t ht]
  have union : Undelimited (unionName typePrefix targets) := by
    rw [unionName, undelimited_append]
    exact ⟨.join (List.forall_mem_map.mpr target), by decide⟩
  match targets with
  | [t] => exact target t List.mem_cons_self
  | [] | _ :: _ :: _ => exact union

namespace Field

/-- The texts that the key and the type of a field take from it. -/
def ownNames (f : Field) : List String :=
  f.uid :: match f.kind with
    | .globalField definition _ => [definition]
    | .reference targets => targets
    | .scalar _ | .file | .group _ | .blocks _ | .unknown _ => []

variable {s : Style} {parent : String}

theorem undelimited_typeName {f : Field} {n : String} (hstart : Undelimited s.typePrefix)
    (hparent : Undelimited parent) (h : ∀ t ∈ f.ownNames, Undelimited t)
    (hn : f.typeName? s parent = some n) : Undelimited n := by
  obtain ⟨uid, displayName, mandatory, multiple, kind⟩ := f
  obtain ⟨huid, hkind⟩ := List.forall_mem_cons.mp h
  have object : Undelimited (objectName parent uid) := by
    simpa [objectName, hparent, undelimited_underscore] using huid
  cases kind with
  | scalar kind =>
    obtain rfl := Option.some.inj hn
    cases kind <;> decide
  | file =>
    obtain rfl := Option.some.inj hn
    rw [assetsName, undelimited_append]
    exact ⟨hstart, by decide⟩
  | group schema =>
    obtain ⟨-, ⟨⟩⟩ := Option.ite_none_left_eq_some.mp hn
    exact object
  | globalField definition schema =>
    obtain ⟨-, ⟨⟩⟩ := Option.ite_none_left_eq_some.mp hn
    rw [globalName]
    split
    · exact hkind definition List.mem_cons_self
    · exact object
  | blocks variants =>
    obtain ⟨-, ⟨⟩⟩ := Option.ite_none_left_eq_some.mp hn
    exact object
  | reference targets =>
    obtain ⟨-, ⟨⟩⟩ := Option.ite_none_left_eq_some.mp hn
    exact undelimited_referenceName hstart fun t ht => hkind t ((mem_distinct targets t).mp ht)
  | unknown tag => cases hn

end Field

/-- Types are named after the prefix, the parent, uids, definitions and targets, so what is built of
names without delimiters has none. -/
theorem undelimited_fieldMap {s : Style} {parent : String} {fs : List Field}
    (hstart : Undelimited s.typePrefix) (hparent : Undelimited parent)
    (h : ∀ f ∈ fs, ∀ t ∈ f.ownNames, Undelimited t) : (fieldMap s parent fs).Undelimited := by
  intro e he
  obtain ⟨e, hentry, rfl⟩ := List.mem_map.mp he
  obtain ⟨f, hf, n, uid, -, type, name⟩ := wrapsOnly_fieldMap
    (fun f hf n hn => Field.undelimited_typeName hstart hparent (h f hf) hn) e hentry
  dsimp only
  rw [← uid, type]
  exact ⟨h f hf f.uid List.mem_cons_self, name.wrap ..⟩

/-- Where keys and types hold no delimiters, bodies are the same just if keys and types are the same in
the same order, and all of them are found by cutting the body, unless there are none. No body is empty
but that of the empty map. -/
theorem fieldMapBody_unambiguous :
    (∀ m m' : FieldMap, m.Undelimited → m'.Undelimited →
      (fieldMapBody m = fieldMapBody m' ↔ m.keyTypes = m'.keyTypes)) ∧
    (∀ m : FieldMap, m.Undelimited → m ≠ .empty →
      bodyParts (fieldMapBody m) = m.keyTypes.map fun e => [e.1, e.2]) ∧
    ∀ m : FieldMap, fieldMapBody m = "" ↔ m = .empty := by
  have empty (m : FieldMap) : m = .empty ↔ m.entries = [] := OrderedMap.ext_iff
  refine ⟨fun m m' h h' => ⟨h.keyTypes_eq_of_body h', fun heq => ?_⟩, fun m h hne => ?_, fun m => ?_⟩
  · rw [m.fieldMapBody_eq, m'.fieldMapBody_eq, heq]
  · exact h.bodyParts (mt (empty m).mpr hne)
  · rw [fieldMapBody_eq_empty_iff, empty]

/-- The fields of a page, one with an accessor, one of a list type and one without a uid, beside a map
that is the same but for the accessors. -/
theorem fieldMapBody_unambiguous_page :
    let fs : List Field := [⟨"title", none, true, false, .scalar .text⟩,
      .make "read also" (.reference ["post", "person"]), .make "" (.scalar .isoDate)]
    let m := fieldMap ⟨"CS", {}⟩ "CS_page" fs
    let m' : FieldMap := .ofList [("title", .named "String!"),
      ("read also", .named "[CS_postCS_person_Union]!"), ("", .named "Date")]
    m.Undelimited ∧ m'.Undelimited ∧ m ≠ m' ∧ fieldMapBody m = fieldMapBody m' ∧
      bodyParts (fieldMapBody m) =
        [["title", "String!"], ["read also", "[CS_postCS_person_Union]!"], ["", "Date"]] := by
  intro fs m m'
  obtain ⟨same, parts, -⟩ := fieldMapBody_unambiguous
  have h : m.Undelimited := undelimited_fieldMap (by decide) (by decide) (by decide)
  have h' : m'.Undelimited := by decide
  exact ⟨h, h', by decide, (same m m' h h').mpr (by decide), (parts m h (by decide)).trans (by decide)⟩

/-- A type with delimiters in it reads as if there were one more entry. -/
example : fieldMapBody (.ofList [("a", .named "Int,b:Date")]) =
    fieldMapBody (.ofList [("a", .named "Int"), ("b", .named "Date")]) := rfl

end ContentSdl
