import ContentSdl.Proofs.FieldMaps
import ContentSdl.Proofs.RoundTrip
import ContentSdl.Proofs.UnionMembers

/-! # The text of a result tells the result

A text is read back as the tree of a value, so it tells the value. A field map is told by its value if
accessors look up their own keys, and so are the fields that are files. -/

namespace ContentSdl

open Event
open Json (Value)

/-- Elements that are told apart by their images are told apart in lists. -/
theorem eq_of_map_eq {α β : Type} {f : α → β} {as bs : List α}
    (each : ∀ a ∈ as, ∀ b ∈ bs, f a = f b → a = b) (h : as.map f = bs.map f) : as = bs := by
  induction as generalizing bs with
  | nil => exact (List.map_eq_nil_iff.mp h.symm).symm
  | cons a as ih =>
    cases bs with
    | nil => cases h
    | cons b bs =>
      obtain ⟨head, tail⟩ := List.cons.inj h
      have first := each a List.mem_cons_self b List.mem_cons_self head
      have rest := ih (fun a ha b hb => each a (.tail _ ha) b (.tail _ hb)) tail
      rw [first, rest]

namespace Json

theorem Lexeme.valid_injective {α : Type} {a b : α} (h : Lexeme.valid a = Lexeme.valid b) : a = b :=
  Except.ok.inj (congrArg Lexeme.decoded h)

/-- A value is told by its tree. -/
theorem Value.NumberFree.eq_of_node {v w : Value} (hv : v.NumberFree) (h : v.node = w.node) :
    v = w := by
  induction hv generalizing w with
  | null =>
    cases w with
    | null => rfl
    | bool | number | string | array | object => simp [Value.node] at h
  | bool b =>
    cases w with
    | bool b' => rw [Node.bool.inj h]
    | null | number | string | array | object => simp [Value.node] at h
  | string s =>
    cases w with
    | string s' => rw [Lexeme.valid_injective (Node.string.inj h)]
    | null | bool | number | array | object => simp [Value.node] at h
  | @array vs _ ih =>
    cases w with
    | array ws =>
      have elements := (Node.array.inj h).1
      rw [elementNodes_eq_map, elementNodes_eq_map] at elements
      rw [eq_of_map_eq (fun v hv w _ => ih v hv) elements]
    | null | bool | number | string | object => simp [Value.node] at h
  | @object ms _ ih =>
    cases w with
    | object ms' =>
      have members := (Node.object.inj h).1
      rw [memberNodes_eq_map, memberNodes_eq_map] at members
      refine congrArg Value.object (eq_of_map_eq (fun m hm m' _ hnode => ?_) members)
      obtain ⟨key, value⟩ := Prod.mk.inj hnode
      exact Prod.ext (Lexeme.valid_injective key) (ih m hm value)
    | null | bool | number | string | array => simp [Value.node] at h

/-- The tree of a value is read of its text, so the text tells the value. -/
theorem Value.NumberFree.eq_of_text {v w : Value} (hv : v.NumberFree) (hw : w.NumberFree)
    (h : v.text = w.text) : v = w := by
  have chars : v.chars = w.chars := String.ofList_injective h
  have documents : (⟨v.node, false⟩ : Document) = ⟨w.node, false⟩ := by
    rw [← Document.ofChars_chars hv, chars, Document.ofChars_chars hw]
  exact hv.eq_of_node (Document.mk.inj documents).1

end Json

/-- Genuine fields are decoded of their values, so the values tell them apart. -/
theorem Field.eq_of_value {f g : Field} (hf : f.kind.Genuine ∧ Genuine f.children)
    (hg : g.kind.Genuine ∧ Genuine g.children) (h : f.value = g.value) : f = g := by
  have decoded {f : Field} (hf : f.kind.Genuine ∧ Genuine f.children) :
      decodeField .text f.value.height f.value.node = .ok f := by
    have back := readsBack .listed .text f f.value.height
    rw [Value.arranged_listed f.numberFree_value] at back
    exact (back (Nat.le_refl _)).mpr hf
  have hdecoded := decoded hf
  rw [h, decoded hg] at hdecoded
  exact (Except.ok.inj hdecoded).symm

namespace FieldMap

/-- Every accessor of a map looks up the key that it stands under. -/
def OwnAccessors (m : FieldMap) : Prop :=
  ∀ e ∈ m.entries, ∀ a, e.2.accessor? = some a → a.uid = e.1

/-- Accessors are not written, but where they are given by the keys nothing is lost. -/
theorem OwnAccessors.eq_of_value {m m' : FieldMap} (h : m.OwnAccessors) (h' : m'.OwnAccessors)
    (heq : fieldMapValue m = fieldMapValue m') : m = m' := by
  apply OrderedMap.ext
  refine eq_of_map_eq (fun e he e' he' hvalue => ?_) (Value.object.inj heq)
  have own := h e he
  have own' := h' e' he'
  obtain ⟨key, t⟩ := e
  obtain ⟨key', t'⟩ := e'
  obtain ⟨rfl, htype⟩ := Prod.mk.inj hvalue
  cases t with
  | named type =>
    cases t' with
    | named type' => rw [Value.string.inj htype]
    | resolved => cases htype
  | resolved type a =>
    cases t' with
    | named => cases htype
    | resolved type' a' =>
      obtain ⟨uid⟩ := a
      obtain ⟨uid'⟩ := a'
      obtain rfl : uid = key := own _ rfl
      obtain rfl : uid' = uid := own' _ rfl
      simp only [FieldType.value, Value.object.injEq, List.cons.injEq, Prod.mk.injEq,
        Value.string.injEq, true_and, and_true] at htype
      rw [htype]

/-- An accessor that looks up another key would be lost. -/
example : fieldMapValue (.ofList [("a", .resolved "Int" ⟨"b"⟩)]) =
    fieldMapValue (.ofList [("a", .resolved "Int" ⟨"a"⟩)]) := rfl

theorem numberFree_value (m : FieldMap) : (fieldMapValue m).NumberFree := by
  refine .object fun e he => ?_
  obtain ⟨⟨key, t⟩, -, rfl⟩ := List.mem_map.mp he
  cases t with
  | named type => exact .string type
  | resolved type a => exact .object (List.forall_mem_singleton.mpr (.string type))

end FieldMap

theorem ownAccessors_fieldMap (s : Style) (parent : String) (fs : List Field) :
    (fieldMap s parent fs).OwnAccessors := by
  intro e he a ha
  obtain ⟨f, -, uid, htype⟩ := mem_entries_fieldMap he
  rw [Field.accessor?_of_type? htype] at ha
  rw [Field.uid_of_accessor? ha, uid]

theorem mem_files {evs : List Event} {f : FileField} : f ∈ files evs ↔ .file f ∈ evs := by
  rw [files, List.mem_filterMap]
  constructor
  · rintro ⟨ev, hev, hf⟩
    cases ev with
    | file f' => cases hf; exact hev
    | use | emit | reference => cases hf
  · intro h
    exact ⟨_, h, rfl⟩

theorem Visit.file_mem_events {v : Visit} {f : FileField} :
    .file f ∈ v.events ↔ v.field.kind = .file ∧ f = ⟨v.parent, v.field⟩ := by
  obtain ⟨parent, ⟨uid, displayName, mandatory, multiple, kind⟩, b⟩ := v
  cases kind with
  | scalar | file | group | globalField | blocks | unknown => simp [events]
  | reference targets =>
    by_cases h : targets = []
    · simp [events, h]
    · simp [events, h]

/-- What a build records as file fields are the fields of that kind which it reaches. -/
theorem Run.mem_files_build (run : Run) (fs : List Field) (parent : String) (f : FileField) :
    f ∈ (run.build fs parent).1.files ↔
      ∃ v ∈ traceOf run.style parent fs { registry := run.registry },
        v.field.kind = .file ∧ f = ⟨v.parent, v.field⟩ := by
  have immediate : .file f ∈ eventsOf run.style parent run.registry.definitions fs ↔
      .file f ∈ immediate (eventsOf run.style parent run.registry.definitions fs) := by
    simp [immediate]
  have visits := immediate_eventsOf (s := run.style) fs parent { registry := run.registry }
  rw [files_build, mem_files, immediate, visits, List.mem_flatMap]
  exact exists_congr fun v => and_congr_right fun _ => Visit.file_mem_events

namespace Reference

def value (r : Reference) : Value := .object [("parent", .string r.parent), ("uid", .string r.uid)]

theorem value_injective {r r' : Reference} (h : r.value = r'.value) : r = r' := by
  obtain ⟨parent, uid⟩ := r
  obtain ⟨parent', uid'⟩ := r'
  simpa [value] using h

theorem numberFree_value (r : Reference) : r.value.NumberFree := by
  refine .object ?_
  simp only [List.forall_mem_cons]
  exact ⟨.string r.parent, .string r.uid, List.forall_mem_nil _⟩

end Reference

namespace FileField

def value (f : FileField) : Value := .object [("parent", .string f.parent), ("field", f.field.value)]

theorem eq_of_value {f f' : FileField} (h : f.field.kind = .file) (h' : f'.field.kind = .file)
    (heq : f.value = f'.value) : f = f' := by
  have genuine {g : Field} (kind : g.kind = .file) : g.kind.Genuine ∧ Genuine g.children := by
    rw [Field.children, kind]
    exact ⟨trivial, genuine_nil⟩
  obtain ⟨parent, field⟩ := f
  obtain ⟨parent', field'⟩ := f'
  simp only [value, Value.object.injEq, List.cons.injEq, Prod.mk.injEq, Value.string.injEq, true_and,
    and_true] at heq
  exact congrArg₂ mk heq.1 (Field.eq_of_value (genuine h) (genuine h') heq.2)

theorem numberFree_value (f : FileField) : f.value.NumberFree := by
  refine .object ?_
  simp only [List.forall_mem_cons]
  exact ⟨.string f.parent, f.field.numberFree_value, List.forall_mem_nil _⟩

end FileField

namespace Built

/-- Results that are the same to a caller, who sees declarations as texts, and no log. -/
structure SameResult (b b' : Built) : Prop where
  fields : b.fields = b'.fields
  types : b.types = b'.types
  references : b.references = b'.references
  files : b.files = b'.files

/-- What every build sees to: accessors look up their own keys, and file fields are of that kind. -/
structure Sound (b : Built) : Prop where
  accessors : b.fields.OwnAccessors
  files : ∀ f ∈ b.files, f.field.kind = .file

theorem value_eq (b : Built) : b.value =
    .object [("fields", fieldMapValue b.fields), ("types", .array (b.types.map .string)),
      ("references", .array (b.references.map Reference.value)),
      ("fileFields", .array (b.files.map FileField.value))] := rfl

theorem numberFree_value (b : Built) : b.value.NumberFree := by
  rw [value_eq]
  refine .object ?_
  simp only [List.forall_mem_cons]
  exact ⟨b.fields.numberFree_value, numberFree_array_map fun type _ => .string type,
    numberFree_array_map fun r _ => r.numberFree_value,
    numberFree_array_map fun f _ => f.numberFree_value, List.forall_mem_nil _⟩

/-- Nothing that is not written tells sound results apart. -/
theorem Sound.sameResult_of_text {b b' : Built} (h : b.Sound) (h' : b'.Sound)
    (heq : b.text = b'.text) : b.SameResult b' := by
  have values := b.numberFree_value.eq_of_text b'.numberFree_value heq
  simp only [value_eq, Value.object.injEq, List.cons.injEq, Prod.mk.injEq, Value.array.injEq,
    true_and, and_true] at values
  obtain ⟨fields, types, references, files⟩ := values
  constructor
  · exact h.accessors.eq_of_value h'.accessors fields
  · exact eq_of_map_eq (fun _ _ _ _ => Value.string.inj) types
  · exact eq_of_map_eq (fun _ _ _ _ => Reference.value_injective) references
  · exact eq_of_map_eq (fun f hf f' hf' => FileField.eq_of_value (h.files f hf) (h'.files f' hf')) files

end Built

namespace Run

theorem sound_build (run : Run) (fs : List Field) (parent : String) :
    (run.build fs parent).1.Sound where
  accessors := ownAccessors_fieldMap run.style parent fs
  files f hf := by
    obtain ⟨v, -, kind, rfl⟩ := (run.mem_files_build fs parent f).mp hf
    exact kind

/-- Whatever was built, and by whatever runs: results have the same text only if they are the same, the
accessors and the fields of the files included. -/
theorem text_build_eq_iff (run run' : Run) (fs fs' : List Field) (parent parent' : String) :
    (run.build fs parent).1.text = (run'.build fs' parent').1.text ↔
      (run.build fs parent).1.SameResult (run'.build fs' parent').1 := by
  constructor
  · exact (run.sound_build fs parent).sameResult_of_text (run'.sound_build fs' parent')
  · intro same
    rw [Built.text, Built.text, Built.value, Built.value, same.fields, same.types, same.references,
      same.files]

end Run

end ContentSdl
