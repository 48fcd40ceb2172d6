import ContentSdl.Proofs.WireFormat

/-! # Content models read back from their text

A field is decoded of the value that encodes it if it is genuine: its kind, and the kinds of all fields
inside, are what they are called. -/

namespace ContentSdl

open Json (Value Node Arrangement Decoded Origin bind_ok map_ok putAll nestingLimit)

/-- A kind that is not known does not go by the tag of one that is. -/
def FieldKind.Genuine : FieldKind → Prop
  | .unknown tag => tag ∉ knownTags
  | .scalar _ | .file | .group _ | .globalField .. | .blocks _ | .reference _ => True

/-- The kinds of all fields of a list, and of those below them, are genuine. -/
def Genuine (fs : List Field) : Prop := ∀ f, Occurs f fs → f.kind.Genuine

theorem genuine_iff {fs : List Field} :
    Genuine fs ↔ ∀ f ∈ fs, f.kind.Genuine ∧ Genuine f.children := by
  constructor
  · intro h f hf
    exact ⟨h f (.here hf), fun g hg => h g (.inside hf hg)⟩
  · intro h f hf
    cases hf with
    | here hf => exact (h f hf).1
    | inside hg hf => exact (h _ hg).2 f hf

@[simp] theorem genuine_nil : Genuine [] := by
  rw [genuine_iff]
  simp

@[simp] theorem genuine_cons {f : Field} {fs : List Field} :
    Genuine (f :: fs) ↔ (f.kind.Genuine ∧ Genuine f.children) ∧ Genuine fs := by
  rw [genuine_iff, List.forall_mem_cons, ← genuine_iff]

theorem genuine_flatMap {α : Type} {as : List α} {schema : α → List Field} :
    Genuine (as.flatMap schema) ↔ ∀ a ∈ as, Genuine (schema a) := by
  constructor
  · exact fun h a ha f hf => h f (occurs_flatMap.mpr ⟨a, ha, hf⟩)
  · intro h f hf
    obtain ⟨a, ha, hf⟩ := occurs_flatMap.mp hf
    exact h a ha f hf

theorem mapM_eq_ok_self_iff {α : Type} {f : α → Decoded α} {as : List α} :
    as.mapM f = .ok as ↔ ∀ a ∈ as, f a = .ok a := by
  induction as with
  | nil => simp [pure, Except.pure]
  | cons a as ih =>
    rw [List.mapM_cons, List.forall_mem_cons, ← ih]
    constructor
    · intro h
      obtain ⟨b, hb, h⟩ := bind_ok h
      obtain ⟨bs, hbs, h⟩ := bind_ok h
      obtain ⟨rfl, rfl⟩ := List.cons.inj (Except.ok.inj h)
      exact ⟨hb, hbs⟩
    · rintro ⟨ha, has⟩
      rw [ha, has]
      rfl

/-- A list is decoded as such if all its elements are. -/
theorem decodeList_map_iff {α : Type} (decode : Node → Decoded α) (encode : α → Value)
    (as : List α) :
    Json.decodeList (some decode) (Value.array (as.map encode)).node = .ok as ↔
      ∀ a ∈ as, decode (encode a).node = .ok a := by
  rw [← mapM_eq_ok_self_iff (f := fun a => decode (encode a).node), Value.node,
    Json.elementNodes_eq_map, List.map_map, Json.decodeList, List.mapM_map]
  change (as.mapM (fun a => decode (encode a).node) >>= pure) = _ ↔ _
  rw [bind_pure]

/-- The kind of a draft is not known if its tag is not. -/
theorem kind_eq_unknown_iff {d : FieldDraft} {tag : String} (h : d.dataType = tag) :
    d.kind = .ok (.unknown tag) ↔ tag ∉ FieldKind.knownTags := by
  subst h
  have hscalar : d.dataType ∈ ScalarKind.all.map ScalarKind.tag ↔
      ScalarKind.ofTag? d.dataType ≠ none := by
    rw [ScalarKind.ofTag?, Ne, List.find?_eq_none, List.mem_map]
    simp
  have hknown : d.dataType ∈ FieldKind.knownTags ↔ ScalarKind.ofTag? d.dataType ≠ none ∨
      d.dataType ∈ ["file", "group", "global_field", "blocks", "reference"] := by
    rw [FieldKind.knownTags, List.mem_append, hscalar]
  rw [hknown]
  simp only [List.mem_cons, List.not_mem_nil, or_false]
  unfold FieldDraft.kind
  split_ifs with hfile hgroup hglobal hblocks hreference
  · simp [hfile]
  · simp [hgroup]
  · split <;> simp [hglobal]
  · simp [hblocks]
  · simp [hreference]
  · cases hk : ScalarKind.ofTag? d.dataType with
    | some kind => simp
    | none => simp [hfile, hgroup, hglobal, hblocks, hreference]

theorem finish_draft_iff (f : Field) : f.draft.finish = .ok f ↔ f.draft.kind = .ok f.kind := by
  obtain ⟨uid, displayName, mandatory, multiple, kind⟩ := f
  constructor
  · intro h
    obtain ⟨k, hk, hf⟩ := map_ok h
    rw [hk, ← congrArg Field.kind hf]
  · intro h
    rw [FieldDraft.finish, h]
    rfl

section

variable (a : Arrangement) (origin : Origin)

/-- Where a single value says what the field becomes, the field reads back if that value does. -/
theorem decodeField_iff_of_put {α : Type} {f : Field} {room : Nat} {r : Decoded α}
    {draft : α → FieldDraft} {x : α}
    (hput : putAll (FieldDraft.put (decodeFields origin room) (decodeBlocks origin room)
      room) a f.draft f.kind.entries = r.map draft)
    (field : α → Field) (hfinish : ∀ y, (draft y).finish = .ok (field y)) (hf : field x = f)
    (hinj : ∀ y, field y = f → y = x) :
    decodeField origin (room + 1) (f.value.arranged a).node = .ok f ↔ r = .ok x := by
  rw [Field.decodeField_value_iff, hput]
  constructor
  · rintro ⟨d, hd, hdone⟩
    obtain ⟨y, rfl, rfl⟩ := map_ok hd
    rw [hfinish] at hdone
    rw [hinj y (Except.ok.inj hdone)]
  · rintro rfl
    exact ⟨draft x, rfl, hf ▸ hfinish x⟩

/-- A field that fits into the room is decoded as such if all kinds in it are genuine. -/
def ReadsBack (f : Field) : Prop :=
  ∀ room, (f.value.arranged a).height ≤ room →
    (decodeField origin room (f.value.arranged a).node = .ok f ↔
      f.kind.Genuine ∧ Genuine f.children)

theorem decodeFields_iff_of_each {fs : List Field} (h : ∀ f ∈ fs, ReadsBack a origin f) {room : Nat}
    (hr : ((Value.array (fs.map Field.value)).arranged a).height ≤ room) :
    decodeFields origin room ((Value.array (fs.map Field.value)).arranged a).node = .ok fs ↔
      Genuine fs := by
  obtain ⟨room, rfl, fit⟩ := Value.exists_room_array hr
  rw [Value.arranged_array, List.map_map, decodeFields, decodeList_map_iff, genuine_iff]
  exact forall₂_congr fun f hf => h f hf room (fit f hf)

theorem decodeBlocks_iff_of_each {bs : List Block}
    (h : ∀ b ∈ bs, ∀ f ∈ b.schema, ReadsBack a origin f) {room : Nat}
    (hr : ((Value.array (bs.map Block.value)).arranged a).height ≤ room) :
    decodeBlocks origin room ((Value.array (bs.map Block.value)).arranged a).node = .ok bs ↔
      Genuine (bs.flatMap Block.schema) := by
  obtain ⟨room, rfl, fit⟩ := Value.exists_room_array hr
  rw [Value.arranged_array, List.map_map, decodeBlocks, decodeList_map_iff, genuine_flatMap]
  refine forall₂_congr fun b hb => ?_
  have hblock := fit b hb
  have hschema := b.height_schema_lt a
  obtain ⟨room, rfl⟩ : ∃ r, room = r + 1 := ⟨room - 1, by omega⟩
  exact (b.decodeBlock_value_iff a origin room).trans
    (decodeFields_iff_of_each a origin (h b hb) (by omega))

private theorem exists_room {f : Field} {room : Nat} (hr : (f.value.arranged a).height ≤ room) :
    ∃ r, room = r + 1 ∧ ∀ e ∈ f.kind.entries, (e.2.arranged a).height ≤ r := by
  have hpos : 0 < (f.value.arranged a).height := by
    rw [f.value_eq, Value.arranged_object, Value.height_object]
    exact Nat.succ_pos _
  refine ⟨room - 1, by omega, fun e he => ?_⟩
  have hlt := f.height_lt_of_mem_entries a he
  omega

section

variable (uid : String) (displayName : Option String) (mandatory multiple : Bool)

private theorem readsBack_scalar (kind : ScalarKind) :
    ReadsBack a origin ⟨uid, displayName, mandatory, multiple, .scalar kind⟩ := by
  intro room hr
  obtain ⟨room, rfl, -⟩ := exists_room a hr
  rw [Field.decodeField_value_iff]
  refine iff_of_true ⟨_, rfl, ?_⟩ ⟨trivial, genuine_nil⟩
  cases kind <;> rfl

private theorem readsBack_file :
    ReadsBack a origin ⟨uid, displayName, mandatory, multiple, .file⟩ := by
  intro room hr
  obtain ⟨room, rfl, -⟩ := exists_room a hr
  rw [Field.decodeField_value_iff]
  exact iff_of_true ⟨_, rfl, rfl⟩ ⟨trivial, genuine_nil⟩

/-- A kind that is not known reads back only if its tag does not stand for another. -/
private theorem readsBack_unknown (tag : String) :
    ReadsBack a origin ⟨uid, displayName, mandatory, multiple, .unknown tag⟩ := by
  intro room hr
  obtain ⟨room, rfl, -⟩ := exists_room a hr
  rw [Field.decodeField_value_iff]
  let f : Field := ⟨uid, displayName, mandatory, multiple, .unknown tag⟩
  have hfinish : f.draft.finish = .ok f ↔ tag ∉ FieldKind.knownTags :=
    (finish_draft_iff f).trans (kind_eq_unknown_iff rfl)
  constructor
  · rintro ⟨d, hd, hf⟩
    cases hd
    exact ⟨hfinish.mp hf, genuine_nil⟩
  · rintro ⟨htag, -⟩
    exact ⟨_, rfl, hfinish.mpr htag⟩

private theorem readsBack_group {schema : List Field} (h : ∀ g ∈ schema, ReadsBack a origin g) :
    ReadsBack a origin ⟨uid, displayName, mandatory, multiple, .group schema⟩ := by
  intro room hr
  obtain ⟨room, rfl, fit⟩ := exists_room a hr
  have hfields := decodeFields_iff_of_each a origin h (fit _ List.mem_cons_self)
  have hput := putAll_schema (decodeFields origin room) (decodeBlocks origin room) room a
    (Field.draft ⟨uid, displayName, mandatory, multiple, .group schema⟩) (schema.map Field.value)
  have hdecode := decodeField_iff_of_put a origin hput
    (fun schema => ⟨uid, displayName, mandatory, multiple, .group schema⟩) (fun _ => rfl) rfl
    fun _ he => FieldKind.group.inj (congrArg Field.kind he)
  exact hdecode.trans (hfields.trans (iff_of_eq (true_and _)).symm)

private theorem readsBack_globalField (definition : String) {schema : List Field}
    (h : ∀ g ∈ schema, ReadsBack a origin g) :
    ReadsBack a origin ⟨uid, displayName, mandatory, multiple, .globalField definition schema⟩ := by
  intro room hr
  obtain ⟨room, rfl, fit⟩ := exists_room a hr
  have hfields := decodeFields_iff_of_each a origin h (fit _ List.mem_cons_self)
  have hput := putAll_global (decodeFields origin room) (decodeBlocks origin room) room a
    (Field.draft ⟨uid, displayName, mandatory, multiple, .globalField definition schema⟩)
    (schema.map Field.value) definition
  have hdecode := decodeField_iff_of_put a origin hput
    (fun schema => ⟨uid, displayName, mandatory, multiple, .globalField definition schema⟩)
    (fun _ => rfl) rfl fun _ he => (FieldKind.globalField.inj (congrArg Field.kind he)).2
  exact hdecode.trans (hfields.trans (iff_of_eq (true_and _)).symm)

private theorem readsBack_blocks {variants : List Block}
    (h : ∀ b ∈ variants, ∀ g ∈ b.schema, ReadsBack a origin g) :
    ReadsBack a origin ⟨uid, displayName, mandatory, multiple, .blocks variants⟩ := by
  intro room hr
  obtain ⟨room, rfl, fit⟩ := exists_room a hr
  have hblocks := decodeBlocks_iff_of_each a origin h (fit _ List.mem_cons_self)
  have hput := putAll_blocks (decodeFields origin room) (decodeBlocks origin room) room a
    (Field.draft ⟨uid, displayName, mandatory, multiple, .blocks variants⟩)
    (variants.map Block.value)
  have hdecode := decodeField_iff_of_put a origin hput
    (fun variants => ⟨uid, displayName, mandatory, multiple, .blocks variants⟩) (fun _ => rfl) rfl
    fun _ he => FieldKind.blocks.inj (congrArg Field.kind he)
  exact hdecode.trans (hblocks.trans (iff_of_eq (true_and _)).symm)

private theorem readsBack_reference (targets : List String) :
    ReadsBack a origin ⟨uid, displayName, mandatory, multiple, .reference targets⟩ := by
  intro room hr
  obtain ⟨room, rfl, fit⟩ := exists_room a hr
  have hroom : 0 < room := by
    have hlist := fit _ List.mem_cons_self
    rw [Value.arranged_array, Value.height_array] at hlist
    omega
  have hput := putAll_targets (decodeFields origin room) (decodeBlocks origin room) room a
    (Field.draft ⟨uid, displayName, mandatory, multiple, .reference targets⟩) targets hroom
  rw [Field.decodeField_value_iff, FieldKind.entries, hput]
  exact iff_of_true ⟨_, rfl, rfl⟩ ⟨trivial, genuine_nil⟩

end

theorem readsBack (f : Field) : ReadsBack a origin f := by
  induction f using Field.tree_induction with
  | step f ih =>
    obtain ⟨uid, displayName, mandatory, multiple, kind⟩ := f
    cases kind with
    | scalar kind => exact readsBack_scalar a origin _ _ _ _ kind
    | file => exact readsBack_file a origin _ _ _ _
    | group schema => exact readsBack_group a origin _ _ _ _ ih
    | globalField definition schema => exact readsBack_globalField a origin _ _ _ _ definition ih
    | blocks variants =>
      refine readsBack_blocks a origin _ _ _ _ fun b hb g hg => ih g ?_
      exact List.mem_flatMap.mpr ⟨b, hb, hg⟩
    | reference targets => exact readsBack_reference a origin _ _ _ _ targets
    | unknown tag => exact readsBack_unknown a origin _ _ _ _ tag

theorem decodeFields_value_iff (fs : List Field) {room : Nat}
    (hr : ((Value.array (fs.map Field.value)).arranged a).height ≤ room) :
    decodeFields origin room ((Value.array (fs.map Field.value)).arranged a).node = .ok fs ↔
      Genuine fs :=
  decodeFields_iff_of_each a origin (fun f _ => readsBack a origin f) hr

theorem decodeContentTypes_value_iff (cs : List ContentType) {room : Nat}
    (hr : ((Value.array (cs.map ContentType.value)).arranged a).height ≤ room) :
    decodeContentTypes room ((Value.array (cs.map ContentType.value)).arranged a).node = .ok cs ↔
      ∀ c ∈ cs, Genuine c.schema := by
  obtain ⟨room, rfl, fit⟩ := Value.exists_room_array hr
  rw [Value.arranged_array, List.map_map, decodeContentTypes, decodeList_map_iff]
  refine forall₂_congr fun c hc => ?_
  have hcontent := fit c hc
  have hschema := c.height_schema_lt a
  obtain ⟨room, rfl⟩ : ∃ r, room = r + 1 := ⟨room - 1, by omega⟩
  exact (c.decodeContentType_value_iff a room).trans
    (decodeFields_value_iff a .value c.schema (by omega))

end

theorem numberFree_array_map {α : Type} {encode : α → Value} {as : List α}
    (h : ∀ a ∈ as, (encode a).NumberFree) : (Value.array (as.map encode)).NumberFree := by
  refine .array fun v hv => ?_
  obtain ⟨a, ha, rfl⟩ := List.mem_map.mp hv
  exact h a ha

theorem numberFree_membersOf {μ : Type} {shape : Json.Shape μ} {es : List (μ × Value)}
    (h : ∀ e ∈ es, e.2.NumberFree) : (Value.object (shape.membersOf es)).NumberFree := by
  refine .object fun m hm => ?_
  obtain ⟨e, he, rfl⟩ := List.mem_map.mp hm
  exact h e he

theorem numberFree_optionalEntry {μ : Type} {m : μ} {s : Option String} :
    ∀ e ∈ optionalEntry m s, e.2.NumberFree := by
  intro e he
  cases s with
  | none => cases he
  | some s =>
    rw [optionalEntry, List.mem_singleton] at he
    exact he ▸ .string s

theorem Block.numberFree_value {b : Block} (h : ∀ f ∈ b.schema, f.value.NumberFree) :
    b.value.NumberFree := by
  rw [b.value_eq]
  apply numberFree_membersOf
  rw [entries, List.forall_mem_append, List.forall_mem_append, List.forall_mem_singleton,
    List.forall_mem_singleton]
  exact ⟨⟨.string b.uid, numberFree_optionalEntry⟩, numberFree_array_map h⟩

theorem Field.numberFree_head (f : Field) : ∀ e ∈ f.head, e.2.NumberFree := by
  rw [head, List.forall_mem_append, List.forall_mem_append, List.forall_mem_cons,
    List.forall_mem_singleton, List.forall_mem_cons, List.forall_mem_singleton]
  exact ⟨⟨⟨.string f.uid, .string f.kind.tag⟩, numberFree_optionalEntry⟩, .bool f.mandatory,
    .bool f.multiple⟩

theorem Field.numberFree_value (f : Field) : f.value.NumberFree := by
  induction f using Field.tree_induction with
  | step f ih =>
    have hkind : ∀ e ∈ f.kind.entries, e.2.NumberFree := by
      obtain ⟨uid, displayName, mandatory, multiple, kind⟩ := f
      cases kind with
      | scalar | file | unknown => exact nofun
      | group schema => exact List.forall_mem_singleton.mpr (numberFree_array_map ih)
      | globalField definition schema =>
        rw [FieldKind.entries, List.forall_mem_cons, List.forall_mem_singleton]
        exact ⟨numberFree_array_map ih, .string definition⟩
      | blocks variants =>
        refine List.forall_mem_singleton.mpr (numberFree_array_map fun b hb => ?_)
        exact b.numberFree_value fun g hg => ih g (List.mem_flatMap.mpr ⟨b, hb, hg⟩)
      | reference targets =>
        exact List.forall_mem_singleton.mpr (numberFree_array_map fun target _ => .string target)
    rw [f.value_eq]
    apply numberFree_membersOf
    rw [entries, List.forall_mem_append]
    exact ⟨f.numberFree_head, hkind⟩

theorem ContentType.numberFree_value (c : ContentType) : c.value.NumberFree := by
  rw [c.value_eq]
  apply numberFree_membersOf
  rw [entries, List.forall_mem_cons, List.forall_mem_cons, List.forall_mem_singleton]
  exact ⟨.string c.uid, .string c.title, numberFree_array_map fun f _ => f.numberFree_value⟩

theorem parseFields_fieldsText_iff (fs : List Field)
    (hr : (Value.array (fieldValues fs)).height ≤ nestingLimit) :
    parseFields (fieldsText fs) = .ok fs ↔ Genuine fs := by
  have hfree : (Value.array (fs.map Field.value)).NumberFree :=
    numberFree_array_map fun f _ => f.numberFree_value
  have hlisted := Value.arranged_listed hfree
  rw [fieldValues_eq_map] at hr
  have hdecode := decodeFields_value_iff .listed .text fs (hlisted.symm ▸ hr)
  rw [hlisted] at hdecode
  rw [parseFields, mapError_eq_ok_iff, fieldsOfText, fieldsText, fieldValues_eq_map,
    Json.decodeText_text _ hfree, hdecode]

theorem parseContentTypes_of_ofText {text : String} {v : Value}
    (h : Value.ofText nestingLimit text = .ok v) :
    parseContentTypes text = contentTypesOfValue v := by
  rw [parseContentTypes, h]
  rfl

theorem contentTypesOfValue_iff (cs : List ContentType) (v : Value)
    (hv : contentTypeList v = .ok ((Value.array (cs.map ContentType.value)).arranged .sorted)) :
    contentTypesOfValue v = .ok cs ↔ ∀ c ∈ cs, Genuine c.schema := by
  rw [contentTypesOfValue, hv]
  change (decodeContentTypes _ _).mapError _ = _ ↔ _
  rw [mapError_eq_ok_iff, decodeContentTypes_value_iff .sorted cs (Nat.le_refl _)]

theorem parseContentTypes_contentTypesText_iff (cs : List ContentType)
    (hr : (Value.array (cs.map ContentType.value)).height ≤ nestingLimit) :
    parseContentTypes (contentTypesText cs) = .ok cs ↔ ∀ c ∈ cs, Genuine c.schema := by
  have hfree : (Value.array (cs.map ContentType.value)).NumberFree :=
    numberFree_array_map fun c _ => c.numberFree_value
  rw [contentTypesText, parseContentTypes_of_ofText (Value.ofText_text hfree hr)]
  refine contentTypesOfValue_iff cs _ ?_
  rw [Value.arranged_array]
  rfl

theorem parseContentTypes_envelopeText_iff (cs : List ContentType)
    (hr : (Value.object [("content_types", .array (cs.map ContentType.value))]).height ≤
      nestingLimit) :
    parseContentTypes (envelopeText cs) = .ok cs ↔ ∀ c ∈ cs, Genuine c.schema := by
  have hfree : (Value.array (cs.map ContentType.value)).NumberFree :=
    numberFree_array_map fun c _ => c.numberFree_value
  have henvelope :
      (Value.object [("content_types", .array (cs.map ContentType.value))]).NumberFree :=
    .object (List.forall_mem_singleton.mpr hfree)
  rw [envelopeText, parseContentTypes_of_ofText (Value.ofText_text henvelope hr)]
  refine contentTypesOfValue_iff cs _ ?_
  rw [Value.arranged_object]
  rfl

/-- As far as texts may be nested, fields and content types read back from their text, the latter
also in an envelope, if and only if no kind anywhere goes by the tag of another. -/
theorem reads_back_iff_genuine :
    (∀ fs : List Field, (Value.array (fieldValues fs)).height ≤ nestingLimit →
      (parseFields (fieldsText fs) = .ok fs ↔ Genuine fs)) ∧
    (∀ cs : List ContentType, (Value.array (cs.map ContentType.value)).height ≤ nestingLimit →
      (parseContentTypes (contentTypesText cs) = .ok cs ↔ ∀ c ∈ cs, Genuine c.schema)) ∧
    (∀ cs : List ContentType,
      (Value.object [("content_types", .array (cs.map ContentType.value))]).height ≤ nestingLimit →
      (parseContentTypes (envelopeText cs) = .ok cs ↔ ∀ c ∈ cs, Genuine c.schema)) :=
  ⟨parseFields_fieldsText_iff, parseContentTypes_contentTypesText_iff,
    parseContentTypes_envelopeText_iff⟩

/-- A page with a field of a kind that is not known reads back; with one that goes by the tag of a
group it does not. -/
theorem reads_back_page :
    let fs : List Field := [.make "hero" (.group [.make "title" (.scalar .text)]),
      .make "color" (.unknown "color")]
    let odd : List Field := [.make "hero" (.unknown "group")]
    let cs : List ContentType := [.make "page" fs]
    parseFields (fieldsText fs) = .ok fs ∧ parseFields (fieldsText odd) ≠ .ok odd ∧
      parseContentTypes (contentTypesText cs) = .ok cs ∧
      parseContentTypes (envelopeText cs) = .ok cs := by
  intro fs odd cs
  obtain ⟨hfields, hlist, henvelope⟩ := reads_back_iff_genuine
  have hgenuine : Genuine fs := by
    simp [fs, Field.make, Field.children, FieldKind.Genuine, FieldKind.knownTags, ScalarKind.all,
      ScalarKind.tag]
  have hodd : ¬Genuine odd := by
    simp [odd, Field.make, FieldKind.Genuine, FieldKind.knownTags]
  have hcs : ∀ c ∈ cs, Genuine c.schema := List.forall_mem_singleton.mpr hgenuine
  refine ⟨(hfields fs (by decide)).mpr hgenuine, ?_, ?_, ?_⟩
  · exact fun h => hodd ((hfields odd (by decide)).mp h)
  · exact (hlist cs (by decide)).mpr hcs
  · exact (henvelope cs (by decide)).mpr hcs

end ContentSdl
