import ContentSdl.Proofs.DecodingRoom
import ContentSdl.Proofs.WireGrammar

/-! # Members that do not matter

An object of a content model may hold members that are not of its record, and a field may hold lists
that its kind has no use for. Such lists are decoded before it is asked what they are for, so they must be
well formed. Whether such members are there makes no difference to what is decoded, errors included. -/

namespace ContentSdl

open Json (Value SameOutcome Replaced)

/-- The records of a content model. -/
inductive Record where
  | contentType
  | field
  | block
  deriving DecidableEq, Repr

namespace Record

/-- The keys of its members. -/
def keys : Record → List String
  | .contentType => contentTypeShape.members.map contentTypeShape.name
  | .field => fieldShape.members.map fieldShape.name
  | .block => blockShape.members.map blockShape.name

/-- A record has a member that is a list of records. -/
inductive Lists : Record → String → Record → Prop where
  | schema (r : Record) : Lists r "schema" .field
  | blocks : Lists .field "blocks" .block

end Record

/-- A well-formed list that a field of some kind has no use for. -/
inductive Unused (tag : String) : String → Value → Prop where
  | schema {v : Value} {vs : List Value} (group : tag ≠ "group") (globalField : tag ≠ "global_field")
    (list : NullableElements (some v) vs) (each : ∀ w ∈ vs, WellFormed w) : Unused tag "schema" v
  | blocks {v : Value} {vs : List Value} (blocks : tag ≠ "blocks")
    (list : NullableElements (some v) vs) (each : ∀ w ∈ vs, WellFormedBlock w) : Unused tag "blocks" v
  | targets {v : Value} {targets : List String} (reference : tag ≠ "reference")
    (globalField : tag ≠ "global_field") (list : Targets (some v) targets) : Unused tag "reference_to" v

/-- A record and the same record with one more member that does not matter, in itself or in a record of
one of its lists. -/
inductive Extended : Record → Value → Value → Prop where
  | unknown {r : Record} {key : String} (h : key ∉ r.keys) (before after : List (String × Value))
    (v : Value) : Extended r (.object (before ++ after)) (.object (before ++ (key, v) :: after))
  | unused {tag key : String} {v : Value} (h : Unused tag key v) (before after : List (String × Value))
    (kind : (before ++ after).lookup "data_type" = some (.string tag))
    (added : ∀ e ∈ before ++ after, e.1 ≠ key) :
    Extended .field (.object (before ++ after)) (.object (before ++ (key, v) :: after))
  | inside {r r' : Record} {key : String} {v w u u' : Value} (h : Extended r' v w)
    (lists : r.Lists key r') (front back : List Value)
    (replaced : Replaced r.keys key (.array (front ++ v :: back)) (.array (front ++ w :: back)) u u') :
    Extended r u u'

/-- A content model and the same content model with one more member that does not matter. -/
inductive ExtendedModel : Value → Value → Prop where
  | unknown {key : String} (h : key ≠ "content_types") (before after : List (String × Value))
    (v : Value) : ExtendedModel (.object (before ++ after)) (.object (before ++ (key, v) :: after))
  | inside {v w : Value} (h : Extended .contentType v w) (front back : List Value) :
    ExtendedModel (.array (front ++ v :: back)) (.array (front ++ w :: back))
  | enveloped {v w : Value} (h : Extended .contentType v w) (front back : List Value)
    (before after : List (String × Value)) :
    ExtendedModel (.object (before ++ ("content_types", .array (front ++ v :: back)) :: after))
      (.object (before ++ ("content_types", .array (front ++ w :: back)) :: after))

namespace Json

theorem map_map {ε α β γ : Type} (r : Except ε α) (f : α → β) (g : β → γ) :
    (r.map f).map g = r.map fun a => g (f a) := by
  cases r <;> rfl

theorem height_insert_member (before after : List (String × Value)) (e : String × Value) :
    (Value.object (before ++ after)).height ≤ (Value.object (before ++ e :: after)).height := by
  rw [Value.height_object, Value.height_object]
  apply Nat.succ_le_succ
  rw [Value.memberHeights_le_iff]
  intro m hm
  apply Value.memberHeights_le_iff.mp (Nat.le_refl _)
  exact List.mem_append.mpr ((List.mem_append.mp hm).imp_right (List.mem_cons_of_mem e))

theorem Shape.member?_eq_none {μ : Type} {shape : Shape μ} {key : String}
    (h : key ∉ shape.members.map shape.name) : shape.member? key = none := by
  rw [Shape.member?, List.find?_eq_none]
  intro m hm heq
  exact h (List.mem_map.mpr ⟨m, hm, of_decide_eq_true heq⟩)

theorem SameOutcome.insert_unknown {μ σ : Type} [DecidableEq μ] {shape : Shape μ} {origin : Origin}
    {put : Nat → σ → μ → Node → Decoded σ} {start : σ} {key : String}
    (self : ∀ u s m, SameOutcome (fun room => put room s m) u u)
    (h : key ∉ shape.members.map shape.name) (before after : List (String × Value)) (v : Value) :
    SameOutcome (recordWithin shape origin put start) (.object (before ++ after))
      (.object (before ++ (key, v) :: after)) := by
  refine .of_height_le (.record_self fun u _ => self u) (height_insert_member before after (key, v)) ?_
  intro room hroom
  obtain ⟨room, rfl, -⟩ := exists_room_members hroom
  rw [Value.node, Value.node, recordWithin, decodeRecord, decodeRecord,
    Shape.objectEntries_insert_unknown (Shape.member?_eq_none h)]

end Json

section

variable {room : Nat} {tag key : String} {before after : List (String × Value)} {v : Value}

/-- The tag that an object gives is that of the draft. -/
theorem dataType_of_decodeRecord {ms : List (String × Value)} {d : FieldDraft}
    (kind : ms.lookup "data_type" = some (.string tag))
    (h : Json.decodeRecord fieldShape .value (some (putFieldWithin .value room)) {}
      (Value.object ms).node = .ok d) : d.dataType = tag := by
  obtain ⟨r, record, -, hput⟩ := (Json.Shape.decodeRecord_node_iff known_fieldShape nodup_fieldShape
    requiredFirst_fieldShape (commutes_put _ _ _)).mp h
  have hr : r .dataType = some (.string tag) := by
    rw [Json.Shape.record?, Option.ite_none_right_eq_some, Option.some_inj] at record
    obtain ⟨-, rfl⟩ := record
    exact kind
  obtain ⟨_, -, tag', hasTag, _, -, _, -, _, -, _, -, _, -, _, -, hd⟩ :=
    putAll_field_eq_ok_iff.mp (congrArg (· >>= Except.ok) hput)
  cases hd
  have htag := (reads_string_iff (by simp [hr])).mp hasTag
  cases hr.symm.trans htag
  rfl

/-- The draft takes up the value of a member, and the field of the draft makes nothing of it. -/
structure TakenInVain (room : Nat) (tag key : String) (v : Value) (m : FieldMember)
    (update : FieldDraft → FieldDraft) : Prop where
  member : fieldShape.member? key = some m
  optional : m ∉ fieldShape.required
  put : ∀ d, putFieldWithin .value room d m v.node = .ok (update d)
  frame : ∀ k, k ≠ m → ∀ d n, putFieldWithin .value room (update d) k n =
    (putFieldWithin .value room d k n).map update
  finish : ∀ d : FieldDraft, d.dataType = tag → (update d).finish = d.finish

theorem TakenInVain.decodeField_eq {m : FieldMember} {update : FieldDraft → FieldDraft}
    (h : TakenInVain room tag key v m update)
    (kind : (before ++ after).lookup "data_type" = some (.string tag))
    (added : ∀ e ∈ before ++ after, e.1 ≠ key) :
    decodeField .value (room + 1) (Value.object (before ++ after)).node =
      decodeField .value (room + 1) (Value.object (before ++ (key, v) :: after)).node := by
  obtain ⟨hbefore, hafter⟩ := List.forall_mem_append.mp added
  have draft : Json.decodeRecord fieldShape .value (some (putFieldWithin .value room)) {}
      (Value.object (before ++ (key, v) :: after)).node =
        (Json.decodeRecord fieldShape .value (some (putFieldWithin .value room)) {}
          (Value.object (before ++ after)).node).map update :=
    Json.Shape.fill_objectEntries_insert h.member h.optional h.put h.frame hbefore hafter
      List.not_mem_nil {}
  rw [decodeField_succ, decodeField_succ, draft]
  cases hd : Json.decodeRecord fieldShape .value (some (putFieldWithin .value room)) {}
      (Value.object (before ++ after)).node with
  | error e => rfl
  | ok d => exact (h.finish d (dataType_of_decodeRecord kind hd)).symm

theorem exists_fields {vs : List Value} (each : ∀ w ∈ vs, WellFormed w) :
    ∃ fs, List.Forall₂ Spells vs fs :=
  Json.exists_forall₂ fun w hw => ((wellFormed_iff_spells w.height).1 w (Nat.le_refl _)).mp (each w hw)

theorem exists_variants {vs : List Value} (each : ∀ w ∈ vs, WellFormedBlock w) :
    ∃ bs, List.Forall₂ SpellsBlock vs bs :=
  Json.exists_forall₂ fun w hw => ((wellFormed_iff_spells w.height).2 w (Nat.le_refl _)).mp (each w hw)

theorem takenInVain_schema {fs : List Field} (group : tag ≠ "group")
    (globalField : tag ≠ "global_field")
    (read : (Json.decodeNullable (decodeFields .value room) v.node).map (·.getD []) = .ok fs) :
    TakenInVain room tag "schema" v .schema ({ · with schema := fs }) where
  member := rfl
  optional := by decide
  put d := by
    rw [putFieldWithin, put_schema, read]
    rfl
  frame k hk d n := by
    cases k with
    | schema => exact absurd rfl hk
    | uid | dataType | displayName | mandatory | multiple | blocks | referenceTo =>
      simp only [putFieldWithin, FieldDraft.put, Json.map_map]
  finish d hd := by simp [FieldDraft.finish, FieldDraft.kind, hd, group, globalField]

theorem takenInVain_blocks {bs : List Block} (blocks : tag ≠ "blocks")
    (read : (Json.decodeNullable (decodeBlocks .value room) v.node).map (·.getD []) = .ok bs) :
    TakenInVain room tag "blocks" v .blocks ({ · with variants := bs }) where
  member := rfl
  optional := by decide
  put d := by
    rw [putFieldWithin, put_blocks, read]
    rfl
  frame k hk d n := by
    cases k with
    | blocks => exact absurd rfl hk
    | uid | dataType | displayName | mandatory | multiple | schema | referenceTo =>
      simp only [putFieldWithin, FieldDraft.put, Json.map_map]
  finish d hd := by simp [FieldDraft.finish, FieldDraft.kind, hd, blocks]

theorem takenInVain_targets {targets : List String} (reference : tag ≠ "reference")
    (globalField : tag ≠ "global_field") (read : decodeTargets room v.node = .ok targets) :
    TakenInVain room tag "reference_to" v .referenceTo ({ · with targets := targets }) where
  member := rfl
  optional := by decide
  put d := by
    rw [putFieldWithin, FieldDraft.put, read]
    rfl
  frame k hk d n := by
    cases k with
    | referenceTo => exact absurd rfl hk
    | uid | dataType | displayName | mandatory | multiple | schema | blocks =>
      simp only [putFieldWithin, FieldDraft.put, Json.map_map]
  finish d hd := by simp [FieldDraft.finish, FieldDraft.kind, hd, reference, globalField]

theorem Unused.takenInVain (unused : Unused tag key v) (hv : v.height ≤ room) :
    ∃ m update, TakenInVain room tag key v m update := by
  obtain ⟨lists, -, -⟩ := decode_iff_spells .value room
  cases unused with
  | schema group globalField list each =>
    obtain ⟨fs, hfs⟩ := exists_fields each
    have read := (reads_nullableElements_iff fun u hu => lists.fields u (Option.some.inj hu ▸ hv)).mpr
      ⟨_, list, hfs⟩
    cases read with
    | present read => exact ⟨_, _, takenInVain_schema group globalField read⟩
  | blocks blocks list each =>
    obtain ⟨bs, hbs⟩ := exists_variants each
    have read := (reads_nullableElements_iff fun u hu => lists.blocks u (Option.some.inj hu ▸ hv)).mpr
      ⟨_, list, hbs⟩
    cases read with
    | present read => exact ⟨_, _, takenInVain_blocks blocks read⟩
  | targets reference globalField list =>
    have read := (reads_targets_iff fun u hu => Option.some.inj hu ▸ hv).mpr list
    cases read with
    | present read => exact ⟨_, _, takenInVain_targets reference globalField read⟩

theorem sameOutcome_insert_unused (kind : (before ++ after).lookup "data_type" = some (.string tag))
    (added : ∀ e ∈ before ++ after, e.1 ≠ key) (unused : Unused tag key v) :
    SameOutcome (decodeField .value) (.object (before ++ after))
      (.object (before ++ (key, v) :: after)) := by
  refine .of_height_le (sameOutcome_decodeField .value _)
    (Json.height_insert_member before after (key, v)) fun room hroom => ?_
  obtain ⟨room, rfl, fit⟩ := Json.exists_room_members hroom
  obtain ⟨m, update, taken⟩ :=
    unused.takenInVain (fit (key, v) (List.mem_append_right _ List.mem_cons_self))
  exact taken.decodeField_eq kind added

end

/-- What is decoded of a value as a record is the same as of another. -/
def Record.SameOutcome : Record → Value → Value → Prop
  | .contentType => Json.SameOutcome decodeContentType
  | .field => Json.SameOutcome (decodeField .value)
  | .block => Json.SameOutcome (decodeBlock .value)

section

variable {v w u u' : Value} {key : String}

theorem sameOutcome_self_put (u : Value) (d : FieldDraft) (m : FieldMember) :
    SameOutcome (fun room => putFieldWithin .value room d m) u u :=
  sameOutcome_put (listsIndependentOfRoom .value u).fields (listsIndependentOfRoom .value u).blocks d m

theorem sameOutcome_self_putBlock (u : Value) (b : Block) (m : BlockMember) :
    SameOutcome (fun room => putBlock (decodeFields .value room) b m) u u :=
  sameOutcome_putBlock (listsIndependentOfRoom .value u).fields b m

theorem sameOutcome_self_putContentType (u : Value) (c : ContentType) (m : ContentTypeMember) :
    SameOutcome (fun room => putContentType (decodeFields .value room) c m) u u :=
  sameOutcome_putContentType (listsIndependentOfRoom .value u).fields c m

theorem Record.SameOutcome.insert_unknown (r : Record) (h : key ∉ r.keys)
    (before after : List (String × Value)) (v : Value) :
    r.SameOutcome (.object (before ++ after)) (.object (before ++ (key, v) :: after)) := by
  cases r with
  | contentType =>
    rw [Record.SameOutcome, decodeContentType_eq_recordWithin]
    exact .insert_unknown sameOutcome_self_putContentType h before after v
  | field =>
    rw [Record.SameOutcome, decodeField_eq_recordWithin]
    exact .bind (.insert_unknown sameOutcome_self_put h before after v) _
  | block =>
    rw [Record.SameOutcome, decodeBlock_eq_recordWithin]
    exact .insert_unknown sameOutcome_self_putBlock h before after v

/-- A list in a record comes to the same if one of its elements is replaced by one that does. -/
theorem Record.SameOutcome.inside {r r' : Record} (h : r'.SameOutcome v w) (lists : r.Lists key r')
    (front back : List Value)
    (replaced : Replaced r.keys key (.array (front ++ v :: back)) (.array (front ++ w :: back)) u u') :
    r.SameOutcome u u' := by
  -- Every record holds a schema, a field holds blocks as well; their decoders differ in type.
  cases lists with
  | schema r =>
    have fields : Json.SameOutcome (decodeFields .value) (.array (front ++ v :: back))
        (.array (front ++ w :: back)) := by
      rw [decodeFields_eq_listWithin]
      exact .list_replaced (sameOutcome_decodeField .value) h front back
    cases r with
    | contentType =>
      rw [Record.SameOutcome, decodeContentType_eq_recordWithin]
      exact .replaced (m := .schema) known_contentTypeShape sameOutcome_self_putContentType
        (fun c => fields.map _) replaced
    | field =>
      rw [Record.SameOutcome, decodeField_eq_recordWithin]
      exact .bind (.replaced (m := .schema) known_fieldShape sameOutcome_self_put
        (fun d => fields.decodeNullable_array.map _) replaced) _
    | block =>
      rw [Record.SameOutcome, decodeBlock_eq_recordWithin]
      exact .replaced (m := .schema) known_blockShape sameOutcome_self_putBlock
        (fun b => fields.map _) replaced
  | blocks =>
    have variants : Json.SameOutcome (decodeBlocks .value) (.array (front ++ v :: back))
        (.array (front ++ w :: back)) := by
      rw [decodeBlocks_eq_listWithin]
      exact .list_replaced (sameOutcome_decodeBlock .value) h front back
    rw [Record.SameOutcome, decodeField_eq_recordWithin]
    exact .bind (.replaced (m := .blocks) known_fieldShape sameOutcome_self_put
      (fun d => variants.decodeNullable_array.map _) replaced) _

theorem Extended.sameOutcome {r : Record} (h : Extended r v w) : r.SameOutcome v w := by
  induction h with
  | unknown h before after v => exact .insert_unknown _ h before after v
  | unused unused before after kind added => exact sameOutcome_insert_unused kind added unused
  | inside _ lists front back replaced ih => exact ih.inside lists front back replaced

end

theorem lookup_insert {α : Type} {key k : String} (h : key ≠ k) (before after : List (String × α))
    (a : α) : (before ++ (key, a) :: after).lookup k = (before ++ after).lookup k := by
  rw [List.lookup_append, List.lookup_append, List.lookup_cons, beq_false_of_ne (Ne.symm h)]

theorem contentTypesOfValue_eq_of_lists {v w list list' : Value} (hv : contentTypeList v = .ok list)
    (hw : contentTypeList w = .ok list') (h : SameOutcome decodeContentTypes list list') :
    contentTypesOfValue v = contentTypesOfValue w := by
  rw [contentTypesOfValue, contentTypesOfValue, hv, hw]
  exact congrArg (Except.mapError ParseError.json) (h _ _ (Nat.le_refl _) (Nat.le_refl _))

theorem ExtendedModel.contentTypesOfValue_eq {v w : Value} (h : ExtendedModel v w) :
    contentTypesOfValue v = contentTypesOfValue w := by
  have lists {v w : Value} (h : Extended .contentType v w) (front back : List Value) :
      SameOutcome decodeContentTypes (.array (front ++ v :: back)) (.array (front ++ w :: back)) := by
    rw [decodeContentTypes_eq_listWithin]
    exact .list_replaced sameOutcome_decodeContentType h.sameOutcome front back
  cases h with
  | @unknown key h before after v =>
    have same : contentTypeList (.object (before ++ after)) =
        contentTypeList (.object (before ++ (key, v) :: after)) := by
      rw [contentTypeList, contentTypeList, Value.member?, Value.member?, lookup_insert h]
    rw [contentTypesOfValue, same, ← contentTypesOfValue]
  | inside h front back => exact contentTypesOfValue_eq_of_lists rfl rfl (lists h front back)
  | @enveloped v w h front back before after =>
    have found (list : Value) : (before ++ ("content_types", list) :: after).lookup "content_types" =
        some ((before.lookup "content_types").getD list) := by
      rw [List.lookup_append, List.lookup_cons_self]
      cases before.lookup "content_types" <;> rfl
    -- Of repeated keys the first counts, so an earlier list hides the edited one.
    cases hfirst : before.lookup "content_types" with
    | none =>
      refine contentTypesOfValue_eq_of_lists ?_ ?_ (lists h front back)
      · rw [contentTypeList, Value.member?, found, hfirst]
        rfl
      · rw [contentTypeList, Value.member?, found, hfirst]
        rfl
    | some first =>
      rw [contentTypesOfValue, contentTypesOfValue, contentTypeList,
        contentTypeList, Value.member?, Value.member?, found, found, hfirst]
      rfl

/-- Members that do not matter may come and go, anywhere in a content model: the content types that are
decoded of it, or the error, stay the same. -/
theorem contentTypesOfValue_ignores_members {v w : Value} (h : Relation.EqvGen ExtendedModel v w) :
    contentTypesOfValue v = contentTypesOfValue w := by
  induction h with
  | rel v w h => exact h.contentTypesOfValue_eq
  | refl v => rfl
  | symm v w _ ih => exact ih.symm
  | trans u v w _ _ first second => exact first.trans second

/-- A note of a content type is changed, and a text field is given a schema. If the field has no uid, the
same error is reported either way. -/
theorem contentTypesOfValue_ignores_members_page :
    let page (note : Value) (title : List (String × Value)) : Value :=
      .array [.object [("note", note), ("uid", .string "page"), ("schema", .array [.object title])]]
    let kind : String × Value := ("data_type", .string "text")
    let uid : String × Value := ("uid", .string "title")
    let schema : String × Value :=
      ("schema", .array [.object [("data_type", .string "file"), ("uid", .string "body")]])
    let read : List ContentType := [⟨"page", "", [.make "title" (.scalar .text)]⟩]
    let error : ParseError := .json (.problem (.missingMember "uid"))
    contentTypesOfValue (page .null [kind, uid]) = .ok read ∧
      contentTypesOfValue (page (.bool true) [kind, uid, schema]) = .ok read ∧
      contentTypesOfValue (page .null [kind]) = .error error ∧
      contentTypesOfValue (page (.bool true) [kind, schema]) = .error error := by
  intro page kind uid schema read error
  have unused : Unused "text" schema.1 schema.2 := by
    refine .schema (by decide) (by decide) (.elements (.array _)) (List.forall_mem_singleton.mpr ?_)
    exact .intro rfl rfl rfl .absent .absent .absent (.elements .absent) (List.forall_mem_nil _)
      (.elements .absent) (List.forall_mem_nil _) .absent (by decide)
  have noted (note : Value) (title : List (String × Value)) : ExtendedModel
      (.array [.object [("uid", .string "page"), ("schema", .array [.object title])]])
      (page note title) := .inside (.unknown (by decide) [] _ note) [] []
  have same (title : List (String × Value)) (hkind : title.lookup "data_type" = some (.string "text"))
      (added : ∀ e ∈ title, e.1 ≠ "schema") :
      contentTypesOfValue (page .null title) =
        contentTypesOfValue (page (.bool true) (title ++ [schema])) := by
    have extended : Extended .field (.object title) (.object (title ++ [schema])) := by
      have h := Extended.unused unused title []
      rw [List.append_nil] at h
      exact h hkind added
    apply contentTypesOfValue_ignores_members
    refine .trans _ _ _ (.symm _ _ (.rel _ _ (noted .null title))) ?_
    refine .trans _ _ _ (.rel _ _ (noted (.bool true) title)) (.rel _ _ (.inside ?_ [] []))
    exact .inside extended (.schema _) [] [] (.named [_, _] [])
  have accepted : contentTypesOfValue (page .null [kind, uid]) = .ok read := rfl
  have refused : contentTypesOfValue (page .null [kind]) = .error error := rfl
  refine ⟨accepted, ?_, refused, ?_⟩
  · exact (same [kind, uid] rfl (by simp [kind, uid])).symm.trans accepted
  · exact (same [kind] rfl (by simp [kind])).symm.trans refused

end ContentSdl
