import ContentSdl.ContentType.Decode
import ContentSdl.Proofs.FieldTree
import ContentSdl.Proofs.RecordDecoding

/-! # Fields, blocks and content types as records

The entries of a record are those of its members, and what those of a kind say depends on the kind. -/

namespace ContentSdl

open Json (Value Node Arrangement Decoded Origin bind_ok map_ok putAll)

theorem known_fieldShape : fieldShape.Known := by
  intro m
  cases m <;> decide

theorem known_blockShape : blockShape.Known := by
  intro m
  cases m <;> decide

theorem known_contentTypeShape : contentTypeShape.Known := by
  intro m
  cases m <;> decide

theorem commutes_put (fields : Node → Decoded (List Field)) (blocks : Node → Decoded (List Block))
    (room : Nat) : Json.Commutes (FieldDraft.put fields blocks room) := by
  intro m m' hne n n' s d hd
  obtain ⟨t, ht, hd⟩ := bind_ok hd
  cases m <;> cases m' <;> try exact absurd rfl hne
  all_goals
    obtain ⟨x, hx, rfl⟩ := map_ok ht
    obtain ⟨y, hy, rfl⟩ := map_ok hd
    simp only [FieldDraft.put, hx, hy]
    rfl

theorem commutes_putBlock (fields : Node → Decoded (List Field)) :
    Json.Commutes (putBlock fields) := by
  intro m m' hne n n' s d hd
  obtain ⟨t, ht, hd⟩ := bind_ok hd
  cases m <;> cases m' <;> try exact absurd rfl hne
  all_goals
    obtain ⟨x, hx, rfl⟩ := map_ok ht
    obtain ⟨y, hy, rfl⟩ := map_ok hd
    simp only [putBlock, hx, hy]
    rfl

theorem commutes_putContentType (fields : Node → Decoded (List Field)) :
    Json.Commutes (putContentType fields) := by
  intro m m' hne n n' s d hd
  obtain ⟨t, ht, hd⟩ := bind_ok hd
  cases m <;> cases m' <;> try exact absurd rfl hne
  all_goals
    obtain ⟨x, hx, rfl⟩ := map_ok ht
    obtain ⟨y, hy, rfl⟩ := map_ok hd
    simp only [putContentType, hx, hy]
    rfl

/-- The entries by which a field tells what it holds. -/
def FieldKind.entries : FieldKind → List (FieldMember × Value)
  | .scalar _ | .file | .unknown _ => []
  | .group schema => [(.schema, .array (schema.map Field.value))]
  | .globalField definition schema =>
    [(.schema, .array (schema.map Field.value)), (.referenceTo, .string definition)]
  | .blocks variants => [(.blocks, .array (variants.map Block.value))]
  | .reference targets => [(.referenceTo, .array (targets.map .string))]

/-- An optional text of a record, as an entry for a member. -/
def optionalEntry {μ : Type} (m : μ) : Option String → List (μ × Value)
  | none => []
  | some s => [(m, .string s)]

namespace Field

/-- The entries of a field that every kind has. -/
def head (f : Field) : List (FieldMember × Value) :=
  [(.uid, .string f.uid), (.dataType, .string f.kind.tag)] ++
    optionalEntry .displayName f.displayName ++
    [(.mandatory, .bool f.mandatory), (.multiple, .bool f.multiple)]

def entries (f : Field) : List (FieldMember × Value) := f.head ++ f.kind.entries

theorem value_eq (f : Field) : f.value = .object (fieldShape.membersOf f.entries) := by
  obtain ⟨uid, displayName, mandatory, multiple, kind⟩ := f
  cases displayName <;> cases kind <;>
    simp [Field.value, FieldKind.members, optionalMember, Json.Shape.membersOf, entries, head,
      optionalEntry, FieldKind.entries, fieldShape, FieldMember.name, fieldValues_eq_map,
      blockValues_eq_map]

theorem nodup_entries (f : Field) : (f.entries.map (·.1)).Nodup := by
  obtain ⟨uid, displayName, mandatory, multiple, kind⟩ := f
  cases displayName <;> cases kind <;>
    simp [entries, head, optionalEntry, FieldKind.entries]

theorem complete_entries (f : Field) : ∀ m ∈ fieldShape.required, m ∈ f.entries.map (·.1) := by
  simp [fieldShape, entries, head]

/-- What the entries that every kind has make of an empty draft. -/
def draft (f : Field) : FieldDraft :=
  { uid := f.uid
    dataType := f.kind.tag
    displayName := f.displayName
    mandatory := f.mandatory
    multiple := f.multiple }

theorem putAll_head (f : Field) (a : Arrangement) (fields : Node → Decoded (List Field))
    (blocks : Node → Decoded (List Block)) (room : Nat) :
    putAll (FieldDraft.put fields blocks room) a {} f.head = .ok f.draft := by
  obtain ⟨uid, displayName, mandatory, multiple, kind⟩ := f
  cases displayName <;> rfl

/-- A field is decoded as soon as the entries of its kind are. -/
theorem decodeField_value_iff (f g : Field) (a : Arrangement) (origin : Origin) (room : Nat) :
    decodeField origin (room + 1) (f.value.arranged a).node = .ok g ↔
      ∃ d, putAll (FieldDraft.put (decodeFields origin room) (decodeBlocks origin room) room)
          a f.draft f.kind.entries = .ok d ∧ d.finish = .ok g := by
  have hrecord := Json.Shape.decodeRecord_arranged_iff known_fieldShape
    (commutes_put (decodeFields origin room) (decodeBlocks origin room) room) a f.nodup_entries
    f.complete_entries origin {}
  have hentries : putAll
      (FieldDraft.put (decodeFields origin room) (decodeBlocks origin room) room) a {} f.entries =
      putAll (FieldDraft.put (decodeFields origin room) (decodeBlocks origin room) room)
        a f.draft f.kind.entries := by
    rw [entries, Json.putAll_append, putAll_head]
    rfl
  rw [hentries, ← f.value_eq] at hrecord
  rw [decodeField]
  constructor
  · intro h
    obtain ⟨d, hd, hfinish⟩ := bind_ok h
    exact ⟨d, (hrecord d).mp hd, hfinish⟩
  · rintro ⟨d, hd, hfinish⟩
    rw [(hrecord d).mpr hd]
    exact hfinish

theorem height_lt_of_mem_entries (f : Field) (a : Arrangement) {e : FieldMember × Value}
    (he : e ∈ f.kind.entries) : (e.2.arranged a).height < (f.value.arranged a).height := by
  rw [f.value_eq]
  exact Json.Shape.height_lt_of_mem known_fieldShape a f.nodup_entries (List.mem_append_right _ he)

end Field

theorem targetsOfValue?_strings (targets : List String) :
    targetsOfValue? (.array (targets.map .string)) = some targets := by
  rw [targetsOfValue?, List.mapM_map]
  induction targets with
  | nil => rfl
  | cons target targets ih =>
    rw [List.mapM_cons, ih]
    rfl

theorem mapError_eq_ok_iff {ε ε' α : Type} {r : Except ε α} {g : ε → ε'} {x : α} :
    r.mapError g = .ok x ↔ r = .ok x := by
  cases r with
  | error e => exact iff_of_false nofun nofun
  | ok y => exact ⟨fun h => by cases h; rfl, fun h => by cases h; rfl⟩

theorem decodeTargets_eq_ok_iff {room : Nat} {n : Node} {targets : List String} :
    decodeTargets room n = .ok targets ↔
      ∃ v, n.value room = .ok v ∧ targetsOfValue? v = some targets := by
  rw [decodeTargets, Json.fromFault]
  constructor
  · intro h
    obtain ⟨v, hv, h⟩ := bind_ok h
    refine ⟨v, mapError_eq_ok_iff.mp hv, ?_⟩
    cases htargets : targetsOfValue? v with
    | none => simp only [htargets, reduceCtorEq] at h
    | some targets' =>
      simp only [htargets] at h
      rw [Except.ok.inj h]
  · rintro ⟨v, hv, htargets⟩
    rw [mapError_eq_ok_iff.mpr hv]
    simp only [htargets, bind, Except.bind]
    rfl

section

variable (fields : Node → Decoded (List Field)) (blocks : Node → Decoded (List Block)) (room : Nat)
  (a : Arrangement) (d : FieldDraft)

theorem putAll_schema (vs : List Value) :
    putAll (FieldDraft.put fields blocks room) a d [(.schema, .array vs)] =
      (fields ((Value.array vs).arranged a).node).map fun schema => { d with schema := schema } := by
  rw [Json.putAll_singleton]
  exact Json.map_decodeNullable_array fields a vs _

theorem putAll_blocks (vs : List Value) :
    putAll (FieldDraft.put fields blocks room) a d [(.blocks, .array vs)] =
      (blocks ((Value.array vs).arranged a).node).map fun variants =>
        { d with variants := variants } := by
  rw [Json.putAll_singleton]
  exact Json.map_decodeNullable_array blocks a vs _

theorem putAll_global (vs : List Value) (definition : String) :
    putAll (FieldDraft.put fields blocks room) a d
        [(.schema, .array vs), (.referenceTo, .string definition)] =
      (fields ((Value.array vs).arranged a).node).map fun schema =>
        { d with schema := schema, targets := [definition] } := by
  have hdefinition (d : FieldDraft) : putAll (FieldDraft.put fields blocks room) a d
      [(.referenceTo, .string definition)] = .ok { d with targets := [definition] } := by
    rw [Json.putAll_singleton, Value.arranged_string]
    rfl
  rw [← List.singleton_append, Json.putAll_append, putAll_schema]
  simp only [hdefinition]
  cases fields ((Value.array vs).arranged a).node with
  | error e => rfl
  | ok schema => rfl

theorem putAll_targets (targets : List String) (hroom : 0 < room) :
    putAll (FieldDraft.put fields blocks room) a d
        [(.referenceTo, .array (targets.map .string))] =
      .ok { d with targets := targets } := by
  have harranged : (Value.array (targets.map .string)).arranged a = .array (targets.map .string) := by
    simp [Value.arranged_array]
  have hsorted : (Value.array (targets.map .string)).Sorted := by
    refine .array fun v hv => ?_
    obtain ⟨target, -, rfl⟩ := List.mem_map.mp hv
    exact .string target
  have hheight : (Value.array (targets.map .string)).height ≤ room := by
    rw [Value.height_array, Nat.succ_le_iff]
    refine Nat.lt_of_le_of_lt (Value.heights_le_iff.mpr fun v hv => ?_) hroom
    obtain ⟨target, -, rfl⟩ := List.mem_map.mp hv
    exact Nat.le_refl 0
  have htargets : decodeTargets room (Value.array (targets.map .string)).node = .ok targets :=
    decodeTargets_eq_ok_iff.mpr
      ⟨_, Json.Node.value_node hsorted hheight, targetsOfValue?_strings targets⟩
  rw [Json.putAll_singleton, harranged]
  change (decodeTargets room _).map _ = _
  rw [htargets]
  rfl

end

namespace Block

def entries (b : Block) : List (BlockMember × Value) :=
  [(.uid, .string b.uid)] ++ optionalEntry .title b.title ++
    [(.schema, .array (b.schema.map Field.value))]

theorem value_eq (b : Block) : b.value = .object (blockShape.membersOf b.entries) := by
  obtain ⟨uid, title, schema⟩ := b
  cases title <;>
    simp [Block.value, optionalMember, Json.Shape.membersOf, entries, optionalEntry, blockShape,
      BlockMember.name, fieldValues_eq_map]

theorem nodup_entries (b : Block) : (b.entries.map (·.1)).Nodup := by
  obtain ⟨uid, title, schema⟩ := b
  cases title <;> simp [entries, optionalEntry]

theorem complete_entries (b : Block) : ∀ m ∈ blockShape.required, m ∈ b.entries.map (·.1) := by
  simp [blockShape, entries]

theorem putAll_entries (b : Block) (fields : Node → Decoded (List Field)) (a : Arrangement) :
    putAll (putBlock fields) a emptyBlock b.entries =
      (fields ((Value.array (b.schema.map Field.value)).arranged a).node).map fun schema =>
        { b with schema := schema } := by
  obtain ⟨uid, title, schema⟩ := b
  have hhead : putAll (putBlock fields) a emptyBlock
      ([(.uid, .string uid)] ++ optionalEntry .title title) = .ok ⟨uid, title, []⟩ := by
    cases title <;> rfl
  rw [entries, Json.putAll_append, hhead]
  change putAll (putBlock fields) a ⟨uid, title, []⟩ _ = _
  rw [Json.putAll_singleton]
  rfl

theorem height_schema_lt (b : Block) (a : Arrangement) :
    ((Value.array (b.schema.map Field.value)).arranged a).height < (b.value.arranged a).height := by
  rw [b.value_eq]
  exact Json.Shape.height_lt_of_mem known_blockShape a b.nodup_entries
    (List.mem_append_right _ List.mem_cons_self)

/-- A block is decoded as such if its schema is. -/
theorem decodeBlock_value_iff (b : Block) (a : Arrangement) (origin : Origin) (room : Nat) :
    decodeBlock origin (room + 1) (b.value.arranged a).node = .ok b ↔
      decodeFields origin room ((Value.array (b.schema.map Field.value)).arranged a).node =
        .ok b.schema := by
  rw [decodeBlock, b.value_eq,
    Json.Shape.decodeRecord_arranged_iff known_blockShape (commutes_putBlock _) a b.nodup_entries
      b.complete_entries, putAll_entries]
  constructor
  · intro h
    obtain ⟨schema, hschema, hb⟩ := map_ok h
    rw [hschema, ← congrArg Block.schema hb]
  · intro h
    rw [h]
    obtain ⟨uid, title, schema⟩ := b
    rfl

end Block

namespace ContentType

def entries (c : ContentType) : List (ContentTypeMember × Value) :=
  [(.uid, .string c.uid), (.title, .string c.title),
    (.schema, .array (c.schema.map Field.value))]

theorem value_eq (c : ContentType) : c.value = .object (contentTypeShape.membersOf c.entries) := by
  simp [ContentType.value, Json.Shape.membersOf, entries, contentTypeShape, ContentTypeMember.name,
    fieldValues_eq_map]

theorem nodup_entries (c : ContentType) : (c.entries.map (·.1)).Nodup := by
  simp [entries]

theorem complete_entries (c : ContentType) :
    ∀ m ∈ contentTypeShape.required, m ∈ c.entries.map (·.1) := by
  simp [contentTypeShape, entries]

theorem height_schema_lt (c : ContentType) (a : Arrangement) :
    ((Value.array (c.schema.map Field.value)).arranged a).height < (c.value.arranged a).height := by
  rw [c.value_eq]
  exact Json.Shape.height_lt_of_mem known_contentTypeShape a c.nodup_entries
    (List.mem_append_right [_, _] List.mem_cons_self)

/-- A content type is decoded as such if its schema is. -/
theorem decodeContentType_value_iff (c : ContentType) (a : Arrangement) (room : Nat) :
    decodeContentType (room + 1) (c.value.arranged a).node = .ok c ↔
      decodeFields .value room ((Value.array (c.schema.map Field.value)).arranged a).node =
        .ok c.schema := by
  have hentries : putAll (putContentType (decodeFields .value room)) a ⟨"", "", []⟩
        c.entries =
      (decodeFields .value room ((Value.array (c.schema.map Field.value)).arranged a).node).map
        fun schema => { c with schema := schema } := by
    have hhead : putAll (putContentType (decodeFields .value room)) a ⟨"", "", []⟩
        [(.uid, .string c.uid), (.title, .string c.title)] = .ok ⟨c.uid, c.title, []⟩ := rfl
    change putAll _ a _ ([_, _] ++ [_]) = _
    rw [Json.putAll_append, hhead]
    change putAll _ a (ContentType.mk c.uid c.title []) _ = _
    rw [Json.putAll_singleton]
    rfl
  rw [decodeContentType, c.value_eq,
    Json.Shape.decodeRecord_arranged_iff known_contentTypeShape (commutes_putContentType _) a
      c.nodup_entries c.complete_entries, hentries]
  constructor
  · intro h
    obtain ⟨schema, hschema, hc⟩ := map_ok h
    rw [hschema, ← congrArg ContentType.schema hc]
  · intro h
    rw [h]
    rfl

end ContentType

end ContentSdl
