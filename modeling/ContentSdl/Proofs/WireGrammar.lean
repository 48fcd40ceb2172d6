import ContentSdl.Proofs.DecodingPaths
import ContentSdl.Proofs.RecordMembers

/-! # The values that are lists of fields

Two relations say which fields and blocks a value spells, and two predicates which values are well
formed. What values spell is decoded of them, and the well-formed ones are those that spell something. -/

namespace ContentSdl

open Json (Value Node Decoded Origin bind_ok map_ok)
open Json.Shape (Reads putValue bind_putValue_eq_ok_iff)

inductive OptionalText : Option Value → Option String → Prop where
  | absent : OptionalText none none
  | null : OptionalText (some .null) none
  | text (s : String) : OptionalText (some (.string s)) (some s)

/-- A flag is not set unless it is given. -/
inductive Flag : Option Value → Bool → Prop where
  | absent : Flag none false
  | given (b : Bool) : Flag (some (.bool b)) b

/-- The elements of a list that need not be there. -/
inductive Elements : Option Value → List Value → Prop where
  | absent : Elements none []
  | array (vs : List Value) : Elements (some (.array vs)) vs

/-- The elements of a list that need not be there and may be null. -/
inductive NullableElements : Option Value → List Value → Prop where
  | null : NullableElements (some .null) []
  | elements {o : Option Value} {vs : List Value} (h : Elements o vs) : NullableElements o vs

/-- None, one or a list. -/
inductive Targets : Option Value → List String → Prop where
  | absent : Targets none []
  | null : Targets (some .null) []
  | one (target : String) : Targets (some (.string target)) [target]
  | listed (targets : List String) : Targets (some (.array (targets.map .string))) targets

/-- The kind that a tag names, with what the members give it. -/
inductive NamesKind (schema : List Field) (variants : List Block) (targets : List String) :
    String → FieldKind → Prop where
  | scalar (kind : ScalarKind) : NamesKind schema variants targets kind.tag (.scalar kind)
  | file : NamesKind schema variants targets "file" .file
  | group : NamesKind schema variants targets "group" (.group schema)
  | globalField {definition : String} (one : targets = [definition]) :
    NamesKind schema variants targets "global_field" (.globalField definition schema)
  | blocks : NamesKind schema variants targets "blocks" (.blocks variants)
  | reference : NamesKind schema variants targets "reference" (.reference targets)
  | unknown {tag : String} (h : tag ∉ FieldKind.knownTags) :
    NamesKind schema variants targets tag (.unknown tag)

mutual
/-- A value that is a field, whatever the field is. -/
inductive WellFormed : Value → Prop where
  | intro {v : Value} {r : FieldMember → Option Value} {uid tag : String}
    {displayName : Option String} {mandatory multiple : Bool} {schema blocks : List Value}
    {targets : List String}
    (record : fieldShape.record? v = some r)
    (hasUid : r .uid = some (.string uid))
    (hasTag : r .dataType = some (.string tag))
    (hasDisplayName : OptionalText (r .displayName) displayName)
    (hasMandatory : Flag (r .mandatory) mandatory)
    (hasMultiple : Flag (r .multiple) multiple)
    (hasSchema : NullableElements (r .schema) schema) (fields : ∀ w ∈ schema, WellFormed w)
    (hasBlocks : NullableElements (r .blocks) blocks) (variants : ∀ w ∈ blocks, WellFormedBlock w)
    (hasTargets : Targets (r .referenceTo) targets)
    (globalField : tag = "global_field" → targets.length = 1) : WellFormed v

inductive WellFormedBlock : Value → Prop where
  | intro {v : Value} {r : BlockMember → Option Value} {uid : String} {title : Option String}
    {schema : List Value}
    (record : blockShape.record? v = some r)
    (hasUid : r .uid = some (.string uid))
    (hasTitle : OptionalText (r .title) title)
    (hasSchema : Elements (r .schema) schema) (fields : ∀ w ∈ schema, WellFormed w) :
    WellFormedBlock v
end

mutual
/-- The field that a value is. -/
inductive Spells : Value → Field → Prop where
  | intro {v : Value} {r : FieldMember → Option Value} {uid tag : String}
    {displayName : Option String} {mandatory multiple : Bool} {schema blocks : List Value}
    {fields : List Field} {variants : List Block} {targets : List String} {kind : FieldKind}
    (record : fieldShape.record? v = some r)
    (hasUid : r .uid = some (.string uid))
    (hasTag : r .dataType = some (.string tag))
    (hasDisplayName : OptionalText (r .displayName) displayName)
    (hasMandatory : Flag (r .mandatory) mandatory)
    (hasMultiple : Flag (r .multiple) multiple)
    (hasSchema : NullableElements (r .schema) schema) (spellFields : List.Forall₂ Spells schema fields)
    (hasBlocks : NullableElements (r .blocks) blocks)
    (spellBlocks : List.Forall₂ SpellsBlock blocks variants)
    (hasTargets : Targets (r .referenceTo) targets)
    (hasKind : NamesKind fields variants targets tag kind) :
    Spells v ⟨uid, displayName, mandatory, multiple, kind⟩

inductive SpellsBlock : Value → Block → Prop where
  | intro {v : Value} {r : BlockMember → Option Value} {uid : String} {title : Option String}
    {schema : List Value} {fields : List Field}
    (record : blockShape.record? v = some r)
    (hasUid : r .uid = some (.string uid))
    (hasTitle : OptionalText (r .title) title)
    (hasSchema : Elements (r .schema) schema) (spellFields : List.Forall₂ Spells schema fields) :
    SpellsBlock v ⟨uid, title, fields⟩
end

theorem decodeString_node_iff {v : Value} {s : String} :
    Json.decodeString v.node = .ok s ↔ v = .string s := by
  rw [Json.decodeString_eq_ok_iff]
  constructor
  · rintro ⟨x, hx, hs⟩
    cases v with
    | string s' => cases hx; cases hs; rfl
    | null | bool | number | array | object => cases hx
  · rintro rfl
    exact ⟨_, rfl, rfl⟩

theorem decodeBool_node_iff {v : Value} {b : Bool} :
    Json.decodeBool v.node = .ok b ↔ v = .bool b := by
  rw [Json.decodeBool_eq_ok_iff]
  constructor
  · intro h
    cases v with
    | bool b' => cases h; rfl
    | null | string | number | array | object => cases h
  · rintro rfl
    rfl

theorem decodeNullable_node_iff {α : Type} {decode : Node → Decoded α} {v : Value} {a : Option α} :
    Json.decodeNullable decode v.node = .ok a ↔
      v = .null ∧ a = none ∨ v ≠ .null ∧ ∃ b, decode v.node = .ok b ∧ a = some b := by
  have present (h : v ≠ .null) : Json.decodeNullable decode v.node = (decode v.node).map some := by
    cases v with
    | null => exact (h rfl).elim
    | bool | number | string | array | object => rfl
  by_cases h : v = .null
  · subst h
    simp [Json.decodeNullable, Value.node, eq_comm]
  · rw [present h]
    constructor
    · intro ha
      obtain ⟨b, hb, rfl⟩ := map_ok ha
      exact .inr ⟨h, b, hb, rfl⟩
    · rintro (⟨hnull, -⟩ | ⟨-, b, hb, rfl⟩)
      · exact (h hnull).elim
      · rw [hb]
        rfl

section

variable {o : Option Value}

theorem reads_string_iff (h : o ≠ none) {s : String} :
    Reads Json.decodeString "" o s ↔ o = some (.string s) := by
  constructor
  · rintro ⟨⟩
    · exact (h rfl).elim
    · rename_i hs
      rw [decodeString_node_iff.mp hs]
  · rintro rfl
    exact .present (decodeString_node_iff.mpr rfl)

theorem reads_optionalText_iff {t : Option String} :
    Reads (Json.decodeNullable Json.decodeString) none o t ↔ OptionalText o t := by
  constructor
  · rintro ⟨⟩
    · exact .absent
    · rename_i ht
      rcases decodeNullable_node_iff.mp ht with ⟨rfl, rfl⟩ | ⟨-, s, hs, rfl⟩
      · exact .null
      · rw [decodeString_node_iff.mp hs]
        exact .text s
  · rintro ⟨⟩
    · exact .absent
    · exact .present rfl
    · exact .present rfl

theorem reads_flag_iff {b : Bool} : Reads Json.decodeBool false o b ↔ Flag o b := by
  constructor
  · rintro ⟨⟩
    · exact .absent
    · rename_i hb
      rw [decodeBool_node_iff.mp hb]
      exact .given b
  · rintro ⟨⟩
    · exact .absent
    · exact .present rfl

/-- The elements of a list are decoded one by one. -/
theorem reads_elements_iff {α : Type} {decode : Node → Decoded (List α)} {R : Value → α → Prop}
    (each : ∀ v, o = some v → ∀ as, decode v.node = .ok as ↔
      ∃ vs, v = .array vs ∧ List.Forall₂ R vs as) {as : List α} :
    Reads decode [] o as ↔ ∃ vs, Elements o vs ∧ List.Forall₂ R vs as := by
  constructor
  · rintro ⟨⟩
    · exact ⟨[], .absent, .nil⟩
    · rename_i h
      obtain ⟨vs, rfl, hvs⟩ := (each _ rfl _).mp h
      exact ⟨vs, .array vs, hvs⟩
  · rintro ⟨vs, ⟨⟩, hvs⟩
    · cases hvs
      exact .absent
    · exact .present ((each _ rfl _).mpr ⟨vs, rfl, hvs⟩)

theorem reads_nullableElements_iff {α : Type} {decode : Node → Decoded (List α)}
    {R : Value → α → Prop} (each : ∀ v, o = some v → ∀ as, decode v.node = .ok as ↔
      ∃ vs, v = .array vs ∧ List.Forall₂ R vs as) {as : List α} :
    Reads (fun n => (Json.decodeNullable decode n).map (·.getD [])) [] o as ↔
      ∃ vs, NullableElements o vs ∧ List.Forall₂ R vs as := by
  constructor
  · rintro ⟨⟩
    · exact ⟨[], .elements .absent, .nil⟩
    · rename_i h
      obtain ⟨b, hb, rfl⟩ := map_ok h
      rcases decodeNullable_node_iff.mp hb with ⟨rfl, rfl⟩ | ⟨-, as, has, rfl⟩
      · exact ⟨[], .null, .nil⟩
      · obtain ⟨vs, rfl, hvs⟩ := (each _ rfl _).mp has
        exact ⟨vs, .elements (.array vs), hvs⟩
  · rintro ⟨vs, hel, hvs⟩
    cases hel with
    | null =>
      cases hvs
      exact .present rfl
    | elements hel =>
      cases hel with
      | absent =>
        cases hvs
        exact .absent
      | array =>
        have has := (each _ rfl as).mpr ⟨vs, rfl, hvs⟩
        have hnull : Json.decodeNullable decode (Value.array vs).node = .ok (some as) :=
          decodeNullable_node_iff.mpr (.inr ⟨by simp, as, has, rfl⟩)
        exact .present (by rw [hnull]; rfl)

theorem reads_targets_iff {room : Nat} (fits : ∀ v, o = some v → v.height ≤ room)
    {targets : List String} :
    Reads (decodeTargets room) [] o targets ↔ Targets o targets := by
  constructor
  · rintro ⟨⟩
    · exact .absent
    · rename_i v h
      obtain ⟨v', hv', htargets⟩ := decodeTargets_eq_ok_iff.mp h
      cases v with
      | null => cases hv'; cases htargets; exact .null
      | string s => cases hv'; cases htargets; exact .one s
      | bool | number => cases hv'; cases htargets
      | array vs =>
        obtain ⟨r, vs', -, -, rfl, each⟩ := Json.exists_of_value_array hv'
        obtain rfl := targetsOfValue?_array_eq_some htargets
        rw [Json.elementNodes_eq_map, List.forall₂_map_left_iff, List.forall₂_map_right_iff] at each
        have strings : List.Forall₂ (fun v target => v = .string target) vs targets :=
          each.imp fun v target h => decodeString_node_iff.mp (value_eq_string_iff.mp h)
        rw [← List.forall₂_map_right_iff, List.forall₂_eq_eq_eq] at strings
        rw [strings]
        exact .listed targets
      | object ms =>
        obtain ⟨r, es, -, -, rfl, -⟩ := Json.exists_of_value_object hv'
        cases htargets
  · rintro ⟨⟩
    · exact .absent
    · exact .present rfl
    · exact .present rfl
    · refine .present (decodeTargets_eq_ok_iff.mpr ⟨_, ?_, targetsOfValue?_strings targets⟩)
      apply Node.value_node _ (fits _ rfl)
      exact .array (List.forall_mem_map.mpr fun target _ => .string target)

theorem kind_eq_ok_iff {d : FieldDraft} {kind : FieldKind} :
    d.kind = .ok kind ↔ NamesKind d.schema d.variants d.targets d.dataType kind := by
  constructor
  · intro h
    generalize htag : d.dataType = tag
    rw [FieldDraft.kind, htag] at h
    split_ifs at h with hfile hgroup hglobal hblocks hreference
    · cases h
      exact hfile ▸ .file
    · cases h
      exact hgroup ▸ .group
    · split at h
      · rename_i one
        cases h
        exact hglobal ▸ .globalField one
      · cases h
    · cases h
      exact hblocks ▸ .blocks
    · cases h
      exact hreference ▸ .reference
    · cases hscalar : ScalarKind.ofTag? tag with
      | some k =>
        rw [hscalar] at h
        cases h
        exact ScalarKind.tag_of_ofTag? hscalar ▸ .scalar k
      | none =>
        rw [hscalar] at h
        cases h
        refine .unknown ((kind_eq_unknown_iff htag).mp ?_)
        rw [FieldDraft.kind, htag, if_neg hfile, if_neg hgroup, if_neg hglobal, if_neg hblocks,
          if_neg hreference, hscalar]
  · intro h
    generalize htag : d.dataType = tag at h
    cases h with
    | scalar kind =>
      rw [FieldDraft.kind, htag]
      cases kind <;> rfl
    | file | group | blocks | reference => simp [FieldDraft.kind, htag]
    | globalField one => simp [FieldDraft.kind, htag, one]
    | unknown htags => exact (kind_eq_unknown_iff htag).mpr htags

end

theorem requiredFirst_fieldShape : fieldShape.RequiredFirst := by
  unfold Json.Shape.RequiredFirst
  decide

theorem requiredFirst_blockShape : blockShape.RequiredFirst := by
  unfold Json.Shape.RequiredFirst
  decide

section

variable {fields : Node → Decoded (List Field)} {blocks : Node → Decoded (List Block)} {room : Nat}

theorem put_schema (d : FieldDraft) (n : Node) : FieldDraft.put fields blocks room d .schema n =
    ((Json.decodeNullable fields n).map (·.getD [])).map ({ d with schema := · }) := by
  rw [FieldDraft.put]
  cases Json.decodeNullable fields n <;> rfl

theorem put_blocks (d : FieldDraft) (n : Node) : FieldDraft.put fields blocks room d .blocks n =
    ((Json.decodeNullable blocks n).map (·.getD [])).map ({ d with variants := · }) := by
  rw [FieldDraft.put]
  cases Json.decodeNullable blocks n <;> rfl

theorem putAll_field_eq_ok_iff {r : FieldMember → Option Value} {β : Type}
    {finish : FieldDraft → Decoded β} {b : β} :
    (fieldShape.members.foldlM (putValue (FieldDraft.put fields blocks room) r) {} >>=
        finish) = .ok b ↔
      ∃ uid, Reads Json.decodeString "" (r .uid) uid ∧
      ∃ tag, Reads Json.decodeString "" (r .dataType) tag ∧
      ∃ displayName, Reads (Json.decodeNullable Json.decodeString) none (r .displayName) displayName ∧
      ∃ mandatory, Reads Json.decodeBool false (r .mandatory) mandatory ∧
      ∃ multiple, Reads Json.decodeBool false (r .multiple) multiple ∧
      ∃ schema, Reads (fun n => (Json.decodeNullable fields n).map (·.getD [])) [] (r .schema) schema ∧
      ∃ variants, Reads (fun n => (Json.decodeNullable blocks n).map (·.getD [])) [] (r .blocks)
        variants ∧
      ∃ targets, Reads (decodeTargets room) [] (r .referenceTo) targets ∧
        finish ⟨uid, tag, displayName, mandatory, multiple, schema, variants, targets⟩ = .ok b := by
  simp only [fieldShape, List.foldlM_cons, List.foldlM_nil, bind_assoc, pure_bind]
  refine bind_putValue_eq_ok_iff (fun _ => rfl) rfl fun uid => ?_
  refine bind_putValue_eq_ok_iff (fun _ => rfl) rfl fun tag => ?_
  refine bind_putValue_eq_ok_iff (fun _ => rfl) rfl fun displayName => ?_
  refine bind_putValue_eq_ok_iff (fun _ => rfl) rfl fun mandatory => ?_
  refine bind_putValue_eq_ok_iff (fun _ => rfl) rfl fun multiple => ?_
  refine bind_putValue_eq_ok_iff (put_schema _) rfl fun schema => ?_
  refine bind_putValue_eq_ok_iff (put_blocks _) rfl fun variants => ?_
  exact bind_putValue_eq_ok_iff (fun _ => rfl) rfl fun targets => Iff.rfl

theorem putAll_block_eq_ok_iff {r : BlockMember → Option Value} {b : Block} :
    blockShape.members.foldlM (putValue (putBlock fields) r) emptyBlock = .ok b ↔
      ∃ uid, Reads Json.decodeString "" (r .uid) uid ∧
      ∃ title, Reads (Json.decodeNullable Json.decodeString) none (r .title) title ∧
      ∃ schema, Reads fields [] (r .schema) schema ∧ ⟨uid, title, schema⟩ = b := by
  simp only [blockShape, List.foldlM_cons, List.foldlM_nil]
  refine bind_putValue_eq_ok_iff (fun _ => rfl) rfl fun uid => ?_
  refine bind_putValue_eq_ok_iff (fun _ => rfl) rfl fun title => ?_
  exact bind_putValue_eq_ok_iff (fun _ => rfl) rfl fun schema =>
    ⟨Except.ok.inj, congrArg Except.ok⟩

end

/-- In some room the decoders of lists find what the elements of values spell. -/
structure ListsSpelled (origin : Origin) (room : Nat) : Prop where
  fields : ∀ v : Value, v.height ≤ room → ∀ fs, decodeFields origin room v.node = .ok fs ↔
    ∃ vs, v = .array vs ∧ List.Forall₂ Spells vs fs
  blocks : ∀ v : Value, v.height ≤ room → ∀ bs, decodeBlocks origin room v.node = .ok bs ↔
    ∃ vs, v = .array vs ∧ List.Forall₂ SpellsBlock vs bs

section

variable {origin : Origin} {room : Nat}

theorem decodeList_node_iff {α : Type} {element : Node → Decoded α} {R : Value → α → Prop}
    (each : ∀ v : Value, v.height ≤ room → ∀ a, element v.node = .ok a ↔ R v a) {v : Value}
    (hv : v.height ≤ room + 1) {as : List α} :
    Json.decodeList (some element) v.node = .ok as ↔
      ∃ vs, v = .array vs ∧ List.Forall₂ R vs as := by
  have pointwise {vs : List Value} (h : ∀ w ∈ vs, w.height ≤ room) :
      (vs.map Value.node).mapM element = .ok as ↔ List.Forall₂ R vs as := by
    rw [Json.mapM_eq_ok_iff, List.forall₂_map_left_iff]
    constructor
    · intro hvs
      exact ((List.forall₂_and_left _ _).mpr ⟨h, hvs⟩).imp fun w a hw => (each w hw.1 a).mp hw.2
    · intro hvs
      exact ((List.forall₂_and_left _ _).mpr ⟨h, hvs⟩).imp fun w a hw => (each w hw.1 a).mpr hw.2
  rw [Json.decodeList_eq_ok_iff]
  constructor
  · rintro ⟨_, ns, ⟨⟩, hns, h⟩
    cases v with
    | array vs =>
      cases hns
      rw [Json.Value.height_array, Nat.succ_le_succ_iff, Json.Value.heights_le_iff] at hv
      rw [Json.elementNodes_eq_map] at h
      exact ⟨vs, rfl, (pointwise hv).mp h⟩
    | null | bool | number | string | object => cases hns
  · rintro ⟨vs, rfl, hvs⟩
    rw [Json.Value.height_array, Nat.succ_le_succ_iff, Json.Value.heights_le_iff] at hv
    refine ⟨element, vs.map Value.node, rfl, ?_, (pointwise hv).mpr hvs⟩
    rw [Value.node, Json.elementNodes_eq_map]

theorem decodeField_node_iff {v : Value} {f : Field} :
    decodeField origin (room + 1) v.node = .ok f ↔
      ∃ r, fieldShape.record? v = some r ∧ (∀ m ∈ fieldShape.required, r m ≠ none) ∧
        (fieldShape.members.foldlM (putValue (FieldDraft.put (decodeFields origin room)
          (decodeBlocks origin room) room) r) {} >>= FieldDraft.finish) = .ok f := by
  have record (d : FieldDraft) : Json.decodeRecord fieldShape origin
      (some (FieldDraft.put (decodeFields origin room) (decodeBlocks origin room) room)) {} v.node =
        .ok d ↔ _ :=
    Json.Shape.decodeRecord_node_iff known_fieldShape nodup_fieldShape requiredFirst_fieldShape
      (commutes_put _ _ _)
  rw [decodeField]
  constructor
  · intro h
    obtain ⟨d, hd, hf⟩ := bind_ok h
    obtain ⟨r, hr, required, hput⟩ := (record d).mp hd
    exact ⟨r, hr, required, by rw [hput]; exact hf⟩
  · rintro ⟨r, hr, required, h⟩
    obtain ⟨d, hput, hf⟩ := bind_ok h
    rw [(record d).mpr ⟨r, hr, required, hput⟩]
    exact hf

theorem ListsSpelled.decodeField_iff (lists : ListsSpelled origin room) {v : Value}
    (hv : v.height ≤ room + 1) {f : Field} :
    decodeField origin (room + 1) v.node = .ok f ↔ Spells v f := by
  have fits {r : FieldMember → Option Value} (record : fieldShape.record? v = some r)
      {m : FieldMember} {w : Value} (hw : r m = some w) : w.height ≤ room := by
    have := Json.Shape.height_lt_of_record? record hw
    omega
  rw [decodeField_node_iff]
  constructor
  · rintro ⟨r, record, required, h⟩
    obtain ⟨uid, hasUid, tag, hasTag, displayName, hasDisplayName, mandatory, hasMandatory, multiple,
      hasMultiple, schema, hasSchema, variants, hasBlocks, targets, hasTargets, hfinish⟩ :=
      putAll_field_eq_ok_iff.mp h
    obtain ⟨fieldValues, hfields, spellFields⟩ :=
      (reads_nullableElements_iff fun w hw => lists.fields w (fits record hw)).mp hasSchema
    obtain ⟨blockValues, hblocks, spellBlocks⟩ :=
      (reads_nullableElements_iff fun w hw => lists.blocks w (fits record hw)).mp hasBlocks
    obtain ⟨kind, hkind, rfl⟩ := map_ok hfinish
    exact .intro record ((reads_string_iff (required .uid (by decide))).mp hasUid)
      ((reads_string_iff (required .dataType (by decide))).mp hasTag)
      (reads_optionalText_iff.mp hasDisplayName) (reads_flag_iff.mp hasMandatory)
      (reads_flag_iff.mp hasMultiple) hfields spellFields hblocks spellBlocks
      ((reads_targets_iff fun w hw => fits record hw).mp hasTargets) (kind_eq_ok_iff.mp hkind)
  · rintro ⟨record, hasUid, hasTag, hasDisplayName, hasMandatory, hasMultiple, hasSchema,
      spellFields, hasBlocks, spellBlocks, hasTargets, hasKind⟩
    refine ⟨_, record, by simp [fieldShape, hasUid, hasTag], putAll_field_eq_ok_iff.mpr ?_⟩
    refine ⟨_, (reads_string_iff (by simp [hasUid])).mpr hasUid,
      _, (reads_string_iff (by simp [hasTag])).mpr hasTag,
      _, reads_optionalText_iff.mpr hasDisplayName, _, reads_flag_iff.mpr hasMandatory,
      _, reads_flag_iff.mpr hasMultiple,
      _, (reads_nullableElements_iff fun w hw => lists.fields w (fits record hw)).mpr
        ⟨_, hasSchema, spellFields⟩,
      _, (reads_nullableElements_iff fun w hw => lists.blocks w (fits record hw)).mpr
        ⟨_, hasBlocks, spellBlocks⟩,
      _, (reads_targets_iff fun w hw => fits record hw).mpr hasTargets, ?_⟩
    rw [FieldDraft.finish, kind_eq_ok_iff.mpr hasKind]
    rfl

theorem ListsSpelled.decodeBlock_iff (lists : ListsSpelled origin room) {v : Value}
    (hv : v.height ≤ room + 1) {b : Block} :
    decodeBlock origin (room + 1) v.node = .ok b ↔ SpellsBlock v b := by
  have fits {r : BlockMember → Option Value} (record : blockShape.record? v = some r)
      {m : BlockMember} {w : Value} (hw : r m = some w) : w.height ≤ room := by
    have := Json.Shape.height_lt_of_record? record hw
    omega
  rw [decodeBlock, Json.Shape.decodeRecord_node_iff known_blockShape nodup_blockShape
    requiredFirst_blockShape (commutes_putBlock _)]
  constructor
  · rintro ⟨r, record, required, h⟩
    obtain ⟨uid, hasUid, title, hasTitle, schema, hasSchema, rfl⟩ := putAll_block_eq_ok_iff.mp h
    obtain ⟨fieldValues, hfields, spellFields⟩ :=
      (reads_elements_iff fun w hw => lists.fields w (fits record hw)).mp hasSchema
    exact .intro record ((reads_string_iff (required .uid (by decide))).mp hasUid)
      (reads_optionalText_iff.mp hasTitle) hfields spellFields
  · rintro ⟨record, hasUid, hasTitle, hasSchema, spellFields⟩
    refine ⟨_, record, by simp [blockShape, hasUid], putAll_block_eq_ok_iff.mpr ?_⟩
    exact ⟨_, (reads_string_iff (by simp [hasUid])).mpr hasUid,
      _, reads_optionalText_iff.mpr hasTitle,
      _, (reads_elements_iff fun w hw => lists.fields w (fits record hw)).mpr
        ⟨_, hasSchema, spellFields⟩, rfl⟩

theorem record?_of_height {μ : Type} [DecidableEq μ] (shape : Json.Shape μ) {v : Value}
    (h : v.height ≤ 0) : shape.record? v = none := by
  cases v with
  | null | bool | number | string => rfl
  | array vs => exact absurd h (by simp)
  | object ms => exact absurd h (by simp)

theorem decodeList_none_iff {α : Type} {R : Value → α → Prop} {v : Value} (hv : v.height ≤ 0)
    {as : List α} : Json.decodeList none v.node = .ok as ↔
      ∃ vs, v = .array vs ∧ List.Forall₂ R vs as := by
  refine iff_of_false (Json.decodeList_none_ne_ok _ _) ?_
  rintro ⟨vs, rfl, -⟩
  exact absurd hv (by simp)

/-- Where containers may be nested as deep as in a value, the decoders find what the value spells. -/
theorem decode_iff_spells (origin : Origin) (room : Nat) : ListsSpelled origin room ∧
    (∀ v : Value, v.height ≤ room → ∀ f, decodeField origin room v.node = .ok f ↔ Spells v f) ∧
    ∀ v : Value, v.height ≤ room → ∀ b, decodeBlock origin room v.node = .ok b ↔ SpellsBlock v b := by
  induction room with
  | zero =>
    refine ⟨⟨fun v hv fs => ?_, fun v hv bs => ?_⟩, fun v hv f => ?_, fun v hv b => ?_⟩
    · rw [decodeFields]
      exact decodeList_none_iff hv
    · rw [decodeBlocks]
      exact decodeList_none_iff hv
    · refine iff_of_false (fun h => ?_) ?_
      · rw [decodeField] at h
        obtain ⟨d, hd, -⟩ := bind_ok h
        exact Json.decodeRecord_none_ne_ok hd
      · rintro ⟨record⟩
        rw [record?_of_height fieldShape hv] at record
        cases record
    · refine iff_of_false (fun h => ?_) ?_
      · rw [decodeBlock] at h
        exact Json.decodeRecord_none_ne_ok h
      · rintro ⟨record⟩
        rw [record?_of_height blockShape hv] at record
        cases record
  | succ room ih =>
    obtain ⟨lists, fields, blocks⟩ := ih
    -- Lists pass a level on to their elements, and records to the lists in them.
    refine ⟨⟨fun v hv fs => ?_, fun v hv bs => ?_⟩, fun v hv f => lists.decodeField_iff hv,
      fun v hv b => lists.decodeBlock_iff hv⟩
    · rw [decodeFields]
      exact decodeList_node_iff fields hv
    · rw [decodeBlocks]
      exact decodeList_node_iff blocks hv

end

section

variable {schema : List Field} {variants : List Block} {targets : List String} {tag : String}

theorem exists_kind (h : tag = "global_field" → targets.length = 1) :
    ∃ kind, NamesKind schema variants targets tag kind := by
  by_cases hknown : tag ∈ FieldKind.knownTags
  · rcases List.mem_append.mp hknown with hscalar | hother
    · obtain ⟨kind, -, rfl⟩ := List.mem_map.mp hscalar
      exact ⟨_, .scalar kind⟩
    · simp only [List.mem_cons, List.not_mem_nil, or_false] at hother
      rcases hother with rfl | rfl | rfl | rfl | rfl
      · exact ⟨_, .file⟩
      · exact ⟨_, .group⟩
      · obtain ⟨definition, one⟩ := List.length_eq_one_iff.mp (h rfl)
        exact ⟨_, .globalField one⟩
      · exact ⟨_, .blocks⟩
      · exact ⟨_, .reference⟩
  · exact ⟨_, .unknown hknown⟩

theorem length_targets_of_namesKind {kind : FieldKind}
    (h : NamesKind schema variants targets tag kind) (htag : tag = "global_field") :
    targets.length = 1 := by
  cases h with
  | scalar kind => cases kind <;> exact absurd htag (by decide)
  | globalField one => rw [one, List.length_singleton]
  | file | group | blocks | reference => exact absurd htag (by decide)
  | unknown h => exact (h (htag ▸ by decide)).elim

end

/-- The elements of a list in a record are nested less deep than the record. -/
theorem height_le_of_nullableElements {μ : Type} [DecidableEq μ] {shape : Json.Shape μ} {v : Value}
    {r : μ → Option Value} (record : shape.record? v = some r) {room : Nat}
    (hv : v.height ≤ room + 1) {m : μ} {vs : List Value} (h : NullableElements (r m) vs) :
    ∀ w ∈ vs, w.height ≤ room := by
  intro w hw
  generalize ho : r m = o at h
  rcases h with _ | ⟨_ | _⟩
  · cases hw
  · cases hw
  · have hlist := Json.Shape.height_lt_of_record? record ho
    rw [Json.Value.height_array] at hlist
    have hle := Json.Value.heights_le_iff.mp (Nat.le_refl _) w hw
    omega

theorem forall_mem_iff_exists_forall₂ {α β : Type} {p : α → Prop} {R : α → β → Prop} {as : List α}
    (h : ∀ a ∈ as, p a ↔ ∃ b, R a b) : (∀ a ∈ as, p a) ↔ ∃ bs, List.Forall₂ R as bs := by
  constructor
  · intro each
    exact Json.exists_forall₂ fun a ha => (h a ha).mp (each a ha)
  · rintro ⟨bs, hbs⟩ a ha
    obtain ⟨b, -, hb⟩ := Json.exists_related hbs ha
    exact (h a ha).mpr ⟨b, hb⟩

theorem wellFormed_iff_spells (room : Nat) :
    (∀ v : Value, v.height ≤ room → (WellFormed v ↔ ∃ f, Spells v f)) ∧
      ∀ v : Value, v.height ≤ room → (WellFormedBlock v ↔ ∃ b, SpellsBlock v b) := by
  induction room with
  | zero =>
    refine ⟨fun v hv => iff_of_false ?_ ?_, fun v hv => iff_of_false ?_ ?_⟩
    · rintro ⟨record⟩
      cases (record?_of_height fieldShape hv).symm.trans record
    · rintro ⟨f, ⟨record⟩⟩
      cases (record?_of_height fieldShape hv).symm.trans record
    · rintro ⟨record⟩
      cases (record?_of_height blockShape hv).symm.trans record
    · rintro ⟨b, ⟨record⟩⟩
      cases (record?_of_height blockShape hv).symm.trans record
  | succ room ih =>
    obtain ⟨ihFields, ihBlocks⟩ := ih
    have fields {vs : List Value} (fits : ∀ w ∈ vs, w.height ≤ room) :
        (∀ w ∈ vs, WellFormed w) ↔ ∃ fs, List.Forall₂ Spells vs fs :=
      forall_mem_iff_exists_forall₂ fun w hw => ihFields w (fits w hw)
    have blocks {vs : List Value} (fits : ∀ w ∈ vs, w.height ≤ room) :
        (∀ w ∈ vs, WellFormedBlock w) ↔ ∃ bs, List.Forall₂ SpellsBlock vs bs :=
      forall_mem_iff_exists_forall₂ fun w hw => ihBlocks w (fits w hw)
    refine ⟨fun v hv => ⟨?_, ?_⟩, fun v hv => ⟨?_, ?_⟩⟩
    · rintro ⟨record, hasUid, hasTag, hasDisplayName, hasMandatory, hasMultiple, hasSchema, inSchema,
        hasBlocks, inBlocks, hasTargets, globalField⟩
      obtain ⟨fs, spellFields⟩ :=
        (fields (height_le_of_nullableElements record hv hasSchema)).mp inSchema
      obtain ⟨bs, spellBlocks⟩ :=
        (blocks (height_le_of_nullableElements record hv hasBlocks)).mp inBlocks
      obtain ⟨kind, hasKind⟩ := exists_kind globalField
      exact ⟨_, .intro record hasUid hasTag hasDisplayName hasMandatory hasMultiple hasSchema
        spellFields hasBlocks spellBlocks hasTargets hasKind⟩
    · rintro ⟨f, ⟨record, hasUid, hasTag, hasDisplayName, hasMandatory, hasMultiple, hasSchema,
        spellFields, hasBlocks, spellBlocks, hasTargets, hasKind⟩⟩
      have inSchema := (fields (height_le_of_nullableElements record hv hasSchema)).mpr
        ⟨_, spellFields⟩
      have inBlocks := (blocks (height_le_of_nullableElements record hv hasBlocks)).mpr
        ⟨_, spellBlocks⟩
      exact .intro record hasUid hasTag hasDisplayName hasMandatory hasMultiple hasSchema inSchema
        hasBlocks inBlocks hasTargets (length_targets_of_namesKind hasKind)
    · rintro ⟨record, hasUid, hasTitle, hasSchema, inSchema⟩
      obtain ⟨fs, spellFields⟩ :=
        (fields (height_le_of_nullableElements record hv (.elements hasSchema))).mp inSchema
      exact ⟨_, .intro record hasUid hasTitle hasSchema spellFields⟩
    · rintro ⟨b, ⟨record, hasUid, hasTitle, hasSchema, spellFields⟩⟩
      have inSchema := (fields (height_le_of_nullableElements record hv (.elements hasSchema))).mpr
        ⟨_, spellFields⟩
      exact .intro record hasUid hasTitle hasSchema inSchema

/-- A value is decoded as a list of fields if and only if it is an array of well-formed values, and
then of each of them the field is decoded that it spells. -/
theorem fieldsOfValue_iff (v : Value) :
    ((∃ fs, fieldsOfValue v = .ok fs) ↔ ∃ vs, v = .array vs ∧ ∀ w ∈ vs, WellFormed w) ∧
      ∀ fs, fieldsOfValue v = .ok fs ↔ ∃ vs, v = .array vs ∧ List.Forall₂ Spells vs fs := by
  have spelled (fs : List Field) :
      fieldsOfValue v = .ok fs ↔ ∃ vs, v = .array vs ∧ List.Forall₂ Spells vs fs :=
    (decode_iff_spells .value v.height).1.fields v (Nat.le_refl _) fs
  refine ⟨?_, spelled⟩
  have each (w : Value) : WellFormed w ↔ ∃ f, Spells w f :=
    (wellFormed_iff_spells w.height).1 w (Nat.le_refl _)
  constructor
  · rintro ⟨fs, h⟩
    obtain ⟨vs, rfl, hvs⟩ := (spelled fs).mp h
    exact ⟨vs, rfl, (forall_mem_iff_exists_forall₂ fun w _ => each w).mpr ⟨fs, hvs⟩⟩
  · rintro ⟨vs, rfl, hvs⟩
    obtain ⟨fs, hfs⟩ := (forall_mem_iff_exists_forall₂ fun w _ => each w).mp hvs
    exact ⟨fs, (spelled fs).mpr ⟨vs, rfl, hfs⟩⟩

/-- The schema of a text field is not kept, but it must be one. -/
example :
    let title (schema : Value) : Value := .object [("data_type", .string "text"),
      ("schema", .array [schema]), ("uid", .string "title")]
    let body : Value := .array [.string "body", .string "rich"]
    (fieldsOfValue (.array [title body]) = .ok [.make "title" (.scalar .text)]) ∧
      (fieldsOfValue (.array [title .null])).isOk = false :=
  ⟨rfl, rfl⟩

end ContentSdl
