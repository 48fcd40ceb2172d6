import ContentSdl.Proofs.DecodingPaths

/-! # What has been read can be written and read again

Writing adds lists that a text may do without: an empty schema, or no blocks. Such a list is added inside
an object, and the fields or blocks that it could hold are objects again, so lists stand on odd levels
only. What fits into an odd number of nested containers is written in no more of them. -/

namespace ContentSdl

namespace Json

section

variable {μ σ : Type} {put : σ → μ → Node → Decoded σ} {P : σ → Prop}

private theorem invariant_of_foldlM (step : ∀ s m n s', P s → put s m n = .ok s' → P s')
    {es : List (μ × Node)} {start d : σ} (hstart : P start)
    (h : es.foldlM (fun s e => put s e.1 e.2) start = .ok d) : P d := by
  induction es generalizing start with
  | nil => cases h; exact hstart
  | cons e es ih =>
    rw [List.foldlM_cons] at h
    obtain ⟨s, hs, h⟩ := bind_ok h
    exact ih (step start e.1 e.2 s hstart hs) h

/-- What every put keeps holds of a record that is decoded. -/
theorem invariant_of_decodeRecord [DecidableEq μ] {shape : Shape μ} {origin : Origin}
    (step : ∀ s m n s', P s → put s m n = .ok s' → P s') {start d : σ} {n : Node} (hstart : P start)
    (h : decodeRecord shape origin (some put) start n = .ok d) : P d := by
  have filled {e : Entries μ} (h : e.fill put start = .ok d) : P d := by
    obtain ⟨draft, hdraft, h⟩ := bind_ok h
    obtain ⟨-, -, h⟩ := bind_ok h
    cases h
    exact invariant_of_foldlM step hstart hdraft
  cases n with
  | array ns ending => exact filled h
  | object ms ending => exact filled h
  | broken | null | bool | string | number => simp [decodeRecord] at h

end

/-- Every element of a list has been decoded of a node. -/
theorem exists_of_decodeList {α : Type} {element? : Option (Node → Decoded α)} {n : Node}
    {as : List α} (h : decodeList element? n = .ok as) {a : α} (ha : a ∈ as) :
    ∃ element n, element? = some element ∧ element n = .ok a := by
  obtain ⟨element, ns, helement, -, hns⟩ := decodeList_eq_ok_iff.mp h
  obtain ⟨n, -, hn⟩ := exists_related (mapM_eq_ok_iff.mp hns).flip ha
  exact ⟨element, n, helement, hn⟩

/-- Null stands for an empty list. -/
theorem forall_mem_of_decodeNullable {α : Type} {decode : Node → Decoded (List α)} {P : α → Prop}
    {n : Node} (each : ∀ as, decode n = .ok as → ∀ a ∈ as, P a) {as? : Option (List α)}
    (h : decodeNullable decode n = .ok as?) : ∀ a ∈ as?.getD [], P a := by
  have decoded (h : (decode n).map some = .ok as?) : ∀ a ∈ as?.getD [], P a := by
    obtain ⟨as, has, rfl⟩ := map_ok h
    exact each as has
  cases n with
  | null => cases h; exact List.forall_mem_nil _
  | broken | bool | string | number | array | object => exact decoded h

end Json

open Json (Value Node Document Decoded Origin bind_ok map_ok nestingLimit)

/-- A field is written in at most so many nested containers, and all kinds in it are genuine. -/
structure Field.Fits (room : Nat) (f : Field) : Prop where
  genuine : f.kind.Genuine ∧ Genuine f.children
  height : f.value.height ≤ room

/-- A block is written in at most so many nested containers, and all kinds in it are genuine. -/
structure Block.Fits (room : Nat) (b : Block) : Prop where
  genuine : Genuine b.schema
  height : b.value.height ≤ room

/-- A content type is written in at most so many nested containers, and all kinds in it are genuine. -/
structure ContentType.Fits (room : Nat) (c : ContentType) : Prop where
  genuine : Genuine c.schema
  height : c.value.height ≤ room

section

variable {room : Nat}

theorem genuine_of_fits {fs : List Field} (h : ∀ f ∈ fs, f.Fits room) : Genuine fs :=
  genuine_iff.mpr fun f hf => (h f hf).genuine

theorem height_array_map_le {α : Type} {encode : α → Value} {as : List α}
    (h : ∀ a ∈ as, (encode a).height ≤ room) : (Value.array (as.map encode)).height ≤ room + 1 := by
  rw [Value.height_array]
  apply Nat.succ_le_succ
  rw [Value.heights_le_iff, List.forall_mem_map]
  exact h

theorem height_schema_le {fs : List Field} (h : ∀ f ∈ fs, f.Fits room) :
    (Value.array (fs.map Field.value)).height ≤ room + 1 :=
  height_array_map_le fun f hf => (h f hf).height

theorem height_membersOf_le {μ : Type} {shape : Json.Shape μ} {es : List (μ × Value)}
    (h : ∀ e ∈ es, e.2.height ≤ room) : (Value.object (shape.membersOf es)).height ≤ room + 1 := by
  rw [Value.height_object]
  apply Nat.succ_le_succ
  rw [Value.memberHeights_le_iff, Json.Shape.membersOf, List.forall_mem_map]
  exact h

theorem height_optionalEntry {μ : Type} {m : μ} {s : Option String} :
    ∀ e ∈ optionalEntry m s, e.2.height ≤ room := by
  cases s with
  | none => exact List.forall_mem_nil _
  | some s => exact List.forall_mem_singleton.mpr (Nat.zero_le _)

theorem Field.height_value_le {f : Field} (h : ∀ e ∈ f.kind.entries, e.2.height ≤ room) :
    f.value.height ≤ room + 1 := by
  rw [f.value_eq]
  apply height_membersOf_le
  rw [entries, head]
  simp only [List.forall_mem_append, List.forall_mem_cons]
  exact ⟨⟨⟨⟨Nat.zero_le _, Nat.zero_le _, List.forall_mem_nil _⟩, height_optionalEntry⟩, Nat.zero_le _,
    Nat.zero_le _, List.forall_mem_nil _⟩, h⟩

theorem Block.fits_of_schema {b : Block} (h : ∀ f ∈ b.schema, f.Fits room) :
    b.Fits (room + 2) where
  genuine := genuine_of_fits h
  height := by
    rw [b.value_eq]
    apply height_membersOf_le
    rw [entries]
    simp only [List.forall_mem_append, List.forall_mem_singleton]
    exact ⟨⟨Nat.zero_le _, height_optionalEntry⟩, height_schema_le h⟩

theorem ContentType.fits_of_schema {c : ContentType} (h : ∀ f ∈ c.schema, f.Fits room) :
    c.Fits (room + 2) where
  genuine := genuine_of_fits h
  height := by
    rw [c.value_eq]
    apply height_membersOf_le
    rw [entries]
    simp only [List.forall_mem_cons]
    exact ⟨Nat.zero_le _, Nat.zero_le _, height_schema_le h, List.forall_mem_nil _⟩

/-- The lists that a draft has taken up fit. -/
structure FieldDraft.Fits (room : Nat) (d : FieldDraft) : Prop where
  schema : ∀ f ∈ d.schema, f.Fits room
  variants : ∀ b ∈ d.variants, b.Fits room

/-- A kind is made of the lists of the draft, and is not known only if its tag is not. -/
theorem FieldDraft.Fits.finish {d : FieldDraft} (h : d.Fits room) {f : Field}
    (hf : d.finish = .ok f) : f.Fits (room + 2) := by
  have schema := height_schema_le h.schema
  have variants : (Value.array (d.variants.map Block.value)).height ≤ room + 1 :=
    height_array_map_le fun b hb => (h.variants b hb).height
  have targets : (Value.array (d.targets.map .string)).height ≤ room + 1 :=
    height_array_map_le fun _ _ => Nat.zero_le _
  have known := genuine_of_fits h.schema
  obtain ⟨kind, hkind, rfl⟩ := map_ok hf
  rw [FieldDraft.kind] at hkind
  split_ifs at hkind with hfile hgroup hglobal hblocks hreference
  · cases hkind
    exact ⟨⟨trivial, genuine_nil⟩, Field.height_value_le (List.forall_mem_nil _)⟩
  · cases hkind
    exact ⟨⟨trivial, known⟩, Field.height_value_le (List.forall_mem_singleton.mpr schema)⟩
  · split at hkind
    · cases hkind
      refine ⟨⟨trivial, known⟩, Field.height_value_le ?_⟩
      exact List.forall_mem_cons.mpr ⟨schema, List.forall_mem_singleton.mpr (Nat.zero_le _)⟩
    · cases hkind
  · cases hkind
    refine ⟨⟨trivial, genuine_flatMap.mpr fun b hb => (h.variants b hb).genuine⟩, ?_⟩
    exact Field.height_value_le (List.forall_mem_singleton.mpr variants)
  · cases hkind
    exact ⟨⟨trivial, genuine_nil⟩, Field.height_value_le (List.forall_mem_singleton.mpr targets)⟩
  · split at hkind
    · cases hkind
      exact ⟨⟨trivial, genuine_nil⟩, Field.height_value_le (List.forall_mem_nil _)⟩
    · rename_i hscalar
      cases hkind
      have tag : d.dataType ∉ FieldKind.knownTags := by
        apply (kind_eq_unknown_iff rfl).mp
        rw [FieldDraft.kind, if_neg hfile, if_neg hgroup, if_neg hglobal, if_neg hblocks,
          if_neg hreference, hscalar]
      exact ⟨⟨tag, genuine_nil⟩, Field.height_value_le (List.forall_mem_nil _)⟩

end

section

variable {origin : Origin} {room bound : Nat}

/-- What is decoded of lists of fields and of blocks fits. -/
structure ListsFit (origin : Origin) (room bound : Nat) : Prop where
  fields : ∀ n fs, decodeFields origin room n = .ok fs → ∀ f ∈ fs, f.Fits bound
  blocks : ∀ n bs, decodeBlocks origin room n = .ok bs → ∀ b ∈ bs, b.Fits bound

theorem ListsFit.put (h : ListsFit origin room bound) (d : FieldDraft) (m : FieldMember) (n : Node)
    (d' : FieldDraft) (hd : d.Fits bound)
    (hput : d.put (decodeFields origin room) (decodeBlocks origin room) room m n = .ok d') :
    d'.Fits bound := by
  cases m with
  | uid | dataType | displayName | mandatory | multiple | referenceTo =>
    obtain ⟨_, -, rfl⟩ := map_ok hput
    exact ⟨hd.schema, hd.variants⟩
  | schema =>
    obtain ⟨fs, hfs, rfl⟩ := map_ok hput
    exact ⟨Json.forall_mem_of_decodeNullable (h.fields n) hfs, hd.variants⟩
  | blocks =>
    obtain ⟨bs, hbs, rfl⟩ := map_ok hput
    exact ⟨hd.schema, Json.forall_mem_of_decodeNullable (h.blocks n) hbs⟩

theorem ListsFit.field (h : ListsFit origin room bound) {n : Node} {f : Field}
    (hf : decodeField origin (room + 1) n = .ok f) : f.Fits (bound + 2) := by
  rw [decodeField] at hf
  obtain ⟨d, hd, hf⟩ := bind_ok hf
  have empty : FieldDraft.Fits bound {} := ⟨List.forall_mem_nil _, List.forall_mem_nil _⟩
  exact (Json.invariant_of_decodeRecord h.put empty hd).finish hf

theorem ListsFit.block (h : ListsFit origin room bound) {n : Node} {b : Block}
    (hb : decodeBlock origin (room + 1) n = .ok b) : b.Fits (bound + 2) := by
  rw [decodeBlock] at hb
  have step (b : Block) (m : BlockMember) (n : Node) (b' : Block)
      (hb : ∀ f ∈ b.schema, f.Fits bound)
      (hput : putBlock (decodeFields origin room) b m n = .ok b') :
      ∀ f ∈ b'.schema, f.Fits bound := by
    cases m with
    | uid | title =>
      obtain ⟨_, -, rfl⟩ := map_ok hput
      exact hb
    | schema =>
      obtain ⟨fs, hfs, rfl⟩ := map_ok hput
      exact h.fields n fs hfs
  have empty : ∀ f ∈ ([] : List Field), f.Fits bound := List.forall_mem_nil _
  exact Block.fits_of_schema (Json.invariant_of_decodeRecord step empty hb)

theorem ListsFit.contentType (h : ListsFit .value room bound) {n : Node} {c : ContentType}
    (hc : decodeContentType (room + 1) n = .ok c) : c.Fits (bound + 2) := by
  rw [decodeContentType] at hc
  have step (c : ContentType) (m : ContentTypeMember) (n : Node) (c' : ContentType)
      (hc : ∀ f ∈ c.schema, f.Fits bound)
      (hput : putContentType (decodeFields .value room) c m n = .ok c') :
      ∀ f ∈ c'.schema, f.Fits bound := by
    cases m with
    | uid | title =>
      obtain ⟨_, -, rfl⟩ := map_ok hput
      exact hc
    | schema =>
      obtain ⟨fs, hfs, rfl⟩ := map_ok hput
      exact h.fields n fs hfs
  have empty : ∀ f ∈ ([] : List Field), f.Fits bound := List.forall_mem_nil _
  exact ContentType.fits_of_schema (Json.invariant_of_decodeRecord step empty hc)

/-- Lists with anything in them take two containers, one for the list and one for the element. -/
private theorem exists_of_mem_of_decoder {α : Type} {list : Nat → Node → Decoded (List α)}
    {element : Nat → Node → Decoded α} (closed : list 0 = Json.decodeList none)
    (opened : ∀ r, list (r + 1) = Json.decodeList (some (element r)))
    (record : ∀ n a, element 0 n ≠ .ok a) {n : Node} {as : List α} (h : list room n = .ok as)
    {a : α} (ha : a ∈ as) : ∃ r n, room = r + 2 ∧ element (r + 1) n = .ok a := by
  match room with
  | 0 =>
    rw [closed] at h
    exact absurd h (Json.decodeList_none_ne_ok n as)
  | 1 =>
    rw [opened] at h
    obtain ⟨_, n, ⟨⟩, hn⟩ := Json.exists_of_decodeList h ha
    exact absurd hn (record n a)
  | r + 2 =>
    rw [opened] at h
    obtain ⟨_, n, ⟨⟩, hn⟩ := Json.exists_of_decodeList h ha
    exact ⟨r, n, rfl, hn⟩

theorem exists_of_mem_decodeFields {n : Node} {fs : List Field}
    (h : decodeFields origin room n = .ok fs) {f : Field} (hf : f ∈ fs) :
    ∃ r n, room = r + 2 ∧ decodeField origin (r + 1) n = .ok f := by
  refine exists_of_mem_of_decoder ?_ (fun r => ?_) (fun n f h => ?_) h hf
  · rw [decodeFields]
  · rw [decodeFields]
  · rw [decodeField] at h
    obtain ⟨d, hd, -⟩ := bind_ok h
    exact Json.decodeRecord_none_ne_ok hd

theorem exists_of_mem_decodeBlocks {n : Node} {bs : List Block}
    (h : decodeBlocks origin room n = .ok bs) {b : Block} (hb : b ∈ bs) :
    ∃ r n, room = r + 2 ∧ decodeBlock origin (r + 1) n = .ok b := by
  refine exists_of_mem_of_decoder ?_ (fun r => ?_) (fun n b h => ?_) h hb
  · rw [decodeBlocks]
  · rw [decodeBlocks]
  · rw [decodeBlock] at h
    exact Json.decodeRecord_none_ne_ok h

theorem exists_of_mem_decodeContentTypes {n : Node} {cs : List ContentType}
    (h : decodeContentTypes room n = .ok cs) {c : ContentType} (hc : c ∈ cs) :
    ∃ r n, room = r + 2 ∧ decodeContentType (r + 1) n = .ok c := by
  refine exists_of_mem_of_decoder rfl (fun _ => rfl) (fun n c h => ?_) h hc
  rw [decodeContentType] at h
  exact Json.decodeRecord_none_ne_ok h

theorem listsFit (origin : Origin) {k room : Nat} (hr : room ≤ 2 * k + 1) :
    ListsFit origin room (2 * k) := by
  -- The bound is even: what a field adds is an empty list in an object, two levels for the list and the
  -- object that were read.
  induction k generalizing room with
  | zero =>
    constructor
    · intro n fs h f hf
      obtain ⟨r, -, rfl, -⟩ := exists_of_mem_decodeFields h hf
      omega
    · intro n bs h b hb
      obtain ⟨r, -, rfl, -⟩ := exists_of_mem_decodeBlocks h hb
      omega
  | succ k ih =>
    constructor
    · intro n fs h f hf
      obtain ⟨r, n, rfl, hf⟩ := exists_of_mem_decodeFields h hf
      have inner : ListsFit origin r (2 * k) := ih (by omega)
      exact inner.field hf
    · intro n bs h b hb
      obtain ⟨r, n, rfl, hb⟩ := exists_of_mem_decodeBlocks h hb
      have inner : ListsFit origin r (2 * k) := ih (by omega)
      exact inner.block hb

/-- Content types take the levels that blocks do. -/
theorem contentTypes_fit {k : Nat} (hr : room ≤ 2 * k + 1) {n : Node} {cs : List ContentType}
    (h : decodeContentTypes room n = .ok cs) : ∀ c ∈ cs, c.Fits (2 * k) := by
  intro c hc
  obtain ⟨r, n, rfl, hc⟩ := exists_of_mem_decodeContentTypes h hc
  obtain ⟨k, rfl⟩ : ∃ j, k = j + 1 := ⟨k - 1, by omega⟩
  have inner : ListsFit .value r (2 * k) := listsFit .value (by omega)
  exact inner.contentType hc

end

/-- The limit is odd. -/
theorem nestingLimit_eq : nestingLimit = 2 * 63 + 1 := rfl

theorem fieldsText_reads_back {text : String} {fs : List Field} (h : parseFields text = .ok fs) :
    parseFields (fieldsText fs) = .ok fs := by
  obtain ⟨decoded, -⟩ := parseFields_eq_ok_iff.mp h
  have fit := (listsFit .text (Nat.le_of_eq nestingLimit_eq)).fields _ fs decoded
  apply (parseFields_fieldsText_iff fs _).mpr (genuine_of_fits fit)
  rw [fieldValues_eq_map]
  exact height_schema_le fit

/-- The list of content types is not nested deeper than the text. -/
theorem height_contentTypeList_le {v list : Value} (h : contentTypeList v = .ok list) :
    list.height ≤ v.height := by
  cases v with
  | array vs =>
    cases h
    exact Nat.le_refl _
  | object ms =>
    rw [contentTypeList, Value.member?] at h
    split at h
    · rename_i value found
      cases h
      have member : ("content_types", list) ∈ ms := by
        obtain ⟨before, after, rfl, -⟩ := List.lookup_eq_some_iff.mp found
        exact List.mem_append_right before List.mem_cons_self
      rw [Value.height_object]
      exact Nat.le_succ_of_le (Value.memberHeights_le_iff.mp (Nat.le_refl _) _ member)
    · cases h
  | null | bool | number | string => cases h

theorem contentTypesText_reads_back {text : String} {cs : List ContentType}
    (h : parseContentTypes text = .ok cs) : parseContentTypes (contentTypesText cs) = .ok cs := by
  rw [parseContentTypes] at h
  obtain ⟨v, hv, h⟩ := bind_ok h
  obtain ⟨list, hlist, h⟩ := bind_ok h
  have read := mapError_eq_ok_iff.mp hv
  have decoded := mapError_eq_ok_iff.mp h
  obtain ⟨hvalue, -⟩ := Json.Document.finish_eq_ok_iff.mp read
  have room : list.height ≤ 2 * 63 + 1 :=
    (height_contentTypeList_le hlist).trans (Node.value_fits hvalue).2
  have fit := contentTypes_fit room decoded
  apply (parseContentTypes_contentTypesText_iff cs _).mpr fun c hc => (fit c hc).genuine
  exact height_array_map_le fun c hc => (fit c hc).height

/-- What is read of a text, fields or content types, is read again of the text that it is written as. -/
theorem reads_back_whenever_read :
    (∀ text fs, parseFields text = .ok fs → parseFields (fieldsText fs) = .ok fs) ∧
    ∀ text cs, parseContentTypes text = .ok cs → parseContentTypes (contentTypesText cs) = .ok cs :=
  ⟨fun _ _ => fieldsText_reads_back, fun _ _ => contentTypesText_reads_back⟩

/-- A group without a schema, written as an array, and a reference to one target; content types in an
envelope. -/
theorem reads_back_lenient :
    let text := "[[\"hero\",\"group\"]," ++
      "\x7b\"uid\":\"next\",\"data_type\":\"reference\",\"reference_to\":\"page\"\x7d]"
    let fs : List Field := [.make "hero" (.group []), .make "next" (.reference ["page"])]
    let envelope := "\x7b\"content_types\":[\x7b\"uid\":\"page\"\x7d]\x7d"
    let cs : List ContentType := [⟨"page", "", []⟩]
    parseFields text = .ok fs ∧ parseFields (fieldsText fs) = .ok fs ∧
      parseContentTypes envelope = .ok cs ∧ parseContentTypes (contentTypesText cs) = .ok cs := by
  intro text fs envelope cs
  obtain ⟨fields, contentTypes⟩ := reads_back_whenever_read
  have read : parseFields text = .ok fs := by
    dsimp only [text, fs]
    cbv
  have value : Value.ofText nestingLimit envelope =
      .ok (.object [("content_types", .array [.object [("uid", .string "page")]])]) := by
    dsimp only [envelope]
    cbv
  have read' : parseContentTypes envelope = .ok cs := by
    rw [parseContentTypes_of_ofText value]
    rfl
  exact ⟨read, fields text fs read, read', contentTypes envelope cs read'⟩

end ContentSdl
