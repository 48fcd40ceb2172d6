import ContentSdl.Proofs.NodeAgreement
import ContentSdl.Proofs.RoundTrip
import Mathlib.Data.List.Permutation

/-! # Fields are decoded alike of a text and of its value

A text is decoded while it is read, a value when it is complete. The tree of the text is related to
either, and decoders give the same of related nodes. -/

namespace ContentSdl

open Json (Value Node Document Decoded Origin Simulation Matches bind_ok map_ok nestingLimit)

theorem targetsOfValue?_array_eq_some {vs : List Value} {targets : List String}
    (h : targetsOfValue? (.array vs) = some targets) : vs = targets.map .string := by
  rw [targetsOfValue?] at h
  induction vs generalizing targets with
  | nil =>
    cases h
    rfl
  | cons v vs ih =>
    rw [List.mapM_cons] at h
    obtain ⟨target, hv, h⟩ := Option.bind_eq_some_iff.mp h
    obtain ⟨targets, hvs, h⟩ := Option.bind_eq_some_iff.mp h
    cases h
    cases v with
    | string s =>
      cases hv
      rw [ih hvs, List.map_cons]
    | null | bool | number | array | object => cases hv

theorem value_eq_string_iff {n : Node} {room : Nat} {s : String} :
    n.value room = .ok (.string s) ↔ Json.decodeString n = .ok s := by
  rw [Json.decodeString_eq_ok_iff]
  constructor
  · intro h
    cases n with
    | broken | null | bool => cases h
    | number x =>
      obtain ⟨a, -, ha⟩ := map_ok h
      cases ha
    | string x =>
      obtain ⟨a, hx, ha⟩ := map_ok h
      cases ha
      exact ⟨x, rfl, hx⟩
    | array ns ending =>
      obtain ⟨r, vs, -, -, hv, -⟩ := Json.exists_of_value_array h
      cases hv
    | object ms ending =>
      obtain ⟨r, es, -, -, hv, -⟩ := Json.exists_of_value_object h
      cases hv
  · rintro ⟨x, rfl, hx⟩
    rw [Node.value, hx]
    rfl

theorem nodup_fieldShape : fieldShape.members.Nodup := by decide

theorem nodup_blockShape : blockShape.members.Nodup := by decide

section

variable {R : Nat → Nat → Node → Node → Prop}

theorem strings_of_simulation (sim : Simulation R) {room room' : Nat} {ns ns' : List Node}
    (related : List.Forall₂ (R room room') ns ns') {targets : List String}
    (each : List.Forall₂ (fun n v => n.value room = .ok v) ns (targets.map .string)) :
    List.Forall₂ (fun n v => n.value room' = .ok v) ns' (targets.map .string) := by
  rw [List.forall₂_map_right_iff] at each ⊢
  refine Json.forall₂_through (fun n n' target h hn => ?_) related each
  have hmatch := sim room room' n n' h
  exact value_eq_string_iff.mpr (hmatch.decodeString (value_eq_string_iff.mp hn))

theorem decodeTargets_of_simulation (sim : Simulation R) {room room' : Nat} {n n' : Node}
    (h : R room room' n n') {targets : List String} (ht : decodeTargets room n = .ok targets) :
    decodeTargets room' n' = .ok targets := by
  obtain ⟨v, hv, htargets⟩ := decodeTargets_eq_ok_iff.mp ht
  have hmatch := sim room room' n n' h
  cases hmatch with
  | broken => cases hv
  | null => exact ht
  | bool => exact ht
  | number =>
    obtain ⟨x, -, rfl⟩ := map_ok hv
    cases htargets
  | string hx =>
    obtain ⟨s, hs, rfl⟩ := map_ok hv
    refine decodeTargets_eq_ok_iff.mpr ⟨.string s, ?_, htargets⟩
    exact value_eq_string_iff.mpr (Json.decodeString_eq_ok_iff.mpr ⟨_, rfl, hx.trans hs⟩)
  | array ending hns =>
    obtain ⟨r, vs, rfl, rfl, rfl, each⟩ := Json.exists_of_value_array hv
    obtain ⟨r', rfl, related⟩ := hns r rfl
    obtain rfl := targetsOfValue?_array_eq_some htargets
    have strings := strings_of_simulation sim related each
    exact decodeTargets_eq_ok_iff.mpr ⟨_, Json.value_array_of_forall₂ strings, htargets⟩
  | object ending hms =>
    obtain ⟨r, es, -, -, rfl, -⟩ := Json.exists_of_value_object hv
    cases htargets

theorem put_of_simulation (sim : Simulation R) {origin origin' : Origin} {room room' : Nat}
    (fields : ∀ n n' fs, R room room' n n' → decodeFields origin room n = .ok fs →
      decodeFields origin' room' n' = .ok fs)
    (blocks : ∀ n n' bs, R room room' n n' → decodeBlocks origin room n = .ok bs →
      decodeBlocks origin' room' n' = .ok bs)
    (d : FieldDraft) (m : FieldMember) (n n' : Node) (d' : FieldDraft) (h : R room room' n n')
    (hd : d.put (decodeFields origin room) (decodeBlocks origin room) room m n = .ok d') :
    d.put (decodeFields origin' room') (decodeBlocks origin' room') room' m n' = .ok d' := by
  have hmatch := sim room room' n n' h
  cases m with
  | uid =>
    obtain ⟨s, hs, rfl⟩ := map_ok hd
    rw [FieldDraft.put, hmatch.decodeString hs]
    rfl
  | dataType =>
    obtain ⟨s, hs, rfl⟩ := map_ok hd
    rw [FieldDraft.put, hmatch.decodeString hs]
    rfl
  | displayName =>
    obtain ⟨s, hs, rfl⟩ := map_ok hd
    rw [FieldDraft.put, hmatch.decodeNullable (fun _ => hmatch.decodeString) hs]
    rfl
  | mandatory =>
    obtain ⟨b, hb, rfl⟩ := map_ok hd
    rw [FieldDraft.put, hmatch.decodeBool hb]
    rfl
  | multiple =>
    obtain ⟨b, hb, rfl⟩ := map_ok hd
    rw [FieldDraft.put, hmatch.decodeBool hb]
    rfl
  | schema =>
    obtain ⟨fs, hfs, rfl⟩ := map_ok hd
    rw [FieldDraft.put, hmatch.decodeNullable (fun fs => fields n n' fs h) hfs]
    rfl
  | blocks =>
    obtain ⟨bs, hbs, rfl⟩ := map_ok hd
    rw [FieldDraft.put, hmatch.decodeNullable (fun bs => blocks n n' bs h) hbs]
    rfl
  | referenceTo =>
    obtain ⟨targets, ht, rfl⟩ := map_ok hd
    rw [FieldDraft.put, decodeTargets_of_simulation sim h ht]
    rfl

theorem putBlock_of_simulation (sim : Simulation R) {origin origin' : Origin} {room room' : Nat}
    (fields : ∀ n n' fs, R room room' n n' → decodeFields origin room n = .ok fs →
      decodeFields origin' room' n' = .ok fs)
    (b : Block) (m : BlockMember) (n n' : Node) (b' : Block) (h : R room room' n n')
    (hb : putBlock (decodeFields origin room) b m n = .ok b') :
    putBlock (decodeFields origin' room') b m n' = .ok b' := by
  have hmatch := sim room room' n n' h
  cases m with
  | uid =>
    obtain ⟨s, hs, rfl⟩ := map_ok hb
    rw [putBlock, hmatch.decodeString hs]
    rfl
  | title =>
    obtain ⟨s, hs, rfl⟩ := map_ok hb
    rw [putBlock, hmatch.decodeNullable (fun _ => hmatch.decodeString) hs]
    rfl
  | schema =>
    obtain ⟨fs, hfs, rfl⟩ := map_ok hb
    rw [putBlock, fields n n' fs h hfs]
    rfl

/-- What fields and blocks decode to carries over from one node to another. -/
structure Carries (origin origin' : Origin) (room room' : Nat) (n n' : Node) : Prop where
  fields : ∀ fs, decodeFields origin room n = .ok fs → decodeFields origin' room' n' = .ok fs
  blocks : ∀ bs, decodeBlocks origin room n = .ok bs → decodeBlocks origin' room' n' = .ok bs
  field : ∀ f, decodeField origin room n = .ok f → decodeField origin' room' n' = .ok f
  block : ∀ b, decodeBlock origin room n = .ok b → decodeBlock origin' room' n' = .ok b

theorem carries_of_simulation (sim : Simulation R) (origin origin' : Origin) {room room' : Nat}
    {n n' : Node} (h : R room room' n n') : Carries origin origin' room room' n n' := by
  induction room generalizing room' n n' with
  | zero =>
    constructor
    · intro fs hfs
      rw [decodeFields] at hfs
      exact absurd hfs (Json.decodeList_none_ne_ok n fs)
    · intro bs hbs
      rw [decodeBlocks] at hbs
      exact absurd hbs (Json.decodeList_none_ne_ok n bs)
    · intro f hf
      rw [decodeField] at hf
      obtain ⟨d, hd, -⟩ := bind_ok hf
      exact absurd hd Json.decodeRecord_none_ne_ok
    · intro b hb
      rw [decodeBlock] at hb
      exact absurd hb Json.decodeRecord_none_ne_ok
  | succ room ih =>
    have hmatch := sim (room + 1) room' n n' h
    constructor
    · intro fs hfs
      rw [decodeFields] at hfs
      obtain ⟨r', rfl, hfs⟩ := hmatch.decodeList (decodeField origin')
        (fun r' n n' f h => (ih h).field f) hfs
      rwa [decodeFields]
    · intro bs hbs
      rw [decodeBlocks] at hbs
      obtain ⟨r', rfl, hbs⟩ := hmatch.decodeList (decodeBlock origin')
        (fun r' n n' b h => (ih h).block b) hbs
      rwa [decodeBlocks]
    · intro f hf
      rw [decodeField] at hf
      obtain ⟨d, hd, hf⟩ := bind_ok hf
      obtain ⟨r', rfl, hd⟩ := hmatch.decodeRecord known_fieldShape nodup_fieldShape
        (fun r' => FieldDraft.put (decodeFields origin' r') (decodeBlocks origin' r') r')
        (commutes_put _ _ _) (fun r' => commutes_put _ _ _)
        (fun r' => put_of_simulation sim (fun n n' fs h => (ih h).fields fs)
          (fun n n' bs h => (ih h).blocks bs)) origin' hd
      rw [decodeField, hd]
      exact hf
    · intro b hb
      rw [decodeBlock] at hb
      obtain ⟨r', rfl, hb⟩ := hmatch.decodeRecord known_blockShape nodup_blockShape
        (fun r' => putBlock (decodeFields origin' r')) (commutes_putBlock _)
        (fun r' => commutes_putBlock _)
        (fun r' => putBlock_of_simulation sim (fun n n' fs h => (ih h).fields fs)) origin' hb
      rwa [decodeBlock]

end

theorem Json.Document.finish_eq_ok_iff {ε α : Type} {d : Document} {malformed : ε} {r : Except ε α}
    {a : α} : d.finish malformed r = .ok a ↔ r = .ok a ∧ d.trailing = false := by
  rw [Document.finish]
  cases r with
  | error e => exact iff_of_false nofun nofun
  | ok b =>
    change (if d.trailing = true then Except.error malformed else .ok b) = _ ↔ _
    cases d.trailing with
    | true => exact iff_of_false nofun nofun
    | false => exact ⟨fun h => ⟨h, rfl⟩, fun h => h.1⟩

theorem parseFields_eq_ok_iff {text : String} {fs : List Field} :
    parseFields text = .ok fs ↔
      decodeFields .text nestingLimit (Document.ofChars text.toList).root = .ok fs ∧
        (Document.ofChars text.toList).trailing = false := by
  rw [parseFields, mapError_eq_ok_iff, fieldsOfText, Json.decodeText]
  exact Json.Document.finish_eq_ok_iff

/-- A text that says what another says, but for the order of the members of objects. -/
structure ReorderedText (text text' : String) : Prop where
  root : (Document.ofChars text.toList).root.Reordered (Document.ofChars text'.toList).root
  trailing : (Document.ofChars text'.toList).trailing = (Document.ofChars text.toList).trailing

/-- The value of a content type with a schema. -/
def typeValue (uid : String) (title : Option String) (schema : Value) : Value :=
  .object (("schema", schema) :: optionalMember "title" title ++ [("uid", .string uid)])

theorem height_typeValue (uid : String) (title : Option String) (schema : Value) :
    (typeValue uid title schema).height = schema.height + 1 := by
  cases title <;> simp [typeValue, optionalMember, Value.memberHeights, Value.height]

theorem decodeContentType_typeValue (uid : String) (title : Option String) (schema : Value)
    (room : Nat) : decodeContentType (room + 1) (typeValue uid title schema).node =
      (decodeFields .value room schema.node).map (⟨uid, title.getD "", ·⟩) := by
  let es : List (ContentTypeMember × Value) :=
    (.schema, schema) :: optionalEntry .title title ++ [(.uid, .string uid)]
  have hvalue : typeValue uid title schema = .object (contentTypeShape.membersOf es) := by
    cases title <;> rfl
  have hnodup : (es.map (·.1)).Nodup := by
    cases title <;> simp [es, optionalEntry]
  have complete : ∀ m ∈ contentTypeShape.required, m ∈ es.map (·.1) := by
    simp [es, contentTypeShape]
  rw [decodeContentType, hvalue,
    Json.Shape.decodeRecord_membersOf known_contentTypeShape hnodup complete]
  cases hschema : decodeFields .value room schema.node with
  | error e =>
    simp only [es, List.cons_append, List.foldlM_cons, putContentType, hschema]
    rfl
  | ok fs =>
    simp only [es, List.cons_append, List.foldlM_cons, putContentType, hschema]
    cases title <;> rfl

/-- What fits into less room is decoded alike in more. -/
theorem decodeFields_value_of_le {v : Value} (sorted : v.Sorted) {room : Nat} (hr : v.height ≤ room)
    (fs : List Field) : decodeFields .value room v.node = .ok fs ↔ fieldsOfValue v = .ok fs := by
  have same {r r' : Nat} (hr : v.height ≤ r) (hr' : v.height ≤ r') :
      decodeFields .value r v.node = .ok fs → decodeFields .value r' v.node = .ok fs :=
    (carries_of_simulation Json.simulation_textThenValue .value .value
      ⟨v, Node.value_node sorted hr, hr', rfl⟩).fields fs
  exact ⟨same hr (Nat.le_refl _), same (Nat.le_refl _) hr⟩

theorem contentTypesOfValue_array_eq_ok_iff {vs : List Value} {cs : List ContentType} :
    contentTypesOfValue (.array vs) = .ok cs ↔
      List.Forall₂ (fun v c => decodeContentType (Value.heights vs) v.node = .ok c) vs cs := by
  change (decodeContentTypes (Value.array vs).height (Value.array vs).node).mapError _ = _ ↔ _
  rw [mapError_eq_ok_iff, Value.height_array, decodeContentTypes, Json.decodeList_eq_ok_iff,
    Value.node, Json.elementNodes_eq_map, ← Json.mapM_eq_ok_iff]
  constructor
  · rintro ⟨element, ns, helement, hns, h⟩
    cases helement
    cases hns
    rwa [List.mapM_map] at h
  · intro h
    exact ⟨_, _, rfl, rfl, by rwa [List.mapM_map]⟩

/-- What is decoded of a text while it is read is what is decoded of its value. -/
structure DecodesAlike (text : String) (v : Value) : Prop where
  ofText : ∀ fs, parseFields text = .ok fs → fieldsOfValue v = .ok fs
  ofValue : (Document.ofChars text.toList).root.Distinct →
    ∀ fs, fieldsOfValue v = .ok fs → parseFields text = .ok fs
  /-- A content type with the value as schema has the fields of the value. -/
  asSchema : ∀ (uid : String) (title : Option String) (fs : List Field), fieldsOfValue v = .ok fs →
    contentTypesOfValue (.array [typeValue uid title v]) = .ok [⟨uid, title.getD "", fs⟩]
  /-- It has them among other content types as well. -/
  amongOthers : ∀ (vs : List Value) (cs : List ContentType),
    contentTypesOfValue (.array vs) = .ok cs →
      ∀ (i : Nat) (uid : String) (title : Option String), vs[i]? = some (typeValue uid title v) →
        ∃ fs, fieldsOfValue v = .ok fs ∧ cs[i]? = some ⟨uid, title.getD "", fs⟩
  /-- The order of members makes no difference to the fields. -/
  reordered : ∀ text', ReorderedText text text' →
    ∀ fs, parseFields text = .ok fs → parseFields text' = .ok fs
  /-- Their fields are those of the value read in the other order, too. -/
  reorderedValue : ∀ text', ReorderedText text text' → ∀ fs, parseFields text = .ok fs →
    ∃ v', Value.ofText nestingLimit text' = .ok v' ∧ fieldsOfValue v' = .ok fs
  /-- The value itself is the same if no object repeats a key. -/
  sameValue : ∀ text', ReorderedText text text' → (Document.ofChars text.toList).root.Distinct →
    Value.ofText nestingLimit text' = .ok v

theorem fieldsOfValue_of_parseFields {text : String} {v : Value}
    (read : Value.ofText nestingLimit text = .ok v) {fs : List Field}
    (h : parseFields text = .ok fs) : fieldsOfValue v = .ok fs := by
  obtain ⟨hvalue, -⟩ := Json.Document.finish_eq_ok_iff.mp read
  exact (carries_of_simulation Json.simulation_textThenValue .text .value
    ⟨v, hvalue, Nat.le_refl _, rfl⟩).fields fs (parseFields_eq_ok_iff.mp h).1

theorem parseFields_of_fieldsOfValue {text : String} {v : Value}
    (read : Value.ofText nestingLimit text = .ok v)
    (distinct : (Document.ofChars text.toList).root.Distinct) {fs : List Field}
    (h : fieldsOfValue v = .ok fs) : parseFields text = .ok fs := by
  obtain ⟨hvalue, trailing⟩ := Json.Document.finish_eq_ok_iff.mp read
  have decoded := (carries_of_simulation Json.simulation_valueThenText .value .text
    ⟨v, rfl, hvalue, distinct⟩).fields fs h
  exact parseFields_eq_ok_iff.mpr ⟨decoded, trailing⟩

theorem ReorderedText.parseFields {text text' : String} (reordered : ReorderedText text text')
    {fs : List Field} (h : ContentSdl.parseFields text = .ok fs) :
    ContentSdl.parseFields text' = .ok fs := by
  obtain ⟨hroot, trailing⟩ := parseFields_eq_ok_iff.mp h
  have decoded := (carries_of_simulation Json.simulation_textThenReordered .text .text
    ⟨rfl, reordered.root⟩).fields fs hroot
  exact parseFields_eq_ok_iff.mpr ⟨decoded, reordered.trailing.trans trailing⟩

theorem ReorderedText.exists_value {text text' : String} (reordered : ReorderedText text text')
    {v : Value} (read : Value.ofText nestingLimit text = .ok v) :
    ∃ v', Value.ofText nestingLimit text' = .ok v' := by
  obtain ⟨hvalue, trailing⟩ := Json.Document.finish_eq_ok_iff.mp read
  obtain ⟨v', hv'⟩ := reordered.root.exists_value hvalue
  exact ⟨v', Json.Document.finish_eq_ok_iff.mpr ⟨hv', reordered.trailing.trans trailing⟩⟩

theorem ReorderedText.ofText {text text' : String} (reordered : ReorderedText text text')
    (distinct : (Document.ofChars text.toList).root.Distinct) {v : Value}
    (read : Value.ofText nestingLimit text = .ok v) : Value.ofText nestingLimit text' = .ok v := by
  obtain ⟨hvalue, trailing⟩ := Json.Document.finish_eq_ok_iff.mp read
  exact Json.Document.finish_eq_ok_iff.mpr
    ⟨reordered.root.value distinct hvalue, reordered.trailing.trans trailing⟩

theorem contentTypesOfValue_typeValue {v : Value} {fs : List Field} (h : fieldsOfValue v = .ok fs)
    (uid : String) (title : Option String) :
    contentTypesOfValue (.array [typeValue uid title v]) = .ok [⟨uid, title.getD "", fs⟩] := by
  have room : Value.heights [typeValue uid title v] = v.height + 1 := by
    simp [Value.heights, height_typeValue]
  rw [contentTypesOfValue_array_eq_ok_iff, room, List.forall₂_cons, decodeContentType_typeValue]
  refine ⟨?_, .nil⟩
  rw [show decodeFields .value v.height v.node = .ok fs from h]
  rfl

/-- The schema of a content type in a list is decoded as a value of its own would be. -/
theorem exists_fieldsOfValue_of_contentTypes {v : Value} (sorted : v.Sorted) {vs : List Value}
    {cs : List ContentType} (h : contentTypesOfValue (.array vs) = .ok cs) {i : Nat} {uid : String}
    {title : Option String} (hi : vs[i]? = some (typeValue uid title v)) :
    ∃ fs, fieldsOfValue v = .ok fs ∧ cs[i]? = some ⟨uid, title.getD "", fs⟩ := by
  have each := contentTypesOfValue_array_eq_ok_iff.mp h
  obtain ⟨hlt, htype⟩ := List.getElem?_eq_some_iff.mp hi
  have hlt' : i < cs.length := each.length_eq ▸ hlt
  have decoded := each.get hlt hlt'
  rw [List.get_eq_getElem, htype] at decoded
  have fits := Value.heights_le_iff.mp (Nat.le_refl (Value.heights vs)) _
    (htype ▸ List.getElem_mem hlt)
  rw [height_typeValue] at fits
  obtain ⟨room, hroom⟩ : ∃ r, Value.heights vs = r + 1 := ⟨Value.heights vs - 1, by omega⟩
  rw [hroom, decodeContentType_typeValue] at decoded
  obtain ⟨fs, hfs, hc⟩ := map_ok decoded
  refine ⟨fs, (decodeFields_value_of_le sorted (by omega) fs).mp hfs, ?_⟩
  rw [hc]
  exact List.getElem?_eq_getElem hlt'

/-- A text that is read as a value decodes as this value does. -/
theorem decodesAlike_of_ofText {text : String} {v : Value}
    (read : Value.ofText nestingLimit text = .ok v) : DecodesAlike text v where
  ofText _ h := fieldsOfValue_of_parseFields read h
  ofValue distinct _ h := parseFields_of_fieldsOfValue read distinct h
  asSchema uid title _ h := contentTypesOfValue_typeValue h uid title
  amongOthers _ _ h _ _ _ hi := by
    obtain ⟨hvalue, -⟩ := Json.Document.finish_eq_ok_iff.mp read
    exact exists_fieldsOfValue_of_contentTypes (Node.value_fits hvalue).1 h hi
  reordered _ reordered _ h := reordered.parseFields h
  reorderedValue _ reordered _ h := by
    obtain ⟨v', read'⟩ := reordered.exists_value read
    exact ⟨v', read', fieldsOfValue_of_parseFields read' (reordered.parseFields h)⟩
  sameValue _ reordered distinct := reordered.ofText distinct read

/-- A field is decoded alike although one of its members is not known. -/
theorem decodesAlike_unknown_member :
    let text := "[\x7b\"uid\":\"a\",\"extra\":[true],\"data_type\":\"text\"\x7d]"
    let v : Value := .array [.object [("data_type", .string "text"),
      ("extra", .array [.bool true]), ("uid", .string "a")]]
    let fs : List Field := [.make "a" (.scalar .text)]
    Value.ofText nestingLimit text = .ok v ∧ parseFields text = .ok fs ∧
      fieldsOfValue v = .ok fs ∧
      contentTypesOfValue (.array [typeValue "page" none v]) = .ok [⟨"page", "", fs⟩] := by
  intro text v fs
  have read : Value.ofText nestingLimit text = .ok v := by
    dsimp only [text, v]
    cbv
  have parsed : parseFields text = .ok fs := by
    dsimp only [text, fs]
    cbv
  have alike := decodesAlike_of_ofText read
  have decoded := alike.ofText fs parsed
  exact ⟨read, parsed, decoded, alike.asSchema "page" none fs decoded⟩

end ContentSdl
