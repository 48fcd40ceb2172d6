import ContentSdl.Proofs.NodeAgreement

/-! # The values of which a record is decoded

A record is written as an object or as the array of its members. What is decoded of it depends only on
which value, if any, each member is given. -/

namespace ContentSdl.Json

theorem exists_room_elements {vs : List Value} {room : Nat} (h : (Value.array vs).height ≤ room) :
    ∃ r, room = r + 1 ∧ ∀ v ∈ vs, v.height ≤ r := by
  rw [Value.height_array] at h
  exact ⟨room - 1, by omega, Value.heights_le_iff.mp (by omega)⟩

theorem exists_room_members {ms : List (String × Value)} {room : Nat}
    (h : (Value.object ms).height ≤ room) : ∃ r, room = r + 1 ∧ ∀ m ∈ ms, m.2.height ≤ r := by
  rw [Value.height_object] at h
  exact ⟨room - 1, by omega, Value.memberHeights_le_iff.mp (by omega)⟩

/-- A value is read as the same in whatever room it has. -/
theorem exists_value_in_any_room (k : Nat) : ∀ v : Value, v.height ≤ k →
    ∃ v', ∀ room, v.height ≤ room → v.node.value room = .ok v' := by
  induction k with
  | zero =>
    intro v hv
    cases v with
    | null | bool | number | string => exact ⟨_, fun _ _ => rfl⟩
    | array vs => exact absurd hv (by simp)
    | object ms => exact absurd hv (by simp)
  | succ k ih =>
    intro v hv
    cases v with
    | null | bool | number | string => exact ⟨_, fun _ _ => rfl⟩
    | array vs =>
      obtain ⟨_, ⟨⟩, hvs⟩ := exists_room_elements hv
      obtain ⟨vs', each⟩ := exists_forall₂ fun v hv => ih v (hvs v hv)
      refine ⟨.array vs', fun room hroom => ?_⟩
      obtain ⟨room, rfl, fit⟩ := exists_room_elements hroom
      rw [Value.node, elementNodes_eq_map]
      apply value_array_of_forall₂
      rw [List.forall₂_map_left_iff]
      exact ((List.forall₂_and_left _ _).mpr ⟨fit, each⟩).imp fun v v' h => h.2 room h.1
    | object ms =>
      obtain ⟨_, ⟨⟩, hms⟩ := exists_room_members hv
      have member (m : String × Value) (hm : m ∈ ms) : ∃ e : String × Value, m.1 = e.1 ∧
          ∀ room, m.2.height ≤ room → m.2.node.value room = .ok e.2 := by
        obtain ⟨v', h⟩ := ih m.2 (hms m hm)
        exact ⟨(m.1, v'), rfl, h⟩
      obtain ⟨es, each⟩ := exists_forall₂ member
      refine ⟨.object (sortMembers es), fun room hroom => ?_⟩
      obtain ⟨room, rfl, fit⟩ := exists_room_members hroom
      rw [Value.node, memberNodes_eq_map]
      apply value_object_of_forall₂
      rw [List.forall₂_map_left_iff]
      exact ((List.forall₂_and_left _ _).mpr ⟨fit, each⟩).imp fun m e h =>
        ⟨congrArg Except.ok h.2.1, h.2.2 room h.1⟩

theorem skim_value_node (v : Value) : v.node.skim = .ok () := by
  obtain ⟨v', hv'⟩ := exists_value_in_any_room v.height v (Nat.le_refl _)
  exact Node.skim_of_value (hv' v.height (Nat.le_refl _))

namespace Shape

variable {μ σ : Type} {shape : Shape μ}

/-- The value that each member of a record is given by an object that names no member twice, or by an
array of at most so many elements. -/
def record? [DecidableEq μ] (shape : Shape μ) : Value → Option (μ → Option Value)
  | .object ms =>
    if ∀ m ∈ shape.members, (ms.filter (·.1 = shape.name m)).length ≤ 1 then
      some fun m => ms.lookup (shape.name m)
    else none
  | .array vs =>
    if vs.length ≤ shape.members.length then some fun m => (shape.members.zip vs).lookup m else none
  | _ => none

/-- Members without a default come first. -/
def RequiredFirst (shape : Shape μ) : Prop :=
  shape.members.Pairwise fun m m' => m' ∈ shape.required → m ∈ shape.required

/-- Puts the value of a member, if there is one. -/
def putValue (put : σ → μ → Node → Decoded σ) (r : μ → Option Value) (s : σ) (m : μ) : Decoded σ :=
  match r m with
  | some v => put s m v.node
  | none => .ok s

theorem putValue_of_some {put : σ → μ → Node → Decoded σ} {r : μ → Option Value} {m : μ} {v : Value}
    (h : r m = some v) (s : σ) : putValue put r s m = put s m v.node := by
  rw [putValue, h]

theorem putValue_of_none {put : σ → μ → Node → Decoded σ} {r : μ → Option Value} {m : μ}
    (h : r m = none) (s : σ) : putValue put r s m = .ok s := by
  rw [putValue, h]

theorem foldlM_putValue_congr {put : σ → μ → Node → Decoded σ} {r r' : μ → Option Value}
    {ms : List μ} (h : ∀ m ∈ ms, r m = r' m) (s : σ) :
    ms.foldlM (putValue put r) s = ms.foldlM (putValue put r') s := by
  induction ms generalizing s with
  | nil => rfl
  | cons m ms ih =>
    obtain ⟨hm, hms⟩ := List.forall_mem_cons.mp h
    rw [List.foldlM_cons, List.foldlM_cons, putValue, hm, ← putValue]
    exact bind_congr (ih hms)

theorem foldlM_putValue_none {put : σ → μ → Node → Decoded σ} {r : μ → Option Value}
    {ms : List μ} (h : ∀ m ∈ ms, r m = none) (s : σ) : ms.foldlM (putValue put r) s = .ok s := by
  induction ms generalizing s with
  | nil => rfl
  | cons m ms ih =>
    obtain ⟨hm, hms⟩ := List.forall_mem_cons.mp h
    rw [List.foldlM_cons, putValue_of_none hm]
    exact ih hms s

theorem mem_of_lookup {α β : Type} [BEq α] [LawfulBEq α] {as : List (α × β)} {a : α} {b : β}
    (h : as.lookup a = some b) : (a, b) ∈ as := by
  obtain ⟨before, after, rfl, -⟩ := List.lookup_eq_some_iff.mp h
  exact List.mem_append_right _ List.mem_cons_self

theorem height_lt_of_record? [DecidableEq μ] {v : Value} {r : μ → Option Value} (h : shape.record? v = some r)
    {m : μ} {w : Value} (hw : r m = some w) : w.height < v.height := by
  cases v with
  | null | bool | number | string => cases h
  | array vs =>
    rw [record?, Option.ite_none_right_eq_some, Option.some_inj] at h
    obtain ⟨-, rfl⟩ := h
    rw [Value.height_array, Nat.lt_succ_iff]
    exact Value.heights_le_iff.mp (Nat.le_refl _) w (List.of_mem_zip (mem_of_lookup hw)).2
  | object ms =>
    rw [record?, Option.ite_none_right_eq_some, Option.some_inj] at h
    obtain ⟨-, rfl⟩ := h
    rw [Value.height_object, Nat.lt_succ_iff]
    exact Value.memberHeights_le_iff.mp (Nat.le_refl _) _ (mem_of_lookup hw)

/-- What is read of the value of a member, or its default. -/
inductive Reads {α : Type} (decode : Node → Decoded α) (default : α) : Option Value → α → Prop where
  | absent : Reads decode default none default
  | present {v : Value} {a : α} (h : decode v.node = .ok a) : Reads decode default (some v) a

/-- A member that is absent leaves the draft as it would be with the default. -/
theorem bind_putValue_eq_ok_iff {α β : Type} {put : σ → μ → Node → Decoded σ} {r : μ → Option Value}
    {s : σ} {m : μ} {decode : Node → Decoded α} {update : α → σ} {default : α}
    {rest : σ → Decoded β} {b : β} {p : α → Prop} (hput : ∀ n, put s m n = (decode n).map update)
    (hdefault : update default = s) (hrest : ∀ a, rest (update a) = .ok b ↔ p a) :
    (putValue put r s m >>= rest) = .ok b ↔ ∃ a, Reads decode default (r m) a ∧ p a := by
  rw [putValue]
  simp only [← hrest]
  cases r m with
  | none =>
    constructor
    · intro h
      exact ⟨default, .absent, hdefault.symm ▸ h⟩
    · rintro ⟨_, ⟨⟩, h⟩
      exact hdefault ▸ h
  | some v =>
    constructor
    · intro h
      obtain ⟨t, ht, h⟩ := bind_ok h
      obtain ⟨a, ha, rfl⟩ := map_ok ((hput v.node).symm.trans ht)
      exact ⟨a, .present ha, h⟩
    · rintro ⟨a, hread, h⟩
      cases hread with
      | present ha =>
        change (put s m v.node >>= rest) = .ok b
        rw [hput, ha]
        exact h

theorem head?_valuesOf (key : String) (ms : List (String × Value)) :
    (valuesOf key (memberNodes ms)).head? = (ms.lookup key).map Value.node := by
  induction ms with
  | nil => rfl
  | cons m ms ih =>
    obtain ⟨k, v⟩ := m
    rw [memberNodes, valuesOf_cons, List.lookup_cons]
    by_cases h : k = key
    · simp [h, Lexeme.valid]
    · rw [if_neg (by simpa [Lexeme.valid] using h), beq_false_of_ne (Ne.symm h)]
      exact ih

theorem length_valuesOf (key : String) (ms : List (String × Value)) :
    (valuesOf key (memberNodes ms)).length = (ms.filter (·.1 = key)).length := by
  rw [valuesOf_memberNodes, List.length_map]

theorem valuesOf_ne_nil_iff {key : String} {ms : List (String × Value)} :
    valuesOf key (memberNodes ms) ≠ [] ↔ ms.lookup key ≠ none := by
  refine not_congr ?_
  rw [← List.head?_eq_none_iff, head?_valuesOf, Option.map_eq_none_iff]

theorem valuesOf_eq_toList {key : String} {ms : List (String × Value)}
    (single : (ms.filter (·.1 = key)).length ≤ 1) :
    valuesOf key (memberNodes ms) = ((ms.lookup key).map Value.node).toList := by
  rw [← length_valuesOf] at single
  rw [← head?_valuesOf]
  match valuesOf key (memberNodes ms), single with
  | [], _ => rfl
  | [n], _ => rfl

theorem accepts_memberNodes_iff (known : shape.Known) {ms : List (String × Value)} :
    shape.Accepts (memberNodes ms) ↔
      (∀ m ∈ shape.members, (ms.filter (·.1 = shape.name m)).length ≤ 1) ∧
        ∀ m ∈ shape.required, ms.lookup (shape.name m) ≠ none := by
  constructor
  · intro accepts
    refine ⟨fun m _ => ?_, fun m hm => valuesOf_ne_nil_iff.mp (accepts.complete m hm)⟩
    rw [← length_valuesOf]
    exact accepts.single m
  · rintro ⟨single, complete⟩
    refine ⟨fun e he => ?_, fun m => ?_, fun m hm => valuesOf_ne_nil_iff.mpr (complete m hm)⟩
    · rw [memberNodes_eq_map] at he
      obtain ⟨m, -, rfl⟩ := List.mem_map.mp he
      exact ⟨m.1, rfl, fun _ => skim_value_node m.2⟩
    · rw [length_valuesOf]
      exact single m (mem_members known m)

/-- The members of an object in the order of the record are put one by one. -/
theorem foldlM_inOrder {put : σ → μ → Node → Decoded σ} {ms : List (String × Value)}
    (single : ∀ m ∈ shape.members, (ms.filter (·.1 = shape.name m)).length ≤ 1) (s : σ) :
    (shape.inOrder (memberNodes ms)).foldlM (fun d e => put d e.1 e.2) s =
      shape.members.foldlM (putValue put fun m => ms.lookup (shape.name m)) s := by
  rw [inOrder]
  generalize shape.members = members at single ⊢
  induction members generalizing s with
  | nil => rfl
  | cons m members ih =>
    have first : ((valuesOf (shape.name m) (memberNodes ms)).map (m, ·)).foldlM
        (fun d e => put d e.1 e.2) s = putValue put (fun m => ms.lookup (shape.name m)) s m := by
      rw [valuesOf_eq_toList (single m List.mem_cons_self), putValue]
      cases ms.lookup (shape.name m) with
      | none => rfl
      | some v => exact bind_pure _
    rw [List.flatMap_cons, List.foldlM_append, List.foldlM_cons, first]
    exact bind_congr fun s => ih s fun m hm => single m (List.mem_cons_of_mem _ hm)

section

variable [DecidableEq μ]

theorem tooFew_eq_ok_iff {next : Option μ} {length : Nat} :
    shape.tooFew next length = .ok () ↔ ∀ m ∈ next, m ∉ shape.required := by
  cases next with
  | none => simp [tooFew]
  | some m =>
    rw [tooFew]
    split
    · rename_i hm
      refine iff_of_false (fun h => ?_) fun h => h m rfl hm
      cases h
    · rename_i hm
      refine iff_of_true rfl ?_
      rintro m' ⟨⟩
      exact hm

theorem lookup_zip_of_ne {m k : μ} (h : k ≠ m) (v : Value) (ms : List μ) (vs : List Value) :
    ((m :: ms).zip (v :: vs)).lookup k = (ms.zip vs).lookup k := by
  rw [List.zip_cons_cons, List.lookup_cons, beq_false_of_ne h]

/-- The members whose places are taken are put one by one; none of the others is required. -/
theorem fill_arrayEntries_iff {put : σ → μ → Node → Decoded σ} {origin : Origin} {length : Nat}
    {ms : List μ} (nodup : ms.Nodup)
    (first : ms.Pairwise fun m m' => m' ∈ shape.required → m ∈ shape.required) {vs : List Value}
    {s d : σ} : (shape.arrayEntries origin length none ms (vs.map Value.node)).fill put s = .ok d ↔
      vs.length ≤ ms.length ∧
        (∀ m ∈ ms, m ∈ shape.required → (ms.zip vs).lookup m ≠ none) ∧
        ms.foldlM (putValue put fun m => (ms.zip vs).lookup m) s = .ok d := by
  induction vs generalizing ms s with
  | nil =>
    have free : (∀ m ∈ ms.head?, m ∉ shape.required) ↔ ∀ m ∈ ms, m ∉ shape.required := by
      cases ms with
      | nil => simp
      | cons m ms =>
        rw [List.forall_mem_cons]
        constructor
        · -- Required members come first, so where the next one is not required, none is.
          intro h
          have hm := h m rfl
          exact ⟨hm, fun m' hm' hreq => hm ((List.pairwise_cons.mp first).1 m' hm' hreq)⟩
        · rintro ⟨hm, -⟩ m' ⟨⟩
          exact hm
    rw [List.map_nil, arrayEntries, Entries.fill_none_eq_ok_iff, stop_bind_eq_ok_iff,
      tooFew_eq_ok_iff, free, foldlM_putValue_none (by simp)]
    simp
  | cons v vs ih =>
    cases ms with
    | nil =>
      refine iff_of_false (fun h => ?_) fun h => Nat.not_succ_le_zero _ h.1
      cases origin with
      | text | value => cases h
    | cons m ms =>
      obtain ⟨hm, hnodup⟩ := List.nodup_cons.mp nodup
      have hself : ((m :: ms).zip (v :: vs)).lookup m = some v := List.lookup_cons_self
      have hrest : ∀ k ∈ ms, ((m :: ms).zip (v :: vs)).lookup k = (ms.zip vs).lookup k := by
        intro k hk
        apply lookup_zip_of_ne
        rintro rfl
        exact hm hk
      have hput : putValue put (fun k => ((m :: ms).zip (v :: vs)).lookup k) s m = put s m v.node :=
        putValue_of_some (r := fun k => ((m :: ms).zip (v :: vs)).lookup k) hself s
      have hrequired : (∀ k ∈ m :: ms, k ∈ shape.required →
            ((m :: ms).zip (v :: vs)).lookup k ≠ none) ↔
          ∀ k ∈ ms, k ∈ shape.required → (ms.zip vs).lookup k ≠ none := by
        rw [List.forall_mem_cons, hself, and_iff_right (fun _ => Option.some_ne_none v)]
        exact forall₂_congr fun k hk => by rw [hrest k hk]
      have hfold : ms.foldlM (putValue put fun k => ((m :: ms).zip (v :: vs)).lookup k) =
          ms.foldlM (putValue put fun k => (ms.zip vs).lookup k) :=
        funext (foldlM_putValue_congr hrest)
      rw [List.map_cons, arrayEntries, Entries.fill_cons, List.foldlM_cons, hput, hrequired, hfold,
        List.length_cons, List.length_cons, Nat.succ_le_succ_iff]
      cases put s m v.node with
      | error e =>
        refine iff_of_false (fun h => ?_) fun h => ?_
        · cases h
        · cases h.2.2
      | ok t => exact ih hnodup (List.pairwise_cons.mp first).2

end

/-- What it takes to decode a record of a value. -/
theorem decodeRecord_node_iff [DecidableEq μ] (known : shape.Known) (nodup : shape.members.Nodup)
    (first : shape.RequiredFirst) {put : σ → μ → Node → Decoded σ} (hput : Commutes put)
    {origin : Origin} {start d : σ} {v : Value} :
    decodeRecord shape origin (some put) start v.node = .ok d ↔
      ∃ r, shape.record? v = some r ∧ (∀ m ∈ shape.required, r m ≠ none) ∧
        shape.members.foldlM (putValue put r) start = .ok d := by
  have exists_record {p : Prop} [Decidable p] {r : μ → Option Value}
      {q : (μ → Option Value) → Prop} :
      (∃ r', (if p then some r else none) = some r' ∧ q r') ↔ p ∧ q r := by
    by_cases h : p
    · simp [h]
    · simp [h]
  cases v with
  | null | bool | number | string =>
    refine iff_of_false (fun h => ?_) fun h => ?_
    · obtain ⟨-, ⟨ns, ending, h⟩ | ⟨ms, ending, h⟩⟩ := exists_of_decodeRecord h
      · cases h
      · cases h
    · obtain ⟨r, h, -⟩ := h
      cases h
  | array vs =>
    rw [Value.node, decodeRecord, elementNodes_eq_map, record?, exists_record]
    refine (fill_arrayEntries_iff nodup first).trans (and_congr_right fun _ => ?_)
    refine and_congr_left fun _ => ?_
    exact ⟨fun h m hm => h m (mem_members known m) hm, fun h m _ hm => h m hm⟩
  | object ms =>
    rw [Value.node, decodeRecord, record?, exists_record]
    refine (fill_objectEntries_iff known nodup hput).trans ?_
    rw [accepts_memberNodes_iff known]
    constructor
    · rintro ⟨-, ⟨single, complete⟩, hfold⟩
      exact ⟨single, complete, foldlM_inOrder single start ▸ hfold⟩
    · rintro ⟨single, complete, hfold⟩
      exact ⟨rfl, ⟨single, complete⟩, foldlM_inOrder single start ▸ hfold⟩

end Shape

end ContentSdl.Json
