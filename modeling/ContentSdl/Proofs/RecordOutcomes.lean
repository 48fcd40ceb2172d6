import ContentSdl.Proofs.RecordMembers
import Mathlib.Data.List.Find

/-! # What comes of a record, errors included

The first member that does not decode is the one that is reported, so here the order of an object
counts. Decoders are given room for nested containers; two values come to the same if their decoder gives
the same of both, be it an error, wherever there is room for each. A member is put in vain if its value
can be put into any draft and what that does is independent of all other members, so that it might as
well come last. -/

namespace ContentSdl.Json

/-- A decoder finds the same of two values, or reports the same error. -/
def SameOutcome {α : Type} (decode : Nat → Node → Decoded α) (v w : Value) : Prop :=
  ∀ room room', v.height ≤ room → w.height ≤ room' → decode room v.node = decode room' w.node

/-- A list in at most so many nested containers, by the decoder of its elements in one less. -/
def listWithin {α : Type} (element : Nat → Node → Decoded α) : Nat → Node → Decoded (List α)
  | 0 => decodeList none
  | room + 1 => decodeList (some (element room))

/-- A record in at most so many nested containers, by the decoder of its members in one less. -/
def recordWithin {μ σ : Type} [DecidableEq μ] (shape : Shape μ) (origin : Origin)
    (put : Nat → σ → μ → Node → Decoded σ) (start : σ) : Nat → Node → Decoded σ
  | 0 => decodeRecord shape origin none start
  | room + 1 => decodeRecord shape origin (some (put room)) start

namespace SameOutcome

variable {α β : Type} {decode : Nat → Node → Decoded α} {v w : Value}

/-- Where one value is nested no deeper than another, it is enough to compare them in the same room. -/
theorem of_height_le (self : SameOutcome decode v v) (hle : v.height ≤ w.height)
    (h : ∀ room, w.height ≤ room → decode room v.node = decode room w.node) :
    SameOutcome decode v w := by
  intro room room' hv hw
  rw [← h room' hw]
  exact self room room' hv (Nat.le_trans hle hw)

theorem bind (h : SameOutcome decode v w) (next : α → Decoded β) :
    SameOutcome (fun room n => decode room n >>= next) v w :=
  fun room room' hv hw => congrArg (· >>= next) (h room room' hv hw)

theorem map (h : SameOutcome decode v w) (f : α → β) :
    SameOutcome (fun room n => (decode room n).map f) v w :=
  fun room room' hv hw => congrArg (Except.map f) (h room room' hv hw)

theorem decodeNullable (h : SameOutcome decode v v) :
    SameOutcome (fun room => Json.decodeNullable (decode room)) v v := by
  cases v with
  | null => exact fun _ _ _ _ => rfl
  | bool | number | string | array | object => exact h.map some

end SameOutcome

theorem forall₂_and_each {α β : Type} {R : α → β → Prop} {p : α → Prop} {q : β → Prop} {as : List α}
    {bs : List β} (h : List.Forall₂ R as bs) (hp : ∀ a ∈ as, p a) (hq : ∀ b ∈ bs, q b) :
    List.Forall₂ (fun a b => p a ∧ q b ∧ R a b) as bs := by
  induction h with
  | nil => exact .nil
  | cons h _ ih =>
    obtain ⟨ha, has⟩ := List.forall_mem_cons.mp hp
    obtain ⟨hb, hbs⟩ := List.forall_mem_cons.mp hq
    exact .cons ⟨ha, hb, h⟩ (ih has hbs)

namespace SameOutcome

variable {α : Type} {element : Nat → Node → Decoded α} {vs ws : List Value}

theorem mapM {room room' : Nat} (h : List.Forall₂ (SameOutcome element) vs ws)
    (hv : ∀ v ∈ vs, v.height ≤ room) (hw : ∀ w ∈ ws, w.height ≤ room') :
    (vs.map Value.node).mapM (element room) = (ws.map Value.node).mapM (element room') := by
  induction h with
  | nil => rfl
  | cons h _ ih =>
    obtain ⟨hv, hvs⟩ := List.forall_mem_cons.mp hv
    obtain ⟨hw, hws⟩ := List.forall_mem_cons.mp hw
    rw [List.map_cons, List.map_cons, List.mapM_cons, List.mapM_cons, h room room' hv hw, ih hvs hws]

theorem list (h : List.Forall₂ (SameOutcome element) vs ws) :
    SameOutcome (listWithin element) (.array vs) (.array ws) := by
  intro room room' hv hw
  obtain ⟨room, rfl, hvs⟩ := exists_room_elements hv
  obtain ⟨room', rfl, hws⟩ := exists_room_elements hw
  rw [Value.node, Value.node, elementNodes_eq_map, elementNodes_eq_map, listWithin, listWithin,
    decodeList, decodeList, mapM h hvs hws]

theorem list_replaced (self : ∀ u, SameOutcome element u u) {v w : Value} (h : SameOutcome element v w)
    (front back : List Value) :
    SameOutcome (listWithin element) (.array (front ++ v :: back)) (.array (front ++ w :: back)) := by
  have same (us : List Value) : List.Forall₂ (SameOutcome element) us us :=
    List.forall₂_same.mpr fun u _ => self u
  exact list (List.rel_append (same front) (.cons h (same back)))

theorem list_self {v : Value} (each : ∀ u : Value, u.height < v.height → SameOutcome element u u) :
    SameOutcome (listWithin element) v v := by
  cases v with
  | array vs =>
    apply list
    rw [List.forall₂_same]
    intro u hu
    apply each
    rw [Value.height_array, Nat.lt_succ_iff]
    exact Value.heights_le_iff.mp (Nat.le_refl _) u hu
  | null | bool | number | string | object =>
    intro room room' _ _
    cases room <;> cases room' <;> rfl

/-- Arrays stand for no absent value. -/
theorem decodeNullable_array {decode : Nat → Node → Decoded α}
    (h : SameOutcome decode (.array vs) (.array ws)) :
    SameOutcome (fun room => Json.decodeNullable (decode room)) (.array vs) (.array ws) :=
  h.map some

end SameOutcome

namespace Shape

variable {μ σ : Type} [DecidableEq μ] {shape : Shape μ} {key : String} {m : μ} {seen : List μ}

theorem objectEntries_cons_unknown (h : shape.member? key = none) (v : Value)
    (ms : List (String × Value)) :
    shape.objectEntries none seen (memberNodes ((key, v) :: ms)) =
      shape.objectEntries none seen (memberNodes ms) := by
  rw [memberNodes, objectEntries]
  simp only [Lexeme.valid, h, skim_value_node]

theorem objectEntries_cons_repeated (h : shape.member? key = some m) (hm : m ∈ seen) (v : Value)
    (ms : List (String × Value)) :
    shape.objectEntries none seen (memberNodes ((key, v) :: ms)) =
      .none (.error (.problem (.repeatedMember key))) := by
  rw [memberNodes, objectEntries]
  simp only [Lexeme.valid, h, if_pos hm]

theorem objectEntries_cons_new (h : shape.member? key = some m) (hm : m ∉ seen) (v : Value)
    (ms : List (String × Value)) :
    shape.objectEntries none seen (memberNodes ((key, v) :: ms)) =
      (shape.objectEntries none (m :: seen) (memberNodes ms)).cons m v.node := by
  rw [memberNodes, objectEntries]
  simp only [Lexeme.valid, h, if_neg hm]

theorem objectEntries_insert_unknown (h : shape.member? key = none)
    (before after : List (String × Value)) (v : Value) :
    shape.objectEntries none seen (memberNodes (before ++ (key, v) :: after)) =
      shape.objectEntries none seen (memberNodes (before ++ after)) := by
  induction before generalizing seen with
  | nil => exact objectEntries_cons_unknown h v after
  | cons e before ih =>
    obtain ⟨k, u⟩ := e
    rw [List.cons_append, List.cons_append]
    cases hk : shape.member? k with
    | none => rw [objectEntries_cons_unknown hk, objectEntries_cons_unknown hk, ih]
    | some m =>
      by_cases hm : m ∈ seen
      · rw [objectEntries_cons_repeated hk hm, objectEntries_cons_repeated hk hm]
      · rw [objectEntries_cons_new hk hm, objectEntries_cons_new hk hm, ih]

section

variable {put put' : σ → μ → Node → Decoded σ}

theorem fill_objectEntries_congr {ms ms' : List (String × Value)}
    (h : List.Forall₂ (fun e e' => e.1 = e'.1 ∧ ∀ m, shape.member? e.1 = some m →
      ∀ s, put s m e.2.node = put' s m e'.2.node) ms ms') (s : σ) :
    (shape.objectEntries none seen (memberNodes ms)).fill put s =
      (shape.objectEntries none seen (memberNodes ms')).fill put' s := by
  induction h generalizing seen s with
  | nil => rfl
  | @cons e e' _ _ he _ ih =>
    obtain ⟨key, v⟩ := e
    obtain ⟨key', w⟩ := e'
    obtain ⟨rfl, hput⟩ : key = key' ∧ _ := he
    cases hm : shape.member? key with
    | none => rw [objectEntries_cons_unknown hm, objectEntries_cons_unknown hm, ih]
    | some m =>
      by_cases hseen : m ∈ seen
      · rw [objectEntries_cons_repeated hm hseen, objectEntries_cons_repeated hm hseen]
        rfl
      · rw [objectEntries_cons_new hm hseen, objectEntries_cons_new hm hseen, Entries.fill_cons,
          Entries.fill_cons, hput m hm s]
        exact bind_congr fun t => ih t

theorem fill_arrayEntries_congr {origin : Origin} {length : Nat} {ms : List μ} {vs ws : List Value}
    (hlength : vs.length = ws.length)
    (h : ∀ (i : Nat) m v w, ms[i]? = some m → vs[i]? = some v → ws[i]? = some w →
      ∀ s, put s m v.node = put' s m w.node) (s : σ) :
    (shape.arrayEntries origin length none ms (vs.map Value.node)).fill put s =
      (shape.arrayEntries origin length none ms (ws.map Value.node)).fill put' s := by
  induction ms generalizing vs ws s with
  | nil => cases vs <;> cases ws <;> first | rfl | cases hlength
  | cons m ms ih =>
    cases vs with
    | nil =>
      cases ws with
      | nil => rfl
      | cons w ws => cases hlength
    | cons v vs =>
      cases ws with
      | nil => cases hlength
      | cons w ws =>
        rw [List.map_cons, List.map_cons, arrayEntries, arrayEntries, Entries.fill_cons,
          Entries.fill_cons, h 0 m v w (by rfl) (by rfl) (by rfl) s]
        exact bind_congr fun t =>
          ih (Nat.succ.inj hlength) (fun i m v w hm hv hw => h (i + 1) m v w hm hv hw) t

end

section

variable {put : σ → μ → Node → Decoded σ} {update : σ → σ} {v : Value}

theorem missing_congr {seen' : List μ} (h : ∀ k ∈ shape.required, k ∈ seen' ↔ k ∈ seen) :
    shape.missing seen' = shape.missing seen := by
  have hfind : shape.required.find? (· ∉ seen') = shape.required.find? (· ∉ seen) := by
    apply List.find?_congr
    intro k hk
    rw [decide_eq_decide, h k hk]
  rw [missing, missing, hfind]

omit [DecidableEq μ] in
theorem ne_of_member? {k : String} {j : μ} (hj : shape.member? k = some j)
    (hm : shape.member? key = some m) (h : k ≠ key) : j ≠ m := by
  rintro rfl
  exact h ((name_of_member? hj).symm.trans (name_of_member? hm))

/-- What follows neither sees that the member has come nor what it has put. -/
theorem fill_objectEntries_update (hm : shape.member? key = some m) (optional : m ∉ shape.required)
    (frame : ∀ k, k ≠ m → ∀ s n, put (update s) k n = (put s k n).map update)
    {ms : List (String × Value)} (hkey : ∀ e ∈ ms, e.1 ≠ key) {seen' : List μ}
    (hseen : ∀ k, k ≠ m → (k ∈ seen' ↔ k ∈ seen)) (s : σ) :
    (shape.objectEntries none seen' (memberNodes ms)).fill put (update s) =
      ((shape.objectEntries none seen (memberNodes ms)).fill put s).map update := by
  induction ms generalizing seen seen' s with
  | nil =>
    have required : ∀ k ∈ shape.required, k ∈ seen' ↔ k ∈ seen := by
      intro k hk
      apply hseen
      rintro rfl
      exact optional hk
    change (shape.missing seen' >>= fun _ => .ok (update s)) =
      (shape.missing seen >>= fun _ => .ok s).map update
    rw [missing_congr required]
    cases shape.missing seen <;> rfl
  | cons e ms ih =>
    obtain ⟨k, u⟩ := e
    obtain ⟨hk, hms⟩ := List.forall_mem_cons.mp hkey
    cases hj : shape.member? k with
    | none => rw [objectEntries_cons_unknown hj, objectEntries_cons_unknown hj, ih hms hseen]
    | some j =>
      have hne : j ≠ m := ne_of_member? hj hm hk
      by_cases hold : j ∈ seen
      · have hold' : j ∈ seen' := (hseen j hne).mpr hold
        rw [objectEntries_cons_repeated hj hold', objectEntries_cons_repeated hj hold]
        rfl
      · have hnext : ∀ k, k ≠ m → (k ∈ j :: seen' ↔ k ∈ j :: seen) := by
          intro k hk
          rw [List.mem_cons, List.mem_cons, hseen k hk]
        rw [objectEntries_cons_new hj (mt (hseen j hne).mp hold), objectEntries_cons_new hj hold,
          Entries.fill_cons, Entries.fill_cons, frame j hne]
        cases put s j u.node with
        | error e => rfl
        | ok t => exact ih hms hnext t

/-- A record with the member is the record without it, updated at the end. -/
theorem fill_objectEntries_insert (hm : shape.member? key = some m) (optional : m ∉ shape.required)
    (hput : ∀ s, put s m v.node = .ok (update s))
    (frame : ∀ k, k ≠ m → ∀ s n, put (update s) k n = (put s k n).map update)
    {before after : List (String × Value)} (hbefore : ∀ e ∈ before, e.1 ≠ key)
    (hafter : ∀ e ∈ after, e.1 ≠ key) (hseen : m ∉ seen) (s : σ) :
    (shape.objectEntries none seen (memberNodes (before ++ (key, v) :: after))).fill put s =
      ((shape.objectEntries none seen (memberNodes (before ++ after))).fill put s).map update := by
  induction before generalizing seen s with
  | nil =>
    have hnext : ∀ k, k ≠ m → (k ∈ m :: seen ↔ k ∈ seen) := by
      intro k hk
      rw [List.mem_cons, or_iff_right hk]
    rw [List.nil_append, List.nil_append, objectEntries_cons_new hm hseen, Entries.fill_cons, hput s]
    exact fill_objectEntries_update hm optional frame hafter hnext s
  | cons e before ih =>
    obtain ⟨k, u⟩ := e
    obtain ⟨hk, hbefore⟩ := List.forall_mem_cons.mp hbefore
    rw [List.cons_append, List.cons_append]
    cases hj : shape.member? k with
    | none => rw [objectEntries_cons_unknown hj, objectEntries_cons_unknown hj, ih hbefore hseen]
    | some j =>
      have hne : m ≠ j := (ne_of_member? hj hm hk).symm
      by_cases hold : j ∈ seen
      · rw [objectEntries_cons_repeated hj hold, objectEntries_cons_repeated hj hold]
        rfl
      · rw [objectEntries_cons_new hj hold, objectEntries_cons_new hj hold, Entries.fill_cons,
          Entries.fill_cons]
        cases put s j u.node with
        | error e => rfl
        | ok t => exact ih hbefore (List.not_mem_cons_of_ne_of_not_mem hne hseen) t

end

end Shape

/-- A member of a record is replaced in an object, or at its place in an array. -/
inductive Replaced (keys : List String) (key : String) (v w : Value) : Value → Value → Prop where
  | named (before after : List (String × Value)) : Replaced keys key v w
      (.object (before ++ (key, v) :: after)) (.object (before ++ (key, w) :: after))
  | placed {before : List Value} (place : keys[before.length]? = some key) (after : List Value) :
      Replaced keys key v w (.array (before ++ v :: after)) (.array (before ++ w :: after))

/-- Members of two objects have the same key, and what is put into a draft is the same. -/
def SameMember {μ σ : Type} (shape : Shape μ) (put : Nat → σ → μ → Node → Decoded σ)
    (e e' : String × Value) : Prop :=
  e.1 = e'.1 ∧
    ∀ m, shape.member? e.1 = some m → ∀ s, SameOutcome (fun room => put room s m) e.2 e'.2

namespace SameOutcome

variable {μ σ : Type} [DecidableEq μ] {shape : Shape μ} {origin : Origin}
  {put : Nat → σ → μ → Node → Decoded σ} {start : σ}

theorem object {ms ms' : List (String × Value)} (h : List.Forall₂ (SameMember shape put) ms ms') :
    SameOutcome (recordWithin shape origin put start) (.object ms) (.object ms') := by
  intro room room' hv hw
  obtain ⟨room, rfl, hms⟩ := exists_room_members hv
  obtain ⟨room', rfl, hms'⟩ := exists_room_members hw
  rw [Value.node, Value.node]
  refine Shape.fill_objectEntries_congr ((forall₂_and_each h hms hms').imp ?_) start
  rintro e e' ⟨he, he', hkey, hput⟩
  exact ⟨hkey, fun m hm s => hput m hm s room room' he he'⟩

theorem array {vs ws : List Value} (hlength : vs.length = ws.length)
    (h : ∀ (i : Nat) m v w, shape.members[i]? = some m → vs[i]? = some v → ws[i]? = some w →
      ∀ s, SameOutcome (fun room => put room s m) v w) :
    SameOutcome (recordWithin shape origin put start) (.array vs) (.array ws) := by
  intro room room' hv hw
  obtain ⟨room, rfl, hvs⟩ := exists_room_elements hv
  obtain ⟨room', rfl, hws⟩ := exists_room_elements hw
  rw [Value.node, Value.node, elementNodes_eq_map, elementNodes_eq_map, recordWithin, recordWithin,
    decodeRecord, decodeRecord, List.length_map, List.length_map, ← hlength]
  refine Shape.fill_arrayEntries_congr hlength (fun i m v w hm hi hi' s => ?_) start
  exact h i m v w hm hi hi' s room room' (hvs v (List.mem_of_getElem? hi))
    (hws w (List.mem_of_getElem? hi'))

theorem record_self {v : Value}
    (each : ∀ u : Value, u.height < v.height → ∀ s m, SameOutcome (fun room => put room s m) u u) :
    SameOutcome (recordWithin shape origin put start) v v := by
  cases v with
  | object ms =>
    apply object
    rw [List.forall₂_same]
    refine fun e he => ⟨rfl, fun m _ s => each e.2 ?_ s m⟩
    rw [Value.height_object, Nat.lt_succ_iff]
    exact Value.memberHeights_le_iff.mp (Nat.le_refl _) e he
  | array vs =>
    refine array rfl fun i m v w _ hv hw s => ?_
    obtain rfl := Option.some.inj (hv.symm.trans hw)
    refine each v ?_ s m
    rw [Value.height_array, Nat.lt_succ_iff]
    exact Value.heights_le_iff.mp (Nat.le_refl _) v (List.mem_of_getElem? hv)
  | null | bool | number | string =>
    intro room room' _ _
    cases room <;> cases room' <;> rfl

/-- A record comes to the same if a member is replaced by a value that comes to the same. -/
theorem replaced (known : shape.Known) (self : ∀ u s m, SameOutcome (fun room => put room s m) u u)
    {m : μ} {v w : Value} (h : ∀ s, SameOutcome (fun room => put room s m) v w) {u u' : Value}
    (hu : Replaced (shape.members.map shape.name) (shape.name m) v w u u') :
    SameOutcome (recordWithin shape origin put start) u u' := by
  cases hu with
  | named before after =>
    apply object
    have same (ms : List (String × Value)) : List.Forall₂ (SameMember shape put) ms ms :=
      List.forall₂_same.mpr fun e _ => ⟨rfl, fun k _ s => self e.2 s k⟩
    refine List.rel_append (same before) (.cons ⟨rfl, fun k hk s => ?_⟩ (same after))
    obtain rfl := Option.some.inj ((known m).symm.trans hk)
    exact h s
  | @placed before place after =>
    refine array (by simp) fun i k v' w' hk hv' hw' s => ?_
    by_cases hi : i = before.length
    · subst hi
      have hm : k = m := by
        rw [List.getElem?_map, hk, Option.map_some, Option.some_inj] at place
        exact Shape.name_injective known place
      rw [List.getElem?_append_right (Nat.le_refl _), Nat.sub_self] at hv' hw'
      cases hv'
      cases hw'
      exact hm ▸ h s
    · have hsame : (before ++ v :: after)[i]? = (before ++ w :: after)[i]? := by
        grind
      obtain rfl := Option.some.inj (hv'.symm.trans (hsame.trans hw'))
      exact self v' s k

end SameOutcome

end ContentSdl.Json
