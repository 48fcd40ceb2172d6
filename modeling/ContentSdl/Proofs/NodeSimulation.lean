import ContentSdl.Proofs.RecordEntries

/-! # Nodes that decode alike

A decoder need not look at all of a node, and its result may be that of another node. A simulation
relates nodes, each with the number of containers that may be nested in it, such that what is decoded
of the first is decoded of the second. -/

namespace ContentSdl.Json

/-- The members of an object do what those of another do: they can be skipped as these, and what is
listed once comes once. -/
structure MembersMatch (R : Node → Node → Prop) (ms ms' : List (Lexeme String × Node)) : Prop where
  readable : (∀ m ∈ ms, ∃ key, m.1.decoded = .ok key) → ∀ m ∈ ms', ∃ key, m.1.decoded = .ok key
  skimmed : ∀ key, (∀ n ∈ valuesOf key ms, n.skim = .ok ()) → ∀ n ∈ valuesOf key ms', n.skim = .ok ()
  values : ∀ key, (valuesOf key ms).length ≤ 1 →
    List.Forall₂ R (valuesOf key ms) (valuesOf key ms')

/-- What a node lets decode, another does as well, as long as what they hold is related. -/
inductive Matches (R : Nat → Nat → Node → Node → Prop) (room room' : Nat) : Node → Node → Prop where
  | broken (f : Fault) : Matches R room room' (.broken f) (.broken f)
  | null : Matches R room room' .null .null
  | bool (b : Bool) : Matches R room room' (.bool b) (.bool b)
  | number {x x' : Lexeme Number} (h : x'.decoded = x.decoded) :
    Matches R room room' (.number x) (.number x')
  | string {x x' : Lexeme String} (h : x'.decoded = x.decoded) :
    Matches R room room' (.string x) (.string x')
  | array {ns ns' : List Node} (ending : Option Fault)
    (h : ∀ r, room = r + 1 → ∃ r', room' = r' + 1 ∧ List.Forall₂ (R r r') ns ns') :
    Matches R room room' (.array ns ending) (.array ns' ending)
  | object {ms ms' : List (Lexeme String × Node)} (ending : Option Fault)
    (h : ∀ r, room = r + 1 → ∃ r', room' = r' + 1 ∧ MembersMatch (R r r') ms ms') :
    Matches R room room' (.object ms ending) (.object ms' ending)

/-- Related nodes match, and what they hold is related again. -/
def Simulation (R : Nat → Nat → Node → Node → Prop) : Prop :=
  ∀ room room' n n', R room room' n n' → Matches R room room' n n'

@[simp] theorem wrongType_ne_ok {α : Type} (expected : String) (n : Node) (a : α) :
    wrongType expected n ≠ .ok a := by
  intro h
  cases n with
  | number x => exact nomatch (bind_ok h).choose_spec.2
  | string x => exact nomatch (bind_ok h).choose_spec.2
  | broken | null | bool | array | object => exact nomatch h

theorem decodeString_eq_ok_iff {n : Node} {s : String} :
    decodeString n = .ok s ↔ ∃ x, n = .string x ∧ x.decoded = .ok s := by
  constructor
  · intro h
    cases n with
    | string x =>
      refine ⟨x, rfl, ?_⟩
      cases hx : x.decoded with
      | error f => simp [decodeString, fromFault, hx, Except.mapError] at h
      | ok s' => simpa [decodeString, fromFault, hx, Except.mapError] using h
    | broken | null | bool | number | array | object => simp [decodeString] at h
  · rintro ⟨x, rfl, hx⟩
    rw [decodeString, fromFault, hx]
    rfl

theorem decodeBool_eq_ok_iff {n : Node} {b : Bool} : decodeBool n = .ok b ↔ n = .bool b := by
  constructor
  · intro h
    cases n with
    | bool b' => rw [Except.ok.inj h]
    | broken | null | string | number | array | object => simp [decodeBool] at h
  · rintro rfl
    rfl

theorem decodeList_eq_ok_iff {α : Type} {element? : Option (Node → Decoded α)} {n : Node}
    {as : List α} : decodeList element? n = .ok as ↔
      ∃ element ns, element? = some element ∧ n = .array ns none ∧ ns.mapM element = .ok as := by
  constructor
  · intro h
    cases n with
    | array ns ending =>
      cases element? with
      | none => exact nomatch h
      | some element =>
        obtain ⟨bs, hbs, h⟩ := bind_ok h
        obtain ⟨_, hending, h⟩ := bind_ok h
        cases ending with
        | none => exact ⟨element, ns, rfl, rfl, hbs.trans h⟩
        | some f => exact nomatch hending
    | broken | null | bool | string | number | object => simp [decodeList] at h
  · rintro ⟨element, ns, rfl, rfl, h⟩
    rw [decodeList, h]
    rfl

theorem decodeList_none_ne_ok {α : Type} (n : Node) (as : List α) :
    decodeList none n ≠ .ok as := by
  intro h
  obtain ⟨_, _, hnone, -⟩ := decodeList_eq_ok_iff.mp h
  cases hnone

/-- A record is decoded of an array or an object, and only if a container may be opened. -/
theorem exists_of_decodeRecord {μ σ : Type} [DecidableEq μ] {shape : Shape μ} {origin : Origin}
    {put? : Option (σ → μ → Node → Decoded σ)} {start d : σ} {n : Node}
    (h : decodeRecord shape origin put? start n = .ok d) :
    (∃ put, put? = some put) ∧
      ((∃ ns ending, n = .array ns ending) ∨ ∃ ms ending, n = .object ms ending) := by
  cases n with
  | array ns ending =>
    cases put? with
    | none => exact nomatch h
    | some put => exact ⟨⟨put, rfl⟩, .inl ⟨ns, ending, rfl⟩⟩
  | object ms ending =>
    cases put? with
    | none => exact nomatch h
    | some put => exact ⟨⟨put, rfl⟩, .inr ⟨ms, ending, rfl⟩⟩
  | broken | null | bool | string | number => simp [decodeRecord] at h

theorem decodeRecord_none_ne_ok {μ σ : Type} [DecidableEq μ] {shape : Shape μ} {origin : Origin}
    {start d : σ} {n : Node} : decodeRecord shape origin none start n ≠ .ok d := by
  intro h
  obtain ⟨⟨_, hnone⟩, -⟩ := exists_of_decodeRecord h
  cases hnone

theorem foldlM_of_forall₂ {μ σ : Type} {put put' : σ → μ → Node → Decoded σ} {R : Node → Node → Prop}
    (step : ∀ s m n n' d, R n n' → put s m n = .ok d → put' s m n' = .ok d)
    {es es' : List (μ × Node)} (h : List.Forall₂ (fun e e' => e.1 = e'.1 ∧ R e.2 e'.2) es es')
    {s d : σ} (hd : es.foldlM (fun s e => put s e.1 e.2) s = .ok d) :
    es'.foldlM (fun s e => put' s e.1 e.2) s = .ok d := by
  induction h generalizing s with
  | nil => exact hd
  | cons he _ ih =>
    rw [List.foldlM_cons] at hd ⊢
    obtain ⟨t, ht, hd⟩ := bind_ok hd
    rw [← he.1, step _ _ _ _ _ he.2 ht]
    exact ih hd

/-- Lists that are related to one list are related to each other. -/
theorem forall₂_through {α β γ : Type} {R : α → β → Prop} {S : α → γ → Prop} {T : β → γ → Prop}
    (step : ∀ a b c, R a b → S a c → T b c) {as : List α} {bs : List β} {cs : List γ}
    (h : List.Forall₂ R as bs) (h' : List.Forall₂ S as cs) : List.Forall₂ T bs cs := by
  induction h generalizing cs with
  | nil =>
    cases h'
    exact .nil
  | cons hab _ ih =>
    cases h' with
    | cons hac hcs => exact .cons (step _ _ _ hab hac) (ih hcs)

theorem mapM_eq_ok_iff {α β : Type} {f : α → Decoded β} {as : List α} {bs : List β} :
    as.mapM f = .ok bs ↔ List.Forall₂ (fun a b => f a = .ok b) as bs := by
  induction as generalizing bs with
  | nil =>
    rw [List.mapM_nil, List.forall₂_nil_left_iff]
    exact ⟨fun h => (Except.ok.inj h).symm, fun h => congrArg Except.ok h.symm⟩
  | cons a as ih =>
    rw [List.mapM_cons, List.forall₂_cons_left_iff]
    constructor
    · intro h
      obtain ⟨b, hb, h⟩ := bind_ok h
      obtain ⟨bs, hbs, h⟩ := bind_ok h
      exact ⟨b, bs, hb, ih.mp hbs, (Except.ok.inj h).symm⟩
    · rintro ⟨b, bs, hb, hbs, rfl⟩
      rw [hb, ih.mpr hbs]
      rfl

namespace Shape

variable {μ σ : Type} {shape : Shape μ}

theorem fill_arrayEntries_of_forall₂ [DecidableEq μ] {put put' : σ → μ → Node → Decoded σ}
    {R : Node → Node → Prop} (step : ∀ s m n n' d, R n n' → put s m n = .ok d → put' s m n' = .ok d)
    (origin origin' : Origin) (length : Nat) (ending : Option Fault) {ns ns' : List Node}
    (h : List.Forall₂ R ns ns') {ms : List μ} {s d : σ}
    (hd : (shape.arrayEntries origin length ending ms ns).fill put s = .ok d) :
    (shape.arrayEntries origin' length ending ms ns').fill put' s = .ok d := by
  induction h generalizing ms s with
  | nil => cases ms <;> exact hd
  | cons hn _ ih =>
    cases ms with
    | nil => cases origin <;> exact nomatch hd
    | cons m ms =>
      rw [arrayEntries, Entries.fill_cons] at hd ⊢
      obtain ⟨t, ht, hd⟩ := bind_ok hd
      rw [step _ _ _ _ _ hn ht]
      exact ih hd

end Shape

section

variable {R : Node → Node → Prop} {ms ms' : List (Lexeme String × Node)} {μ : Type} {shape : Shape μ}

theorem MembersMatch.accepts (h : MembersMatch R ms ms') (accepts : shape.Accepts ms) :
    shape.Accepts ms' where
  passes := by
    intro m hm
    obtain ⟨key, hkey⟩ := h.readable (fun m hm => (accepts.passes m hm).imp fun _ hk => hk.1) m hm
    refine ⟨key, hkey, fun hnone => ?_⟩
    apply h.skimmed key
    · intro n hn
      obtain ⟨m, hm, hk, rfl⟩ := mem_valuesOf.mp hn
      exact (Shape.passes_iff_of_unknown hk hnone).mp (accepts.passes m hm)
    · exact mem_valuesOf.mpr ⟨m, hm, hkey, rfl⟩
  single := by
    intro m
    rw [← (h.values (shape.name m) (accepts.single m)).length_eq]
    exact accepts.single m
  complete := by
    intro m hm hnil
    have hvalues := h.values (shape.name m) (accepts.single m)
    rw [hnil, List.forall₂_nil_right_iff] at hvalues
    exact accepts.complete m hm hvalues

theorem MembersMatch.inOrder (h : MembersMatch R ms ms') (accepts : shape.Accepts ms) :
    List.Forall₂ (fun e e' => e.1 = e'.1 ∧ R e.2 e'.2) (shape.inOrder ms) (shape.inOrder ms') := by
  have values (m : μ) : List.Forall₂ (fun e e' => e.1 = e'.1 ∧ R e.2 e'.2)
      ((valuesOf (shape.name m) ms).map (m, ·)) ((valuesOf (shape.name m) ms').map (m, ·)) := by
    rw [List.forall₂_map_left_iff, List.forall₂_map_right_iff]
    exact (h.values (shape.name m) (accepts.single m)).imp fun _ _ hn => ⟨rfl, hn⟩
  rw [Shape.inOrder, Shape.inOrder]
  induction shape.members with
  | nil => exact .nil
  | cons m members ih =>
    rw [List.flatMap_cons, List.flatMap_cons]
    exact List.rel_append (values m) ih

end

namespace Matches

variable {R : Nat → Nat → Node → Node → Prop} {room room' : Nat} {n n' : Node}

theorem decodeString (h : Matches R room room' n n') {s : String}
    (hs : Json.decodeString n = .ok s) : Json.decodeString n' = .ok s := by
  obtain ⟨x, rfl, hx⟩ := decodeString_eq_ok_iff.mp hs
  cases h with
  | string hx' => exact decodeString_eq_ok_iff.mpr ⟨_, rfl, hx'.trans hx⟩

theorem decodeBool (h : Matches R room room' n n') {b : Bool}
    (hb : Json.decodeBool n = .ok b) : Json.decodeBool n' = .ok b := by
  obtain rfl := decodeBool_eq_ok_iff.mp hb
  cases h with
  | bool => exact hb

theorem decodeNullable (h : Matches R room room' n n') {α : Type} {decode decode' : Node → Decoded α}
    (step : ∀ a, decode n = .ok a → decode' n' = .ok a) {a : Option α}
    (ha : Json.decodeNullable decode n = .ok a) : Json.decodeNullable decode' n' = .ok a := by
  have present (ha : (decode n).map some = .ok a) : (decode' n').map some = .ok a := by
    obtain ⟨x, hx, rfl⟩ := map_ok ha
    rw [step x hx]
    rfl
  cases h with
  | null => exact ha
  | broken | bool | number | string | array | object => exact present ha

theorem decodeList (h : Matches R (room + 1) room' n n') {α : Type} {element : Node → Decoded α}
    (element' : Nat → Node → Decoded α)
    (step : ∀ r' n n' a, R room r' n n' → element n = .ok a → element' r' n' = .ok a) {as : List α}
    (has : Json.decodeList (some element) n = .ok as) :
    ∃ r', room' = r' + 1 ∧ Json.decodeList (some (element' r')) n' = .ok as := by
  obtain ⟨_, ns, helement, rfl, has⟩ := decodeList_eq_ok_iff.mp has
  obtain rfl := Option.some.inj helement
  cases h with
  | array _ h =>
    obtain ⟨r', rfl, each⟩ := h room rfl
    refine ⟨r', rfl, decodeList_eq_ok_iff.mpr ⟨_, _, rfl, rfl, ?_⟩⟩
    exact mapM_eq_ok_iff.mpr (forall₂_through (fun n n' a => step r' n n' a) each
      (mapM_eq_ok_iff.mp has))

theorem decodeRecord (h : Matches R (room + 1) room' n n') {μ σ : Type} [DecidableEq μ]
    {shape : Shape μ} (known : shape.Known) (members : shape.members.Nodup)
    {put : σ → μ → Node → Decoded σ} (put' : Nat → σ → μ → Node → Decoded σ) (hput : Commutes put)
    (hput' : ∀ r', Commutes (put' r'))
    (step : ∀ r' s m n n' d, R room r' n n' → put s m n = .ok d → put' r' s m n' = .ok d)
    {origin : Origin} (origin' : Origin) {start d : σ}
    (hd : Json.decodeRecord shape origin (some put) start n = .ok d) :
    ∃ r', room' = r' + 1 ∧ Json.decodeRecord shape origin' (some (put' r')) start n' = .ok d := by
  obtain ⟨-, ⟨ns, ending, rfl⟩ | ⟨ms, ending, rfl⟩⟩ := exists_of_decodeRecord hd
  · cases h with
    | array _ h =>
      obtain ⟨r', rfl, each⟩ := h room rfl
      refine ⟨r', rfl, ?_⟩
      rw [Json.decodeRecord, ← each.length_eq]
      exact Shape.fill_arrayEntries_of_forall₂ (step r') origin origin' ns.length ending each hd
  · cases h with
    | object _ h =>
      obtain ⟨r', rfl, each⟩ := h room rfl
      refine ⟨r', rfl, ?_⟩
      obtain ⟨hending, accepts, hfold⟩ := (Shape.fill_objectEntries_iff known members hput).mp hd
      rw [Json.decodeRecord]
      exact (Shape.fill_objectEntries_iff known members (hput' r')).mpr
        ⟨hending, each.accepts accepts, foldlM_of_forall₂ (step r') (each.inOrder accepts) hfold⟩

end Matches

end ContentSdl.Json
