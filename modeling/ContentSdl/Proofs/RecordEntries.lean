import ContentSdl.Proofs.RecordDecoding
import Mathlib.Data.List.Forall2

/-! # When an object makes up a record

Members are put into the record as they are read. Since puts commute, they might as well come in the
order of the record, so only the values listed under each name matter. -/

namespace ContentSdl.Json

/-- The nodes that are listed under a key. -/
def valuesOf (key : String) (ms : List (Lexeme String × Node)) : List Node :=
  (ms.filter (·.1.decoded = .ok key)).map (·.2)

theorem valuesOf_cons (key : String) (m : Lexeme String × Node) (ms : List (Lexeme String × Node)) :
    valuesOf key (m :: ms) =
      if m.1.decoded = .ok key then m.2 :: valuesOf key ms else valuesOf key ms := by
  rw [valuesOf, List.filter_cons]
  by_cases h : m.1.decoded = .ok key
  · rw [if_pos h, if_pos (by simpa using h)]
    rfl
  · rw [if_neg h, if_neg (by simpa using h)]
    rfl

theorem mem_valuesOf {key : String} {ms : List (Lexeme String × Node)} {n : Node} :
    n ∈ valuesOf key ms ↔ ∃ m ∈ ms, m.1.decoded = .ok key ∧ m.2 = n := by
  simp [valuesOf, and_assoc]

theorem valuesOf_perm {ms ms' : List (Lexeme String × Node)} (h : ms.Perm ms') (key : String) :
    (valuesOf key ms).Perm (valuesOf key ms') :=
  (h.filter _).map _

theorem Entries.fill_cons {μ σ : Type} (put : σ → μ → Node → Decoded σ) (s : σ) (m : μ) (n : Node)
    (e : Entries μ) : (e.cons m n).fill put s = put s m n >>= fun s => e.fill put s := by
  rw [fill, cons, List.foldlM_cons, bind_assoc]
  rfl

theorem Entries.fill_none_eq_ok_iff {μ σ : Type} {put : σ → μ → Node → Decoded σ} {s d : σ}
    {ending : Decoded Unit} :
    (Entries.none ending).fill put s = .ok d ↔ ending = .ok () ∧ s = d := by
  cases ending with
  | error e => exact iff_of_false nofun nofun
  | ok u => exact ⟨fun h => ⟨rfl, Except.ok.inj h⟩, fun h => congrArg _ h.2⟩

theorem stop_bind_eq_ok_iff {ending : Option Fault} {rest : Decoded Unit} :
    (fromFault (stop ending) >>= fun _ => rest) = .ok () ↔ ending = none ∧ rest = .ok () := by
  cases ending with
  | none => exact ⟨fun h => ⟨rfl, h⟩, fun h => h.2⟩
  | some f => exact iff_of_false nofun nofun

namespace Shape

section

variable {μ : Type} {shape : Shape μ}

theorem name_of_member? {key : String} {m : μ} (h : shape.member? key = some m) :
    shape.name m = key := by
  simpa using List.find?_some h

/-- The key of a member can be read, and the rest skipped if it is none of the record. -/
def Passes (shape : Shape μ) (m : Lexeme String × Node) : Prop :=
  ∃ key, m.1.decoded = .ok key ∧ (shape.member? key = none → m.2.skim = .ok ())

/-- The entries for members of the record, in the order of the object. -/
def given (shape : Shape μ) (ms : List (Lexeme String × Node)) : List (μ × Node) :=
  ms.filterMap fun m => match m.1.decoded with
    | .ok key => (shape.member? key).map (·, m.2)
    | .error _ => none

/-- The entries for members of the record, in the order of the record. -/
def inOrder (shape : Shape μ) (ms : List (Lexeme String × Node)) : List (μ × Node) :=
  shape.members.flatMap fun m => (valuesOf (shape.name m) ms).map (m, ·)

/-- An object makes up a record: all else can be skipped, no member comes twice, and none is missing
that has no default. -/
structure Accepts (shape : Shape μ) (ms : List (Lexeme String × Node)) : Prop where
  passes : ∀ m ∈ ms, shape.Passes m
  single : ∀ m, (valuesOf (shape.name m) ms).length ≤ 1
  complete : ∀ m ∈ shape.required, valuesOf (shape.name m) ms ≠ []

section

variable {e : Lexeme String × Node} {ms : List (Lexeme String × Node)} {key : String}

theorem given_cons_of_error {f : Fault} (h : e.1.decoded = .error f) :
    shape.given (e :: ms) = shape.given ms := by
  simp [given, h]

theorem given_cons_of_unknown (h : e.1.decoded = .ok key) (hm : shape.member? key = none) :
    shape.given (e :: ms) = shape.given ms := by
  simp [given, h, hm]

theorem passes_iff_of_unknown (h : e.1.decoded = .ok key) (hm : shape.member? key = none) :
    shape.Passes e ↔ e.2.skim = .ok () := by
  refine ⟨fun ⟨k, hk, hskim⟩ => hskim ?_, fun hskim => ⟨key, h, fun _ => hskim⟩⟩
  rw [← Except.ok.inj (h.symm.trans hk), hm]

theorem passes_of_known {m : μ} (h : e.1.decoded = .ok key) (hm : shape.member? key = some m) :
    shape.Passes e :=
  ⟨key, h, fun hnone => nomatch hm.symm.trans hnone⟩

theorem given_cons_of_known {m : μ} (h : e.1.decoded = .ok key) (hm : shape.member? key = some m) :
    shape.given (e :: ms) = (m, e.2) :: shape.given ms := by
  simp [given, h, hm]

end

theorem missing_eq_ok_iff [DecidableEq μ] {seen : List μ} :
    shape.missing seen = .ok () ↔ ∀ m ∈ shape.required, m ∈ seen := by
  refine ⟨fun h m hm => ?_, missing_eq_ok⟩
  rw [missing] at h
  split at h
  · cases h
  · rename_i hnone
    simpa using List.find?_eq_none.mp hnone m hm

variable {σ : Type} {put : σ → μ → Node → Decoded σ}

/-- What it takes to fill a record by an object, some members of which have been seen before. -/
theorem fill_objectEntries_iff_given [DecidableEq μ] {ending : Option Fault} {seen : List μ}
    {ms : List (Lexeme String × Node)} {s d : σ} :
    (shape.objectEntries ending seen ms).fill put s = .ok d ↔
      ending = none ∧ (∀ m ∈ ms, shape.Passes m) ∧
        (((shape.given ms).map (·.1)).Nodup ∧ ∀ m ∈ (shape.given ms).map (·.1), m ∉ seen) ∧
        (∀ m ∈ shape.required, m ∈ seen ∨ m ∈ (shape.given ms).map (·.1)) ∧
        (shape.given ms).foldlM (fun d e => put d e.1 e.2) s = .ok d := by
  induction ms generalizing seen s with
  | nil =>
    rw [objectEntries, Entries.fill_none_eq_ok_iff, stop_bind_eq_ok_iff, missing_eq_ok_iff]
    simp [given, pure, Except.pure, and_assoc]
  | cons e ms ih =>
    obtain ⟨word, n⟩ := e
    rw [objectEntries, List.forall_mem_cons]
    cases hkey : word.decoded with
    | error f =>
      refine iff_of_false (fun h => ?_) fun h => ?_
      · cases h
      · obtain ⟨key, hdecoded, -⟩ := h.2.1.1
        cases hkey.symm.trans hdecoded
    | ok key =>
      dsimp only
      cases hm : shape.member? key with
      | none =>
        rw [given_cons_of_unknown hkey hm, passes_iff_of_unknown hkey hm]
        cases hskim : n.skim with
        | error f =>
          refine iff_of_false (fun h => ?_) fun h => ?_
          · cases h
          · cases h.2.1.1
        | ok _ =>
          refine ih.trans ?_
          simp
      | some m =>
        have hpasses : shape.Passes (word, n) := passes_of_known hkey hm
        rw [given_cons_of_known hkey hm]
        dsimp only
        split
        · rename_i hseen
          refine iff_of_false (fun h => ?_) fun h => ?_
          · cases h
          · exact h.2.2.1.2 m List.mem_cons_self hseen
        · rename_i hseen
          have hkeys : (((shape.given ms).map (·.1)).Nodup ∧
              ∀ k ∈ (shape.given ms).map (·.1), k ∉ m :: seen) ↔
              ((m :: (shape.given ms).map (·.1)).Nodup ∧
                ∀ k ∈ m :: (shape.given ms).map (·.1), k ∉ seen) := by
            rw [List.nodup_cons, List.forall_mem_cons]
            simp only [List.mem_cons, not_or]
            constructor
            · rintro ⟨hnodup, hnew⟩
              exact ⟨⟨fun hmem => (hnew m hmem).1 rfl, hnodup⟩, hseen, fun k hk => (hnew k hk).2⟩
            · rintro ⟨⟨hmem, hnodup⟩, -, hnew⟩
              exact ⟨hnodup, fun k hk => ⟨fun he => hmem (he ▸ hk), hnew k hk⟩⟩
          have hrequired : (∀ k ∈ shape.required, k ∈ m :: seen ∨ k ∈ (shape.given ms).map (·.1)) ↔
              ∀ k ∈ shape.required, k ∈ seen ∨ k ∈ m :: (shape.given ms).map (·.1) := by
            simp only [List.mem_cons, or_assoc, or_left_comm]
          rw [Entries.fill_cons, List.foldlM_cons, List.map_cons]
          cases hput : put s m n with
          | error f =>
            refine iff_of_false (fun h => ?_) fun h => ?_
            · cases h
            · cases h.2.2.2.2
          | ok s' =>
            refine ih.trans ?_
            rw [hkeys, hrequired]
            simp only [hpasses, true_and]
            rfl

theorem filter_given [DecidableEq μ] (known : shape.Known) (m : μ) (ms : List (Lexeme String × Node)) :
    ((shape.given ms).filter (·.1 = m)).map (·.2) = valuesOf (shape.name m) ms := by
  induction ms with
  | nil => rfl
  | cons e ms ih =>
    rw [valuesOf_cons]
    cases hkey : e.1.decoded with
    | error f =>
      rw [given_cons_of_error hkey, ih, if_neg nofun]
    | ok key =>
      cases hm : shape.member? key with
      | none =>
        have hne : key ≠ shape.name m := by
          rintro rfl
          exact nomatch hm.symm.trans (known m)
        rw [given_cons_of_unknown hkey hm, ih, if_neg fun h => hne (Except.ok.inj h)]
      | some k =>
        have hname : key = shape.name m ↔ k = m := by
          rw [← name_of_member? hm]
          exact (name_injective known).eq_iff
        rw [given_cons_of_known hkey hm, List.filter_cons]
        by_cases hk : k = m
        · simp [hk, hname.mpr hk, ih]
        · simp [hk, mt hname.mp hk, ih]

theorem mem_given (known : shape.Known) {ms : List (Lexeme String × Node)} {e : μ × Node} :
    e ∈ shape.given ms ↔ e.2 ∈ valuesOf (shape.name e.1) ms := by
  classical
  rw [← filter_given known, List.mem_map]
  constructor
  · exact fun h => ⟨e, List.mem_filter.mpr ⟨h, by simp⟩, rfl⟩
  · rintro ⟨e', he', hnode⟩
    obtain ⟨hmem, hkey⟩ := List.mem_filter.mp he'
    rwa [← Prod.ext (of_decide_eq_true hkey) hnode]

theorem mem_keys_given (known : shape.Known) {ms : List (Lexeme String × Node)} {m : μ} :
    m ∈ (shape.given ms).map (·.1) ↔ valuesOf (shape.name m) ms ≠ [] := by
  rw [List.mem_map]
  constructor
  · rintro ⟨e, he, rfl⟩
    exact List.ne_nil_of_mem ((mem_given known).mp he)
  · intro h
    obtain ⟨n, hn⟩ := List.exists_mem_of_ne_nil _ h
    exact ⟨(m, n), (mem_given known).mpr hn, rfl⟩

theorem nodup_keys_given_iff (known : shape.Known) (ms : List (Lexeme String × Node)) :
    ((shape.given ms).map (·.1)).Nodup ↔ ∀ m, (valuesOf (shape.name m) ms).length ≤ 1 := by
  classical
  rw [List.nodup_iff_count_le_one]
  refine forall_congr' fun m => ?_
  have hcount : List.count m ((shape.given ms).map (·.1)) =
      ((shape.given ms).filter (·.1 = m)).length := by
    rw [List.count, List.countP_map, List.countP_eq_length_filter]
    rfl
  rw [hcount, ← filter_given known, List.length_map]

theorem mem_members (known : shape.Known) (m : μ) : m ∈ shape.members :=
  List.mem_of_find?_eq_some (known m)

theorem mem_inOrder (known : shape.Known) {ms : List (Lexeme String × Node)} {e : μ × Node} :
    e ∈ shape.inOrder ms ↔ e.2 ∈ valuesOf (shape.name e.1) ms := by
  rw [inOrder, List.mem_flatMap]
  constructor
  · rintro ⟨m, -, he⟩
    obtain ⟨n, hn, rfl⟩ := List.mem_map.mp he
    exact hn
  · intro h
    exact ⟨e.1, mem_members known e.1, List.mem_map.mpr ⟨e.2, h, rfl⟩⟩

theorem nodup_inOrder (members : shape.members.Nodup) {ms : List (Lexeme String × Node)}
    (single : ∀ m, (valuesOf (shape.name m) ms).length ≤ 1) : (shape.inOrder ms).Nodup := by
  rw [inOrder, List.nodup_flatMap]
  constructor
  · intro m _
    match valuesOf (shape.name m) ms, single m with
    | [], _ => exact List.nodup_nil
    | [n], _ => exact List.nodup_singleton (m, n)
  · refine members.imp fun hne => ?_
    intro e he he'
    obtain ⟨n, -, rfl⟩ := List.mem_map.mp he
    obtain ⟨n', -, heq⟩ := List.mem_map.mp he'
    exact hne (Prod.mk.inj heq).1.symm

theorem given_perm_inOrder (known : shape.Known) (members : shape.members.Nodup)
    {ms : List (Lexeme String × Node)} (single : ∀ m, (valuesOf (shape.name m) ms).length ≤ 1) :
    (shape.given ms).Perm (shape.inOrder ms) := by
  have hgiven : (shape.given ms).Nodup := .of_map _ ((nodup_keys_given_iff known ms).mpr single)
  rw [List.perm_ext_iff_of_nodup hgiven (nodup_inOrder members single)]
  exact fun e => (mem_given known).trans (mem_inOrder known).symm

/-- What it takes to fill a record by an object, whatever the order of the object. -/
theorem fill_objectEntries_iff [DecidableEq μ] (known : shape.Known)
    (members : shape.members.Nodup) (hput : Commutes put) {ending : Option Fault}
    {ms : List (Lexeme String × Node)} {s d : σ} :
    (shape.objectEntries ending [] ms).fill put s = .ok d ↔
      ending = none ∧ shape.Accepts ms ∧
        (shape.inOrder ms).foldlM (fun d e => put d e.1 e.2) s = .ok d := by
  rw [fill_objectEntries_iff_given]
  constructor
  · rintro ⟨hending, hpass, ⟨hnodup, -⟩, hrequired, hfold⟩
    have single := (nodup_keys_given_iff known ms).mp hnodup
    refine ⟨hending, ⟨hpass, single, fun m hm => ?_⟩, ?_⟩
    · exact (mem_keys_given known).mp ((hrequired m hm).resolve_left List.not_mem_nil)
    · exact foldlM_perm hput (given_perm_inOrder known members single) hnodup hfold
  · rintro ⟨hending, accepts, hfold⟩
    have hnodup := (nodup_keys_given_iff known ms).mpr accepts.single
    have hperm := given_perm_inOrder known members accepts.single
    refine ⟨hending, accepts.passes, ⟨hnodup, fun _ _ => List.not_mem_nil⟩, fun m hm => ?_, ?_⟩
    · exact .inr ((mem_keys_given known).mpr (accepts.complete m hm))
    · exact foldlM_perm hput hperm.symm ((hperm.map _).nodup_iff.mp hnodup) hfold

end

end Shape

end ContentSdl.Json
