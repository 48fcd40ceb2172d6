import ContentSdl.Proofs.MemberOrder
import Mathlib.Data.List.Nodup

/-! # A record is decoded alike in whatever order its members are listed -/

namespace ContentSdl.Json

section

variable {μ σ : Type} {put : σ → μ → Node → Decoded σ}

/-- What two members of a record do to a draft does not depend on which of them comes first. -/
def Commutes (put : σ → μ → Node → Decoded σ) : Prop :=
  ∀ (m m' : μ), m ≠ m' → ∀ (n n' : Node) (s d : σ),
    (put s m n >>= fun s => put s m' n') = .ok d → (put s m' n' >>= fun s => put s m n) = .ok d

theorem foldlM_perm (hput : Commutes put) {es es' : List (μ × Node)} (h : es.Perm es')
    (hnodup : (es.map (·.1)).Nodup) {s d : σ}
    (hd : es.foldlM (fun s e => put s e.1 e.2) s = .ok d) :
    es'.foldlM (fun s e => put s e.1 e.2) s = .ok d := by
  induction h generalizing s with
  | nil => exact hd
  | cons e _ ih =>
    rw [List.foldlM_cons] at hd ⊢
    obtain ⟨t, ht, hd⟩ := bind_ok hd
    rw [ht]
    exact ih (List.nodup_cons.mp hnodup).2 hd
  | swap e e' es =>
    have hne : e'.1 ≠ e.1 := by
      intro he
      rw [List.map_cons, List.map_cons, he] at hnodup
      exact (List.nodup_cons.mp hnodup).1 List.mem_cons_self
    rw [List.foldlM_cons] at hd
    obtain ⟨t, ht, hd⟩ := bind_ok hd
    rw [List.foldlM_cons] at hd
    obtain ⟨u, hu, hd⟩ := bind_ok hd
    have hswap := hput e'.1 e.1 hne e'.2 e.2 s u (by rw [ht]; exact hu)
    obtain ⟨v, hv, hswap⟩ := bind_ok hswap
    have hrest : (e' :: es).foldlM (fun s e => put s e.1 e.2) v = .ok d := by
      rw [List.foldlM_cons, hswap]
      exact hd
    rw [List.foldlM_cons, hv]
    exact hrest
  | trans h _ ih ih' =>
    exact ih' ((h.map (·.1)).nodup_iff.mp hnodup) (ih hnodup hd)

/-- Puts entries into a draft in turn, with the members of their objects rearranged. -/
def putAll (put : σ → μ → Node → Decoded σ) (a : Arrangement) (s : σ) (es : List (μ × Value)) :
    Decoded σ :=
  es.foldlM (fun s e => put s e.1 (e.2.arranged a).node) s

theorem putAll_singleton (put : σ → μ → Node → Decoded σ) (a : Arrangement) (s : σ) (m : μ)
    (v : Value) : putAll put a s [(m, v)] = put s m (v.arranged a).node :=
  bind_pure _

theorem putAll_append (put : σ → μ → Node → Decoded σ) (a : Arrangement) (s : σ)
    (es es' : List (μ × Value)) :
    putAll put a s (es ++ es') = putAll put a s es >>= fun s => putAll put a s es' :=
  List.foldlM_append

end

namespace Shape

variable {μ σ : Type} {shape : Shape μ} {put : σ → μ → Node → Decoded σ}

/-- The members of an object that gives values to members of a record. -/
def membersOf (shape : Shape μ) (es : List (μ × Value)) : List (String × Value) :=
  es.map fun e => (shape.name e.1, e.2)

/-- The values of entries with the members of all objects rearranged. -/
def arrangedEntries (a : Arrangement) (es : List (μ × Value)) : List (μ × Value) :=
  es.map fun e => (e.1, e.2.arranged a)

theorem keys_arrangedEntries (a : Arrangement) (es : List (μ × Value)) :
    (arrangedEntries a es).map (·.1) = es.map (·.1) := by
  simp [arrangedEntries]

/-- Every member of a record is found by its name. -/
def Known (shape : Shape μ) : Prop := ∀ m, shape.member? (shape.name m) = some m

theorem name_injective (known : shape.Known) : Function.Injective shape.name := by
  intro m m' h
  exact Option.some.inj ((known m).symm.trans (h ▸ known m'))

theorem nodup_membersOf (known : shape.Known) {es : List (μ × Value)}
    (h : (es.map (·.1)).Nodup) : ((shape.membersOf es).map (·.1)).Nodup := by
  have keys : (shape.membersOf es).map (·.1) = (es.map (·.1)).map shape.name := by
    simp [membersOf]
  rw [keys]
  exact List.Nodup.map (name_injective known) h

/-- The members of the rearranged object are those of the entries in another order. -/
theorem arranged_membersOf (known : shape.Known) (a : Arrangement) {es : List (μ × Value)}
    (h : (es.map (·.1)).Nodup) :
    ∃ es', es'.Perm (arrangedEntries a es) ∧
      (Value.object (shape.membersOf es)).arranged a = .object (shape.membersOf es') := by
  have hmembers : (shape.membersOf es).map (fun m => (m.1, m.2.arranged a)) =
      shape.membersOf (arrangedEntries a es) := by
    simp [membersOf, arrangedEntries]
  have hperm := a.perm (nodup_membersOf known (keys_arrangedEntries a es ▸ h))
  have hcomp : Relation.Comp (· = List.map (fun e : μ × Value => (shape.name e.1, e.2)) ·) List.Perm
      (a.order (shape.membersOf (arrangedEntries a es))) (arrangedEntries a es) := by
    rw [List.eq_map_comp_perm]
    exact hperm
  obtain ⟨es', horder, hes'⟩ := hcomp
  refine ⟨es', hes', ?_⟩
  rw [Value.arranged_object, hmembers, horder]
  rfl

/-- The values of entries are nested less deep than the object. -/
theorem height_lt_of_mem (known : shape.Known) (a : Arrangement) {es : List (μ × Value)}
    (h : (es.map (·.1)).Nodup) {e : μ × Value} (he : e ∈ es) :
    (e.2.arranged a).height < ((Value.object (shape.membersOf es)).arranged a).height := by
  obtain ⟨es', hperm, harranged⟩ := arranged_membersOf known a h
  have hmem : (e.1, e.2.arranged a) ∈ es' :=
    hperm.mem_iff.mpr (List.mem_map_of_mem (f := fun e : μ × Value => (e.1, e.2.arranged a)) he)
  have hmember : (shape.name e.1, e.2.arranged a) ∈ shape.membersOf es' :=
    List.mem_map_of_mem (f := fun e : μ × Value => (shape.name e.1, e.2)) hmem
  rw [harranged, Value.height_object, Nat.lt_succ_iff]
  exact Value.memberHeights_le_iff.mp (Nat.le_refl _) _ hmember

variable [DecidableEq μ]

theorem objectEntries_membersOf (known : shape.Known) {es : List (μ × Value)} (seen : List μ)
    (h : (es.map (·.1)).Nodup) (hseen : ∀ e ∈ es, e.1 ∉ seen) :
    shape.objectEntries none seen (memberNodes (shape.membersOf es)) =
      ⟨es.map fun e => (e.1, e.2.node), shape.missing ((es.map (·.1)).reverse ++ seen)⟩ := by
  induction es generalizing seen with
  | nil => rfl
  | cons e es ih =>
    obtain ⟨m, v⟩ := e
    obtain ⟨hm, hes⟩ := List.nodup_cons.mp h
    have hnot : m ∉ seen := hseen (m, v) List.mem_cons_self
    have hrest : ∀ e ∈ es, e.1 ∉ m :: seen := by
      intro e he
      rw [List.mem_cons, not_or]
      refine ⟨fun heq => hm ?_, hseen e (List.mem_cons_of_mem _ he)⟩
      exact List.mem_map.mpr ⟨e, he, heq⟩
    have hmember : shape.member? (shape.name m) = some m := known m
    change shape.objectEntries none seen
      ((.valid (shape.name m), v.node) :: memberNodes (shape.membersOf es)) = _
    rw [objectEntries]
    simp only [Lexeme.valid, hmember, if_neg hnot, ih (m :: seen) hes hrest]
    simp [Entries.cons]

theorem missing_eq_ok {seen : List μ} (h : ∀ m ∈ shape.required, m ∈ seen) :
    shape.missing seen = .ok () := by
  have hnone : shape.required.find? (· ∉ seen) = none := by
    rw [List.find?_eq_none]
    intro m hm
    simpa using h m hm
  rw [missing, hnone]

/-- Decoding the object of some entries puts them into the draft in turn. -/
theorem decodeRecord_membersOf (known : shape.Known) {es : List (μ × Value)}
    (h : (es.map (·.1)).Nodup) (complete : ∀ m ∈ shape.required, m ∈ es.map (·.1))
    (origin : Origin) (start : σ) :
    decodeRecord shape origin (some put) start (Value.object (shape.membersOf es)).node =
      es.foldlM (fun s e => put s e.1 e.2.node) start := by
  have hentries := objectEntries_membersOf known [] h (by simp)
  have hmissing : shape.missing ((es.map (·.1)).reverse ++ []) = .ok () := by
    apply missing_eq_ok
    intro m hm
    rw [List.append_nil, List.mem_reverse]
    exact complete m hm
  rw [hmissing] at hentries
  rw [Value.node, decodeRecord]
  simp only [hentries, Entries.fill, List.foldlM_map]
  cases es.foldlM (fun s e => put s e.1 e.2.node) start with
  | error e => rfl
  | ok d => rfl

/-- How the members of objects are arranged makes no difference to what the draft of a record becomes,
if it becomes one. -/
theorem decodeRecord_arranged_iff (known : shape.Known) (hput : Commutes put) (a : Arrangement)
    {es : List (μ × Value)} (h : (es.map (·.1)).Nodup)
    (complete : ∀ m ∈ shape.required, m ∈ es.map (·.1)) (origin : Origin) (start d : σ) :
    decodeRecord shape origin (some put) start
        ((Value.object (shape.membersOf es)).arranged a).node = .ok d ↔
      putAll put a start es = .ok d := by
  obtain ⟨es', hperm, harranged⟩ := arranged_membersOf known a h
  have hkeys : (es'.map (·.1)).Perm (es.map (·.1)) :=
    keys_arrangedEntries a es ▸ hperm.map (·.1)
  have hnodes : (es'.map fun e => (e.1, e.2.node)).Perm
      (es.map fun e => (e.1, (e.2.arranged a).node)) := by
    have hmap := hperm.map fun e => (e.1, e.2.node)
    rwa [arrangedEntries, List.map_map] at hmap
  have hnodup' : ((es'.map fun e => (e.1, e.2.node)).map (·.1)).Nodup := by
    rw [List.map_map]
    exact hkeys.nodup_iff.mpr h
  have hnodup : ((es.map fun e => (e.1, (e.2.arranged a).node)).map (·.1)).Nodup := by
    rw [List.map_map]
    exact h
  rw [harranged, decodeRecord_membersOf known (hkeys.nodup_iff.mpr h)
    fun m hm => hkeys.mem_iff.mpr (complete m hm)]
  have fold (es : List (μ × Value)) (f : Value → Node) :
      es.foldlM (fun s e => put s e.1 (f e.2)) start =
        (es.map fun e => (e.1, f e.2)).foldlM (fun s e => put s e.1 e.2) start := by
    rw [List.foldlM_map]
  rw [putAll, fold es' Value.node, fold es fun v => (v.arranged a).node]
  exact ⟨foldlM_perm hput hnodes hnodup', foldlM_perm hput hnodes.symm hnodup⟩

end Shape

/-- An array stands for no absent value. -/
theorem map_decodeNullable_array {α σ : Type} (decode : Node → Decoded α) (a : Arrangement)
    (vs : List Value) (g : Option α → σ) :
    (decodeNullable decode ((Value.array vs).arranged a).node).map g =
      (decode ((Value.array vs).arranged a).node).map fun x => g (some x) := by
  rw [Value.arranged_array, Value.node]
  change ((decode _).map some).map g = _
  cases decode (.array (elementNodes (vs.map (Value.arranged a))) none) with
  | error e => rfl
  | ok x => rfl

end ContentSdl.Json
