import ContentSdl.Json.Decoder
import ContentSdl.Proofs.JsonText
import Mathlib.Data.List.Perm.Basic

/-! # The order of the members of objects -/

namespace ContentSdl.Json

theorem insertMember_perm {α : Type} {key : String} {ms : List (String × α)}
    (h : key ∉ ms.map (·.1)) (a : α) : (insertMember key a ms).Perm ((key, a) :: ms) := by
  induction ms with
  | nil => exact .refl _
  | cons m ms ih =>
    obtain ⟨k, b⟩ := m
    rw [List.map_cons, List.mem_cons, not_or] at h
    rw [insertMember, if_neg h.1]
    split
    · exact .refl _
    · exact ((ih h.2).cons (k, b)).trans (.swap (key, a) (k, b) ms)

private theorem foldl_insertMember_perm {α : Type} {ms sorted : List (String × α)}
    (h : ((ms ++ sorted).map (·.1)).Nodup) :
    (ms.foldl (fun sorted m => insertMember m.1 m.2 sorted) sorted).Perm (ms ++ sorted) := by
  induction ms generalizing sorted with
  | nil => exact .refl _
  | cons m ms ih =>
    have hm : m.1 ∉ sorted.map (·.1) := by
      rw [List.cons_append, List.map_cons, List.nodup_cons, List.map_append] at h
      exact fun hm => h.1 (List.mem_append_right _ hm)
    have hinsert := insertMember_perm hm m.2
    have hmiddle : (ms ++ insertMember m.1 m.2 sorted).Perm (m :: ms ++ sorted) :=
      (hinsert.append_left ms).trans List.perm_middle
    have hnodup : ((ms ++ insertMember m.1 m.2 sorted).map (·.1)).Nodup :=
      (hmiddle.map (·.1)).nodup_iff.mpr h
    exact (ih hnodup).trans hmiddle

theorem sortMembers_perm {α : Type} {ms : List (String × α)} (h : (ms.map (·.1)).Nodup) :
    (sortMembers ms).Perm ms := by
  have hnodup : ((ms ++ []).map Prod.fst).Nodup := by rwa [List.append_nil]
  have hsort := foldl_insertMember_perm hnodup
  rwa [List.append_nil] at hsort

/-- A way to list the members of every object anew, if their keys differ. -/
structure Arrangement where
  order : List (String × Value) → List (String × Value)
  perm : ∀ {ms : List (String × Value)}, (ms.map (·.1)).Nodup → (order ms).Perm ms

namespace Arrangement

/-- Members stay as they are listed. -/
def listed : Arrangement := ⟨id, fun _ => .refl _⟩

/-- Members come by ascending key. -/
def sorted : Arrangement := ⟨sortMembers, sortMembers_perm⟩

end Arrangement

mutual
/-- The value with the members of all its objects rearranged. -/
def Value.arranged (a : Arrangement) : Value → Value
  | .null => .null
  | .bool b => .bool b
  | .number n => .number n
  | .string s => .string s
  | .array vs => .array (arrangedElements a vs)
  | .object ms => .object (a.order (arrangedMembers a ms))

def arrangedElements (a : Arrangement) : List Value → List Value
  | [] => []
  | v :: vs => v.arranged a :: arrangedElements a vs

def arrangedMembers (a : Arrangement) : List (String × Value) → List (String × Value)
  | [] => []
  | (k, v) :: ms => (k, v.arranged a) :: arrangedMembers a ms
end

theorem arrangedElements_eq_map (a : Arrangement) (vs : List Value) :
    arrangedElements a vs = vs.map (Value.arranged a) := by
  induction vs with
  | nil => rfl
  | cons v vs ih => rw [arrangedElements, ih, List.map_cons]

theorem arrangedMembers_eq_map (a : Arrangement) (ms : List (String × Value)) :
    arrangedMembers a ms = ms.map fun m => (m.1, m.2.arranged a) := by
  induction ms with
  | nil => rfl
  | cons m ms ih => obtain ⟨k, v⟩ := m; rw [arrangedMembers, ih, List.map_cons]

namespace Value

@[simp] theorem arranged_string (a : Arrangement) (s : String) :
    (Value.string s).arranged a = .string s := by
  rw [arranged]

theorem arranged_array (a : Arrangement) (vs : List Value) :
    (Value.array vs).arranged a = .array (vs.map (Value.arranged a)) := by
  rw [arranged, arrangedElements_eq_map]

theorem arranged_object (a : Arrangement) (ms : List (String × Value)) :
    (Value.object ms).arranged a = .object (a.order (ms.map fun m => (m.1, m.2.arranged a))) := by
  rw [arranged, arrangedMembers_eq_map]

/-- Room for an array is room for all that it holds. -/
theorem exists_room_array {α : Type} {a : Arrangement} {encode : α → Value} {as : List α}
    {room : Nat} (hr : ((Value.array (as.map encode)).arranged a).height ≤ room) :
    ∃ r, room = r + 1 ∧ ∀ x ∈ as, ((encode x).arranged a).height ≤ r := by
  rw [arranged_array, List.map_map, height_array] at hr
  refine ⟨room - 1, by omega, fun x hx => ?_⟩
  have fit : heights (as.map (arranged a ∘ encode)) ≤ room - 1 := by omega
  exact heights_le_iff.mp fit _ (List.mem_map_of_mem hx)

theorem arranged_listed {v : Value} (h : v.NumberFree) : v.arranged .listed = v := by
  induction h with
  | null => rfl
  | bool b => rfl
  | string s => rfl
  | @array vs _ ih =>
    have same : vs.map (Value.arranged .listed) = vs.map id := List.map_congr_left ih
    rw [arranged_array, same, List.map_id]
  | @object ms _ ih =>
    have same : (ms.map fun m => (m.1, m.2.arranged .listed)) = ms.map id :=
      List.map_congr_left fun m hm => by rw [ih m hm]; rfl
    rw [arranged_object, same, List.map_id]
    rfl

end Value

/-- What is read of a value has its members sorted. -/
theorem Node.value_node_sorted {v : Value} (h : v.NumberFree) {room : Nat} (hr : v.height ≤ room) :
    v.node.value room = .ok (v.arranged .sorted) := by
  induction h generalizing room with
  | null => rfl
  | bool b => rfl
  | string s => rfl
  | @array vs _ ih =>
    rw [Value.height_array] at hr
    cases room with
    | zero => exact absurd hr (Nat.not_succ_le_zero _)
    | succ room =>
      have fit := Value.heights_le_iff.mp (Nat.le_of_succ_le_succ hr)
      rw [Value.node, Node.value, elementValues_nodes fun v hv => ih v hv (fit v hv),
        Value.arranged_array]
      rfl
  | @object ms _ ih =>
    rw [Value.height_object] at hr
    cases room with
    | zero => exact absurd hr (Nat.not_succ_le_zero _)
    | succ room =>
      have fit := Value.memberHeights_le_iff.mp (Nat.le_of_succ_le_succ hr)
      rw [Value.node, Node.value, memberValues_nodes fun m hm => ih m hm (fit m hm),
        Value.arranged_object]
      rfl

/-- The value of the text of a value, as far as it may be nested. -/
theorem Value.ofText_text {v : Value} (h : v.NumberFree) {room : Nat} (hr : v.height ≤ room) :
    Value.ofText room v.text = .ok (v.arranged .sorted) := by
  have hread : Document.ofChars v.text.toList = ⟨v.node, false⟩ := by
    rw [Value.text, String.toList_ofList, Document.ofChars_chars h]
  rw [Value.ofText, hread]
  change Document.finish ⟨v.node, false⟩ .malformed (v.node.value room) = _
  rw [Node.value_node_sorted h hr]
  rfl

/-- What is decoded of the text of a value is decoded of its tree. -/
theorem decodeText_text {α : Type} (decode : Node → Decoded α) {v : Value} (h : v.NumberFree) :
    decodeText decode v.text = decode v.node := by
  rw [decodeText, Value.text, String.toList_ofList, Document.ofChars_chars h]
  change Document.finish ⟨v.node, false⟩ _ (decode v.node) = _
  cases decode v.node with
  | error e => rfl
  | ok a => rfl

end ContentSdl.Json
