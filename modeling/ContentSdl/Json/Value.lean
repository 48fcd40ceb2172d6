import ContentSdl.Double.Binary64

/-! # JSON values -/

namespace ContentSdl.Json

/-- Integers within 64 bits are exact; every other number is a double. -/
inductive Number where
  | int (n : Int)
  | real (x : Double.Binary64)
  deriving DecidableEq, Repr, Inhabited

/-- The members of an object keep the order in which they are listed. -/
inductive Value where
  | null
  | bool (b : Bool)
  | number (n : Number)
  | string (s : String)
  | array (elements : List Value)
  | object (members : List (String × Value))
  deriving Repr, Inhabited

namespace Value

/-- The value of the first member with the given key. -/
def member? (key : String) : Value → Option Value
  | .object members => members.lookup key
  | _ => none

mutual
/-- How deep arrays and objects are nested. -/
def height : Value → Nat
  | .null | .bool _ | .number _ | .string _ => 0
  | .array vs => heights vs + 1
  | .object ms => memberHeights ms + 1

def heights : List Value → Nat
  | [] => 0
  | v :: vs => max v.height (heights vs)

def memberHeights : List (String × Value) → Nat
  | [] => 0
  | (_, v) :: ms => max v.height (memberHeights ms)
end

@[simp] theorem height_array (vs : List Value) : (Value.array vs).height = heights vs + 1 := by
  rw [height]

@[simp] theorem height_object (ms : List (String × Value)) :
    (Value.object ms).height = memberHeights ms + 1 := by
  rw [height]

theorem heights_le_iff {vs : List Value} {k : Nat} : heights vs ≤ k ↔ ∀ v ∈ vs, v.height ≤ k := by
  induction vs with
  | nil => simp [heights]
  | cons v vs ih => rw [heights, Nat.max_le, ih, List.forall_mem_cons]

theorem memberHeights_le_iff {ms : List (String × Value)} {k : Nat} :
    memberHeights ms ≤ k ↔ ∀ m ∈ ms, m.2.height ≤ k := by
  induction ms with
  | nil => simp [memberHeights]
  | cons m ms ih =>
    obtain ⟨j, v⟩ := m
    rw [memberHeights, Nat.max_le, ih, List.forall_mem_cons]

end Value

/-- Puts a member into an object whose keys ascend, in place of one with the same key. -/
def insertMember {α : Type} (key : String) (a : α) : List (String × α) → List (String × α)
  | [] => [(key, a)]
  | (k, b) :: ms =>
    if key < k then (key, a) :: (k, b) :: ms
    else if key = k then (key, a) :: ms
    else (k, b) :: insertMember key a ms

/-- The members by ascending key; of repeated keys the last counts. -/
def sortMembers {α : Type} (ms : List (String × α)) : List (String × α) :=
  ms.foldl (fun sorted m => insertMember m.1 m.2 sorted) []

theorem mem_keys_insertMember {α : Type} (key k : String) (a : α) (ms : List (String × α)) :
    k ∈ (insertMember key a ms).map (·.1) ↔ k = key ∨ k ∈ ms.map (·.1) := by
  induction ms with
  | nil => simp [insertMember]
  | cons m ms ih =>
    obtain ⟨j, b⟩ := m
    rw [insertMember]
    split
    · simp
    · split
      · rename_i h; subst h; simp
      · rw [List.map_cons, List.mem_cons, ih, List.map_cons, List.mem_cons]
        exact or_left_comm

theorem mem_insertMember {α : Type} {key : String} {a : α} {m : String × α}
    {ms : List (String × α)} (h : m ∈ insertMember key a ms) : m = (key, a) ∨ m ∈ ms := by
  induction ms with
  | nil => simpa [insertMember] using h
  | cons e ms ih =>
    obtain ⟨j, b⟩ := e
    rw [insertMember] at h
    split at h
    · exact List.mem_cons.mp h
    · split at h
      · exact (List.mem_cons.mp h).imp_right (List.mem_cons_of_mem _)
      · rcases List.mem_cons.mp h with rfl | h
        · exact .inr List.mem_cons_self
        · exact (ih h).imp_right (List.mem_cons_of_mem _)

/-- Keys of members ascend strictly. -/
def Ascending {α : Type} (ms : List (String × α)) : Prop := (ms.map (·.1)).Pairwise (· < ·)

theorem ascending_insertMember {α : Type} (key : String) (a : α) {ms : List (String × α)}
    (h : Ascending ms) : Ascending (insertMember key a ms) := by
  induction ms with
  | nil => simp [insertMember, Ascending]
  | cons m ms ih =>
    obtain ⟨j, b⟩ := m
    obtain ⟨hj, hms⟩ := List.pairwise_cons.mp h
    rw [insertMember]
    split
    · rename_i hlt
      refine List.pairwise_cons.mpr ⟨fun k hk => ?_, h⟩
      rcases List.mem_cons.mp hk with rfl | hk
      · exact hlt
      · exact String.lt_trans hlt (hj k hk)
    · split
      · rename_i he
        subst he
        exact List.pairwise_cons.mpr ⟨hj, hms⟩
      · rename_i hlt hne
        refine List.pairwise_cons.mpr ⟨fun k hk => ?_, ih hms⟩
        rcases (mem_keys_insertMember key k a ms).mp hk with rfl | hk
        · exact Std.lt_of_le_of_ne (String.not_lt.mp hlt) fun e => hne e.symm
        · exact hj k hk

theorem insertMember_of_ascending {α : Type} {key : String} {a : α} {ms : List (String × α)}
    (h : ∀ k ∈ ms.map (·.1), k < key) : insertMember key a ms = ms ++ [(key, a)] := by
  induction ms with
  | nil => rfl
  | cons m ms ih =>
    obtain ⟨j, b⟩ := m
    have hj : j < key := h j List.mem_cons_self
    have hne : key ≠ j := fun e => String.lt_irrefl key (e ▸ hj)
    rw [insertMember, if_neg (String.lt_asymm hj), if_neg hne,
      ih fun k hk => h k (List.mem_cons_of_mem _ hk)]
    rfl

private theorem foldl_insertMember {α : Type} (ms sorted : List (String × α)) (h : Ascending sorted) :
    Ascending (ms.foldl (fun sorted m => insertMember m.1 m.2 sorted) sorted) ∧
      ∀ m ∈ ms.foldl (fun sorted m => insertMember m.1 m.2 sorted) sorted, m ∈ sorted ∨ m ∈ ms := by
  induction ms generalizing sorted with
  | nil => exact ⟨h, fun m hm => .inl hm⟩
  | cons e ms ih =>
    obtain ⟨ha, hm⟩ := ih _ (ascending_insertMember e.1 e.2 h)
    refine ⟨ha, fun m h => ?_⟩
    rcases hm m h with h | h
    · rcases mem_insertMember h with rfl | h
      · exact .inr List.mem_cons_self
      · exact .inl h
    · exact .inr (List.mem_cons_of_mem _ h)

theorem ascending_sortMembers {α : Type} (ms : List (String × α)) : Ascending (sortMembers ms) :=
  (foldl_insertMember ms [] List.Pairwise.nil).1

theorem mem_of_mem_sortMembers {α : Type} {m : String × α} {ms : List (String × α)}
    (h : m ∈ sortMembers ms) : m ∈ ms :=
  ((foldl_insertMember ms [] List.Pairwise.nil).2 m h).resolve_left (by simp)

private theorem foldl_of_ascending {α : Type} (ms sorted : List (String × α))
    (h : Ascending (sorted ++ ms)) :
    ms.foldl (fun sorted m => insertMember m.1 m.2 sorted) sorted = sorted ++ ms := by
  induction ms generalizing sorted with
  | nil => simp
  | cons m ms ih =>
    have hlt : ∀ k ∈ sorted.map (·.1), k < m.1 := by
      intro k hk
      rw [Ascending, List.map_append, List.pairwise_append] at h
      exact h.2.2 k hk m.1 List.mem_cons_self
    rw [List.foldl_cons, insertMember_of_ascending hlt, ih _ (by simpa using h)]
    simp

theorem sortMembers_of_ascending {α : Type} {ms : List (String × α)} (h : Ascending ms) :
    sortMembers ms = ms :=
  foldl_of_ascending ms [] h

/-- Every object lists its keys strictly ascending. -/
inductive Value.Sorted : Value → Prop where
  | null : Sorted .null
  | bool (b : Bool) : Sorted (.bool b)
  | number (n : Number) : Sorted (.number n)
  | string (s : String) : Sorted (.string s)
  | array {vs : List Value} (each : ∀ v ∈ vs, v.Sorted) : Sorted (.array vs)
  | object {ms : List (String × Value)} (keys : Ascending ms)
      (each : ∀ m ∈ ms, m.2.Sorted) : Sorted (.object ms)

end ContentSdl.Json
