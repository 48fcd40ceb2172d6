/-! # Finite maps that keep the order in which their keys were first inserted -/

namespace ContentSdl

/-- Entries by key; no key occurs twice. -/
@[ext] structure OrderedMap (α : Type) where
  entries : List (String × α)
  nodup : (entries.map (·.1)).Nodup
  deriving DecidableEq

namespace OrderedMap

variable {α : Type}

/-- Puts an entry in the place of the one with its key, or at the end. -/
def putEntry (key : String) (a : α) : List (String × α) → List (String × α)
  | [] => [(key, a)]
  | (k, b) :: es => if k = key then (key, a) :: es else (k, b) :: putEntry key a es

theorem keys_putEntry (key : String) (a : α) (es : List (String × α)) :
    (putEntry key a es).map (·.1) =
      if key ∈ es.map (·.1) then es.map (·.1) else es.map (·.1) ++ [key] := by
  induction es with
  | nil => simp [putEntry]
  | cons e es ih =>
    obtain ⟨k, b⟩ := e
    by_cases h : k = key
    · subst h; simp [putEntry]
    · have h' : ¬key = k := fun e => h e.symm
      simp only [putEntry, h, if_false, List.map_cons, ih, List.mem_cons, h', false_or]
      split <;> simp

theorem nodup_putEntry (key : String) (a : α) {es : List (String × α)}
    (h : (es.map (·.1)).Nodup) : ((putEntry key a es).map (·.1)).Nodup := by
  rw [keys_putEntry]
  split
  · exact h
  · rename_i hk
    rw [List.nodup_append]
    exact ⟨h, by simp, by simpa using fun k b hm e => hk (List.mem_map.mpr ⟨(k, b), hm, e⟩)⟩

def empty : OrderedMap α := ⟨[], List.nodup_nil⟩

instance : Inhabited (OrderedMap α) := ⟨empty⟩

/-- A key that is there keeps its position and takes the new value. -/
def insert (m : OrderedMap α) (key : String) (a : α) : OrderedMap α :=
  ⟨putEntry key a m.entries, nodup_putEntry key a m.nodup⟩

def keys (m : OrderedMap α) : List String := m.entries.map (·.1)

def get? (m : OrderedMap α) (key : String) : Option α := m.entries.lookup key

/-- A key that is there keeps its value too. -/
def insertIfNew (m : OrderedMap α) (key : String) (a : α) : OrderedMap α :=
  if key ∈ m.keys then m else m.insert key a

/-- Inserts entries one after another. -/
def insertAll (m : OrderedMap α) (es : List (String × α)) : OrderedMap α :=
  es.foldl (fun m e => m.insert e.1 e.2) m

def ofList (es : List (String × α)) : OrderedMap α := empty.insertAll es

@[simp] theorem entries_empty : (empty : OrderedMap α).entries = [] := rfl

@[simp] theorem keys_empty : (empty : OrderedMap α).keys = [] := rfl

theorem keys_nodup (m : OrderedMap α) : m.keys.Nodup := m.nodup

theorem keys_insert (m : OrderedMap α) (key : String) (a : α) :
    (m.insert key a).keys = if key ∈ m.keys then m.keys else m.keys ++ [key] :=
  keys_putEntry key a m.entries

private theorem lookup_cons_ne {k j : String} (h : k ≠ j) (a : α) (es : List (String × α)) :
    ((j, a) :: es).lookup k = es.lookup k := by
  rw [List.lookup_cons, beq_false_of_ne h]

theorem lookup_putEntry (key k : String) (a : α) (es : List (String × α)) :
    (putEntry key a es).lookup k = if k = key then some a else es.lookup k := by
  induction es with
  | nil =>
    by_cases h : k = key
    · subst h; simp [putEntry]
    · rw [putEntry, lookup_cons_ne h, if_neg h]
  | cons e es ih =>
    obtain ⟨j, b⟩ := e
    by_cases hj : j = key
    · subst hj
      by_cases h : k = j
      · subst h; simp [putEntry]
      · rw [putEntry, if_pos rfl, lookup_cons_ne h, lookup_cons_ne h, if_neg h]
    · rw [putEntry, if_neg hj]
      by_cases h : k = j
      · subst h; rw [List.lookup_cons_self, List.lookup_cons_self, if_neg hj]
      · rw [lookup_cons_ne h, lookup_cons_ne h, ih]

theorem get?_insert (m : OrderedMap α) (key k : String) (a : α) :
    (m.insert key a).get? k = if k = key then some a else m.get? k :=
  lookup_putEntry key k a m.entries

theorem isSome_get? (m : OrderedMap α) (key : String) : (m.get? key).isSome ↔ key ∈ m.keys := by
  simp [get?, keys]

theorem keys_insertIfNew (m : OrderedMap α) (key : String) (a : α) :
    (m.insertIfNew key a).keys = if key ∈ m.keys then m.keys else m.keys ++ [key] := by
  unfold insertIfNew
  split
  · rfl
  · rename_i h; rw [keys_insert, if_neg h]

theorem insertIfNew_of_mem {m : OrderedMap α} {key : String} (h : key ∈ m.keys) (a : α) :
    m.insertIfNew key a = m := if_pos h

theorem putEntry_of_not_mem {key : String} {es : List (String × α)} (h : key ∉ es.map (·.1))
    (a : α) : putEntry key a es = es ++ [(key, a)] := by
  induction es with
  | nil => rfl
  | cons e es ih =>
    obtain ⟨k, b⟩ := e
    obtain ⟨hk, hes⟩ := not_or.mp (mt List.mem_cons.mpr h)
    rw [putEntry, if_neg fun e => hk e.symm, ih hes, List.cons_append]

theorem entries_insertIfNew {m : OrderedMap α} {key : String} (h : key ∉ m.keys) (a : α) :
    (m.insertIfNew key a).entries = m.entries ++ [(key, a)] := by
  rw [insertIfNew, if_neg h]
  exact putEntry_of_not_mem h a

theorem mem_putEntry {key : String} {a : α} {e : String × α} {es : List (String × α)}
    (h : e ∈ putEntry key a es) : e = (key, a) ∨ e ∈ es := by
  induction es with
  | nil => exact .inl (List.mem_singleton.mp h)
  | cons d es ih =>
    obtain ⟨k, b⟩ := d
    rw [putEntry] at h
    split at h
    · exact (List.mem_cons.mp h).imp_right (List.mem_cons_of_mem _)
    · rcases List.mem_cons.mp h with rfl | h
      · exact .inr List.mem_cons_self
      · exact (ih h).imp_right (List.mem_cons_of_mem _)

@[simp] theorem insertAll_nil (m : OrderedMap α) : m.insertAll [] = m := rfl

@[simp] theorem insertAll_cons (m : OrderedMap α) (e : String × α) (es : List (String × α)) :
    m.insertAll (e :: es) = (m.insert e.1 e.2).insertAll es := rfl

theorem insertAll_append (m : OrderedMap α) (es fs : List (String × α)) :
    m.insertAll (es ++ fs) = (m.insertAll es).insertAll fs := List.foldl_append

/-- Nothing is in a map but what was in it and what was put into it. -/
theorem mem_insertAll {m : OrderedMap α} {e : String × α} {es : List (String × α)}
    (h : e ∈ (m.insertAll es).entries) : e ∈ m.entries ∨ e ∈ es := by
  induction es generalizing m with
  | nil => exact .inl h
  | cons d es ih =>
    rcases ih h with h | h
    · rcases mem_putEntry h with rfl | h
      · exact .inr List.mem_cons_self
      · exact .inl h
    · exact .inr (List.mem_cons_of_mem _ h)

theorem mem_ofList {e : String × α} {es : List (String × α)} (h : e ∈ (ofList es).entries) :
    e ∈ es :=
  (mem_insertAll h).resolve_left (by simp)

end OrderedMap

end ContentSdl
