import ContentSdl.Proofs.BuildEvents

/-! # Maps after many insertions: keys in order of first insertion, values of the last -/

namespace ContentSdl

/-- What was seen before matters only as a set. -/
theorem firstFrom_congr {α κ : Type} [DecidableEq κ] (key : α → κ) {seen seen' : List κ}
    (h : ∀ k, k ∈ seen ↔ k ∈ seen') (as : List α) : firstFrom key seen as = firstFrom key seen' as := by
  induction as generalizing seen seen' with
  | nil => rfl
  | cons a as ih =>
    have tail : firstFrom key (key a :: seen) as = firstFrom key (key a :: seen') as :=
      ih fun k => by simp [h]
    rw [firstFrom, firstFrom, ih h, tail]
    simp only [h]

/-- Where no key occurs twice, every entry is found by its key. -/
theorem lookup_of_mem {α : Type} {es : List (String × α)} (nodup : (es.map (·.1)).Nodup)
    {e : String × α} (h : e ∈ es) : es.lookup e.1 = some e.2 := by
  obtain ⟨before, after, rfl⟩ := List.append_of_mem h
  rw [List.map_append, List.map_cons, List.nodup_append] at nodup
  have fresh : before.lookup e.1 = none := by
    rw [List.lookup_eq_none_iff]
    intro d hd
    simpa using (nodup.2.2 d.1 (List.mem_map_of_mem hd) e.1 List.mem_cons_self).symm
  rw [List.lookup_append, fresh, List.lookup_cons_self, Option.none_or]

/-- From either end the same entry is found then. -/
theorem lookup_reverse {α : Type} {es : List (String × α)} (nodup : (es.map (·.1)).Nodup)
    (key : String) : es.reverse.lookup key = es.lookup key := by
  have reversed : (es.reverse.map (·.1)).Nodup := by
    rw [List.map_reverse, List.nodup_reverse]
    exact nodup
  cases h : es.lookup key with
  | none =>
    rw [List.lookup_eq_none_iff] at h ⊢
    exact fun e he => h e (List.mem_reverse.mp he)
  | some a =>
    obtain ⟨before, after, rfl, -⟩ := List.lookup_eq_some_iff.mp h
    exact lookup_of_mem reversed (e := (key, a)) (by simp)

/-- Keys that a first part has dropped as seen are dropped anyway. -/
theorem firstFrom_firstFrom {α κ : Type} [DecidableEq κ] (key : α → κ) {seen seen' : List κ}
    (h : seen' ⊆ seen) (as : List α) :
    firstFrom key seen (firstFrom key seen' as) = firstFrom key seen as := by
  induction as generalizing seen seen' with
  | nil => rfl
  | cons a as ih =>
    by_cases h' : key a ∈ seen'
    · have skip : firstFrom key seen' (a :: as) = firstFrom key seen' as := by rw [firstFrom, if_pos h']
      rw [skip, firstFrom, if_pos (h h'), ih h]
    · have keep : firstFrom key seen' (a :: as) = a :: firstFrom key (key a :: seen') as := by
        rw [firstFrom, if_neg h']
      rw [keep, firstFrom, firstFrom]
      by_cases hs : key a ∈ seen
      · rw [if_pos hs, if_pos hs]
        exact ih (List.cons_subset.mpr ⟨hs, h⟩)
      · rw [if_neg hs, if_neg hs, ih (List.cons_subset_cons (key a) h)]

theorem firstFrom_id_of_nodup {κ : Type} [DecidableEq κ] (seen : List κ) {as : List κ}
    (nodup : as.Nodup) : firstFrom id seen as = as.filter (· ∉ seen) := by
  induction as generalizing seen with
  | nil => rfl
  | cons a as ih =>
    obtain ⟨ha, has⟩ := List.nodup_cons.mp nodup
    rw [firstFrom, List.filter_cons, ih seen has, id, ih (a :: seen) has]
    by_cases h : a ∈ seen
    · simp [h]
    · have later : as.filter (· ∉ a :: seen) = as.filter (· ∉ seen) := by
        apply List.filter_congr
        intro b hb
        have hne : b ≠ a := fun e => ha (e ▸ hb)
        simp [hne]
      rw [later]
      simp [h]

namespace OrderedMap

variable {α : Type}

/-- A key that is new is seen from then on. -/
private theorem append_firstFrom_cons (keys : List String) (k : String) (ks : List String) :
    (if k ∈ keys then keys else keys ++ [k]) ++
        firstFrom id (if k ∈ keys then keys else keys ++ [k]) ks =
      keys ++ firstFrom id keys (k :: ks) := by
  rw [firstFrom]
  by_cases h : k ∈ keys
  · simp [h]
  · have seen : firstFrom id (keys ++ [k]) ks = firstFrom id (k :: keys) ks :=
      firstFrom_congr id (fun j => by simp [or_comm]) ks
    simp only [if_neg h, id, seen, List.append_assoc, List.singleton_append]

theorem keys_insertAll (m : OrderedMap α) (es : List (String × α)) :
    (m.insertAll es).keys = m.keys ++ firstFrom id m.keys (es.map (·.1)) := by
  induction es generalizing m with
  | nil => simp [firstFrom]
  | cons e es ih =>
    rw [insertAll_cons, ih, keys_insert, append_firstFrom_cons, List.map_cons]

theorem keys_ofList (es : List (String × α)) : (ofList es).keys = distinct (es.map (·.1)) :=
  keys_insertAll empty es

theorem get?_insertAll (m : OrderedMap α) (es : List (String × α)) (key : String) :
    (m.insertAll es).get? key = (es.reverse.lookup key).or (m.get? key) := by
  induction es generalizing m with
  | nil => rfl
  | cons e es ih =>
    rw [insertAll_cons, ih, get?_insert, List.reverse_cons, List.lookup_append, Option.or_assoc]
    congr 1
    rw [List.lookup_cons, List.lookup_nil]
    by_cases h : key = e.1
    · simp [h]
    · simp [beq_false_of_ne h, h]

theorem mem_entries_of_get? {m : OrderedMap α} {key : String} {a : α} (h : m.get? key = some a) :
    (key, a) ∈ m.entries := by
  obtain ⟨before, after, entries, -⟩ := List.lookup_eq_some_iff.mp h
  rw [entries]
  exact List.mem_append_right before List.mem_cons_self

/-- An entry that is not replaced by a later one stays. -/
theorem get?_ofList_append {before after : List (String × α)} {key : String} {a : α}
    (h : ∀ e ∈ after, e.1 ≠ key) : (ofList (before ++ (key, a) :: after)).get? key = some a := by
  have later : after.reverse.lookup key = none := by
    rw [List.lookup_eq_none_iff]
    intro e he
    simpa using (h e (List.mem_reverse.mp he)).symm
  rw [ofList, get?_insertAll, List.reverse_append, List.reverse_cons, List.append_assoc,
    List.lookup_append, later]
  simp

/-- Maps are equal that have the same keys in the same order, with the same values. -/
theorem ext_get? {m m' : OrderedMap α} (keys : m.keys = m'.keys)
    (values : ∀ key, m.get? key = m'.get? key) : m = m' := by
  have listed (n : OrderedMap α) :
      n.entries.map (fun e => (e.1, some e.2)) = n.keys.map fun key => (key, n.get? key) := by
    rw [OrderedMap.keys, List.map_map]
    refine List.map_congr_left fun e he => ?_
    exact congrArg (Prod.mk e.1) (lookup_of_mem n.nodup he).symm
  have same : m.entries.map (fun e => (e.1, some e.2)) = m'.entries.map fun e => (e.1, some e.2) := by
    rw [listed, listed, keys]
    exact List.map_congr_left fun key _ => congrArg (Prod.mk key) (values key)
  apply OrderedMap.ext
  exact List.map_injective_iff.mpr (fun e e' h => by simpa [Prod.ext_iff] using h) same

/-- The entries of a second map join those of the first: its new keys follow, its values win. -/
theorem keys_insertAll_entries (m n : OrderedMap α) :
    (m.insertAll n.entries).keys = m.keys ++ n.keys.filter (· ∉ m.keys) := by
  rw [keys_insertAll, ← firstFrom_id_of_nodup m.keys n.keys_nodup]
  rfl

theorem get?_insertAll_entries (m n : OrderedMap α) (key : String) :
    (m.insertAll n.entries).get? key = (n.get? key).or (m.get? key) := by
  rw [get?_insertAll, lookup_reverse n.nodup]
  rfl

/-- It does not matter whether entries are made into a map before they are inserted. -/
theorem insertAll_entries_ofList (m : OrderedMap α) (es : List (String × α)) :
    m.insertAll (ofList es).entries = m.insertAll es := by
  apply ext_get?
  · have firsts : firstFrom id m.keys (distinct (es.map (·.1))) =
        firstFrom id m.keys (es.map (·.1)) :=
      firstFrom_firstFrom id (List.nil_subset m.keys) _
    rw [keys_insertAll, keys_insertAll, ← firsts, ← keys_ofList]
    rfl
  · intro key
    rw [get?_insertAll_entries, get?_insertAll, ofList, get?_insertAll]
    simp [get?]

/-- Entries that give way to those there are appended, if their keys are new. -/
theorem entries_foldl_insertIfNew {β : Type} (key : β → String) (value : β → α)
    (m : OrderedMap α) {bs : List β} (nodup : (bs.map key).Nodup) :
    (bs.foldl (fun m b => m.insertIfNew (key b) (value b)) m).entries =
      m.entries ++ (bs.filter (key · ∉ m.keys)).map fun b => (key b, value b) := by
  induction bs generalizing m with
  | nil => simp
  | cons b bs ih =>
    obtain ⟨hb, hbs⟩ := List.nodup_cons.mp nodup
    rw [List.foldl_cons, ih _ hbs]
    by_cases h : key b ∈ m.keys
    · rw [insertIfNew_of_mem h, List.filter_cons_of_neg (by simpa using h)]
    · have later : bs.filter (key · ∉ (m.insertIfNew (key b) (value b)).keys) =
          bs.filter (key · ∉ m.keys) := by
        apply List.filter_congr
        intro c hc
        have hne : key c ≠ key b := fun e => hb (e ▸ List.mem_map_of_mem hc)
        simp [keys_insertIfNew, h, hne]
      rw [later, entries_insertIfNew h, List.filter_cons_of_pos (by simpa using h),
        List.map_cons, List.append_assoc, List.singleton_append]

theorem foldl_insertIfNew_of_mem {β : Type} (key : β → String) (value : β → α)
    {m : OrderedMap α} {bs : List β} (h : ∀ b ∈ bs, key b ∈ m.keys) :
    bs.foldl (fun m b => m.insertIfNew (key b) (value b)) m = m := by
  induction bs with
  | nil => rfl
  | cons b bs ih =>
    obtain ⟨hb, hbs⟩ := List.forall_mem_cons.mp h
    rw [List.foldl_cons, insertIfNew_of_mem hb]
    exact ih hbs

/-- A map is listed by its keys. -/
theorem entries_eq_map_keys {m : OrderedMap α} {value : String → α}
    (h : ∀ key ∈ m.keys, m.get? key = some (value key)) :
    m.entries = m.keys.map fun key => (key, value key) := by
  have same : ∀ e ∈ m.entries, (e.1, value e.1) = e := by
    intro e he
    have found := h e.1 (List.mem_map_of_mem he)
    rw [get?, lookup_of_mem m.nodup he] at found
    rw [← Option.some.inj found]
  rw [keys, List.map_map]
  exact ((List.map_congr_left same).trans (List.map_id _)).symm

end OrderedMap

namespace Registry

theorem keys_recordAll (r : Registry) (us : List (String × String)) :
    (r.recordAll us).globals.keys =
      r.globals.keys ++ firstFrom id r.globals.keys (us.map (·.1)) := by
  induction us generalizing r with
  | nil => simp [firstFrom, recordAll]
  | cons u us ih =>
    have tail := ih (r.record u.1 u.2)
    rw [record, OrderedMap.keys_insert, OrderedMap.append_firstFrom_cons] at tail
    exact tail

/-- The users of a definition are those of its uses, in order. -/
theorem users?_recordAll (r : Registry) (us : List (String × String)) (definition : String) :
    ((r.recordAll us).users? definition).getD [] =
      (r.users? definition).getD [] ++ (us.filter (·.1 = definition)).map (·.2) := by
  induction us generalizing r with
  | nil => simp [recordAll]
  | cons u us ih =>
    have h := ih (r.record u.1 u.2)
    rw [users?_record] at h
    rw [recordAll, List.foldl_cons, List.filter_cons]
    refine Eq.trans h ?_
    by_cases hu : u.1 = definition
    · simp [hu]
    · simp [hu, Ne.symm hu]

/-- Uses on a fresh registry list each definition once, in order of first use, with all its users. -/
theorem entries_recordAll (us : List (String × String)) :
    (recordAll {} us).globals.entries = (distinct (us.map (·.1))).map fun definition =>
      (definition, (us.filter (·.1 = definition)).map (·.2)) := by
  have keys : (recordAll {} us).globals.keys = distinct (us.map (·.1)) := keys_recordAll {} us
  rw [← keys]
  apply OrderedMap.entries_eq_map_keys
  intro definition hd
  have users := users?_recordAll {} us definition
  obtain ⟨list, found⟩ := Option.isSome_iff_exists.mp ((OrderedMap.isSome_get? _ definition).mpr hd)
  rw [users?, found, Option.getD_some] at users
  rw [found, users]
  rfl

end Registry

end ContentSdl
