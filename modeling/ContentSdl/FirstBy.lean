/-! # First occurrences in a list -/

namespace ContentSdl

variable {α β κ : Type} [DecidableEq κ]

/-- The elements whose key is not among those seen before. -/
def firstFrom (key : α → κ) : List κ → List α → List α
  | _, [] => []
  | seen, a :: as =>
    if key a ∈ seen then firstFrom key seen as else a :: firstFrom key (key a :: seen) as

/-- The first element of each key, in order. -/
def firstBy (key : α → κ) (as : List α) : List α := firstFrom key [] as

/-- The elements without repeats, in the order of their first occurrence. -/
def distinct (as : List κ) : List κ := firstBy id as

theorem firstFrom_map (key : β → κ) (f : α → β) (seen : List κ) (as : List α) :
    firstFrom key seen (as.map f) = (firstFrom (key ∘ f) seen as).map f := by
  induction as generalizing seen with
  | nil => rfl
  | cons a as ih =>
    simp only [List.map_cons, firstFrom, Function.comp_apply]
    split
    · exact ih seen
    · rw [List.map_cons, ih]

theorem firstBy_map (key : β → κ) (f : α → β) (as : List α) :
    firstBy key (as.map f) = (firstBy (key ∘ f) as).map f := firstFrom_map key f [] as

/-- The elements that a first part keeps count as seen for a second one. -/
theorem firstFrom_append (key : α → κ) (seen : List κ) (as bs : List α) :
    firstFrom key seen (as ++ bs) =
      firstFrom key seen as ++
        firstFrom key (((firstFrom key seen as).map key).reverse ++ seen) bs := by
  induction as generalizing seen with
  | nil => rfl
  | cons a as ih =>
    simp only [List.cons_append, firstFrom]
    split
    · exact ih seen
    · simp [ih]

theorem firstFrom_sublist (key : α → κ) (seen : List κ) (as : List α) :
    (firstFrom key seen as).Sublist as := by
  induction as generalizing seen with
  | nil => exact .slnil
  | cons a as ih =>
    rw [firstFrom]
    split
    · exact (ih seen).cons a
    · exact (ih _).cons_cons a

theorem firstBy_sublist (key : α → κ) (as : List α) : (firstBy key as).Sublist as :=
  firstFrom_sublist key [] as

theorem firstFrom_keys (key : α → κ) (seen : List κ) (as : List α) :
    ((firstFrom key seen as).map key).Nodup ∧ ∀ k ∈ (firstFrom key seen as).map key, k ∉ seen := by
  induction as generalizing seen with
  | nil => simp [firstFrom]
  | cons a as ih =>
    rw [firstFrom]
    split
    · exact ih seen
    · rename_i h
      obtain ⟨hn, hs⟩ := ih (key a :: seen)
      rw [List.map_cons]
      refine ⟨List.nodup_cons.mpr ⟨fun hm => hs _ hm List.mem_cons_self, hn⟩, fun k hk => ?_⟩
      rcases List.mem_cons.mp hk with rfl | hk
      · exact h
      · exact fun hm => hs k hk (List.mem_cons_of_mem _ hm)

theorem firstBy_nodup (key : α → κ) (as : List α) : ((firstBy key as).map key).Nodup :=
  (firstFrom_keys key [] as).1

theorem distinct_nodup (as : List κ) : (distinct as).Nodup := by
  simpa [distinct] using firstBy_nodup id as

theorem mem_firstFrom_keys (key : α → κ) (seen : List κ) (as : List α) (k : κ) :
    k ∈ (firstFrom key seen as).map key ↔ k ∉ seen ∧ k ∈ as.map key := by
  induction as generalizing seen with
  | nil => simp [firstFrom]
  | cons a as ih =>
    rw [firstFrom]
    split
    · rename_i h
      rw [ih, List.map_cons, List.mem_cons]
      exact ⟨fun ⟨hs, hm⟩ => ⟨hs, .inr hm⟩, fun ⟨hs, hm⟩ => ⟨hs, hm.resolve_left fun e => hs (e ▸ h)⟩⟩
    · rename_i h
      rw [List.map_cons, List.mem_cons, ih, List.map_cons, List.mem_cons, List.mem_cons]
      by_cases e : k = key a
      · subst e; simp [h]
      · simp [e]

/-- Every key keeps an element. -/
theorem mem_firstBy_keys (key : α → κ) (as : List α) (k : κ) :
    k ∈ (firstBy key as).map key ↔ k ∈ as.map key := by
  simpa [firstBy] using mem_firstFrom_keys key [] as k

theorem mem_distinct (as : List κ) (a : κ) : a ∈ distinct as ↔ a ∈ as := by
  simpa [distinct] using mem_firstBy_keys id as a

end ContentSdl
