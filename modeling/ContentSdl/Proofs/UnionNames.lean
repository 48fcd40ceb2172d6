import ContentSdl.TypeName
import Mathlib.Data.List.Infix

/-! # Names of unions can be told apart where no target holds the beginning of target names -/

namespace ContentSdl

section

variable {α : Type} {mark : List α}

/-- A mark stands in a word that is followed by it at the end only. -/
def Unmarked (mark word : List α) : Prop := ∀ xs ys, word ++ mark = xs ++ (mark ++ ys) → ys = []

private theorem Unmarked.eq_of_le {word word' rest rest' : List α} (h : Unmarked mark word')
    (heq : word ++ (mark ++ rest) = word' ++ (mark ++ rest')) (hle : word.length ≤ word'.length) :
    word = word' := by
  obtain ⟨gap, hgap⟩ := List.prefix_of_prefix_length_le ⟨_, heq⟩ ⟨_, rfl⟩ hle
  rw [← hgap, List.append_assoc, List.append_cancel_left_eq, ← List.append_assoc] at heq
  obtain ⟨ys, hys⟩ := List.prefix_of_prefix_length_le ⟨_, heq⟩ ⟨_, rfl⟩ (by simp)
  have hys' := hys
  rw [h word ys (by rw [← hgap, List.append_assoc, ← hys]), List.append_nil] at hys'
  have hnil : gap = [] := by simpa using congrArg List.length hys'
  rw [← hgap, hnil, List.append_nil]

/-- The mark of a next word, or the one after the last word. -/
private theorem exists_mark (words : List (List α)) :
    ∃ rest, words.flatMap (mark ++ ·) ++ mark = mark ++ rest := by
  cases words with
  | nil => exact ⟨[], by simp⟩
  | cons word words => exact ⟨_, by rw [List.flatMap_cons, List.append_assoc, List.append_assoc]⟩

private theorem flatMap_mark_ne (hmark : mark ≠ []) (word : List α) (words : List (List α)) :
    (word :: words).flatMap (mark ++ ·) ++ mark ≠ mark := by
  intro heq
  have hlen := congrArg List.length heq
  simp only [List.flatMap_cons, List.length_append] at hlen
  have hpos : 0 < mark.length := List.length_pos_iff.mpr hmark
  omega

private theorem eq_of_flatMap_mark (hmark : mark ≠ []) {words words' : List (List α)}
    (h : ∀ w ∈ words, Unmarked mark w) (h' : ∀ w ∈ words', Unmarked mark w)
    (heq : words.flatMap (mark ++ ·) ++ mark = words'.flatMap (mark ++ ·) ++ mark) :
    words = words' := by
  induction words generalizing words' with
  | nil =>
    cases words' with
    | nil => rfl
    | cons word' words' => exact (flatMap_mark_ne hmark word' words' heq.symm).elim
  | cons word words ih =>
    cases words' with
    | nil => exact (flatMap_mark_ne hmark word words heq).elim
    | cons word' words' =>
      obtain ⟨hw, hws⟩ := List.forall_mem_cons.mp h
      obtain ⟨hw', hws'⟩ := List.forall_mem_cons.mp h'
      simp only [List.flatMap_cons, List.append_assoc, List.append_cancel_left_eq] at heq
      have hsame : word = word' := by
        have heq' := heq
        obtain ⟨rest, hrest⟩ := @exists_mark α mark words
        obtain ⟨rest', hrest'⟩ := @exists_mark α mark words'
        rw [hrest, hrest'] at heq'
        rcases Nat.le_total word.length word'.length with hle | hle
        · exact hw'.eq_of_le heq' hle
        · exact (hw.eq_of_le heq'.symm hle).symm
      subst hsame
      rw [List.append_cancel_left_eq] at heq
      rw [ih hws hws' heq]

/-- A mark that ends in a sign which is nowhere else in it cannot run over the end of a word. -/
theorem unmarked_of_not_infix {start : List α} {sign : α} {word : List α} (hsign : sign ∉ start)
    (h : ¬ (start ++ [sign]) <:+: word) : Unmarked (start ++ [sign]) word := by
  intro xs ys heq
  rcases List.eq_nil_or_concat ys with hys | ⟨zs, last, hys⟩
  · exact hys
  · subst hys
    rw [List.concat_eq_append, ← List.append_assoc, ← List.append_assoc, ← List.append_assoc] at heq
    obtain ⟨heq, -⟩ := List.append_inj' heq rfl
    -- The word goes at least to the end of the mark, or else `start` has the sign in it.
    rcases List.append_eq_append_iff.mp heq with ⟨beyond, hbeyond, hstart⟩ | ⟨beyond, hword, -⟩
    · rcases List.eq_nil_or_concat beyond with hnil | ⟨beyond', last', hbeyond'⟩
      · rw [hnil, List.append_nil] at hbeyond
        exact (h ⟨xs, [], by rw [List.append_nil, hbeyond]⟩).elim
      · rw [hbeyond', List.concat_eq_append, ← List.append_assoc, ← List.append_assoc] at hbeyond
        obtain ⟨-, hlast⟩ := List.append_inj' hbeyond rfl
        refine (hsign ?_).elim
        rw [hstart, hbeyond', List.singleton_inj.mp hlast]
        simp
    · exact (h ⟨xs, beyond, hword.symm⟩).elim

end

/-- A target does not hold what the names of targets begin with, nor the first part of it at its
end. -/
def Separable (typePrefix target : String) : Prop :=
  Unmarked (typePrefix ++ "_").toList target.toList

theorem separable_of_not_infix {typePrefix target : String} (hunderscore : '_' ∉ typePrefix.toList)
    (h : ¬ (typePrefix ++ "_").toList <:+: target.toList) : Separable typePrefix target := by
  have hmark : (typePrefix ++ "_").toList = typePrefix.toList ++ ['_'] := by simp
  rw [hmark] at h
  rw [Separable, hmark]
  exact unmarked_of_not_infix hunderscore h

theorem toList_unionName (typePrefix : String) (targets : List String) :
    (unionName typePrefix targets).toList =
      (targets.map String.toList).flatMap ((typePrefix ++ "_").toList ++ ·) ++ "_Union".toList := by
  rw [unionName, String.toList_append, String.toList_join, List.flatMap_map, List.flatMap_map]
  simp [targetName]

/-- Separable targets are told by the name of their union. -/
theorem unionName_injective {typePrefix : String} {targets targets' : List String}
    (h : ∀ t ∈ targets, Separable typePrefix t) (h' : ∀ t ∈ targets', Separable typePrefix t)
    (heq : unionName typePrefix targets = unionName typePrefix targets') : targets = targets' := by
  have heq := congrArg String.toList heq
  rw [toList_unionName, toList_unionName, List.append_cancel_right_eq] at heq
  have hsame := eq_of_flatMap_mark (by simp) (List.forall_mem_map.mpr h) (List.forall_mem_map.mpr h')
    (congrArg (· ++ (typePrefix ++ "_").toList) heq)
  exact List.map_injective_iff.mpr (fun _ _ => String.toList_inj.mp) hsame

end ContentSdl
