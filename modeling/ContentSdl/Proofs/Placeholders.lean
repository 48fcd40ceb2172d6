import ContentSdl.Host.Customization
import Mathlib.Data.List.Nodup

/-! # Which declarations are folded into object types -/

namespace ContentSdl

section

variable {α : Type} {p q : α → Bool}

/-- The only element that goes is the first with the property. -/
theorem mem_eraseP_iff {as : List α} (h : as.Nodup) (a : α) :
    a ∈ as.eraseP p ↔ a ∈ as ∧ as.find? p ≠ some a := by
  induction as with
  | nil => simp
  | cons b bs ih =>
    obtain ⟨hb, hbs⟩ := List.nodup_cons.mp h
    cases hp : p b with
    | true =>
      rw [List.eraseP_cons_of_pos hp, List.find?_cons_of_pos hp, List.mem_cons]
      constructor
      · intro ha
        refine ⟨.inr ha, fun e => hb ?_⟩
        rwa [Option.some.inj e]
      · rintro ⟨rfl | ha, hne⟩
        · exact absurd rfl hne
        · exact ha
    | false =>
      have hnot : ¬p b = true := by simp [hp]
      rw [List.eraseP_cons_of_neg hnot, List.find?_cons_of_neg hnot, List.mem_cons, List.mem_cons,
        ih hbs]
      constructor
      · rintro (rfl | ⟨ha, hne⟩)
        · exact ⟨.inl rfl, fun e => hnot (List.find?_some e)⟩
        · exact ⟨.inr ha, hne⟩
      · rintro ⟨rfl | ha, hne⟩
        · exact .inl rfl
        · exact .inr ⟨ha, hne⟩

/-- Taking an element away does not hide one with a property that excludes that of the first. -/
theorem find?_eraseP (h : ∀ a, p a = true → q a = false) (as : List α) :
    (as.eraseP p).find? q = as.find? q := by
  induction as with
  | nil => rfl
  | cons b bs ih =>
    cases hp : p b with
    | true =>
      rw [List.eraseP_cons_of_pos hp, List.find?_cons_of_neg (by simp [h b hp])]
    | false => rw [List.eraseP_cons_of_neg (by simp [hp]), List.find?_cons, List.find?_cons, ih]

end

namespace ObjectType

/-- Whether a declaration reads like the placeholder of an object type. -/
def takes (o : ObjectType) (d : Declaration) : Bool := d.render = placeholderText o

theorem placeholderText_inj {o o' : ObjectType} (h : placeholderText o = placeholderText o') :
    o.name = o'.name := by
  have h := congrArg String.toList h
  simp only [placeholderText, placeholder, Declaration.render, renderObject,
    String.toList_append, List.append_cancel_right_eq, List.append_cancel_left_eq] at h
  exact String.toList_inj.mp h

theorem not_takes_of_takes {o o' : ObjectType} (hne : o.name ≠ o'.name) (d : Declaration)
    (h : o.takes d = true) : o'.takes d = false := by
  rw [takes, decide_eq_true_eq] at h
  rw [takes, decide_eq_false_iff_not]
  exact fun h' => hne (placeholderText_inj (h.symm.trans h'))

/-- The link type is no placeholder. -/
theorem not_takes_link (o : ObjectType) : o.takes linkDeclaration = false := by
  rw [takes, decide_eq_false_iff_not]
  intro h
  have h := congrArg (fun t => t.toList.reverse) h
  simp [placeholderText, placeholder, linkDeclaration, Declaration.render, renderObject,
    Body.render, placeholderField] at h

end ObjectType

theorem foldPlaceholder_fst (ds : List Declaration) (o : ObjectType) :
    (foldPlaceholder ds o).1 = ds.eraseP o.takes := by
  rw [foldPlaceholder]
  split
  · rfl
  · rename_i h
    rw [List.any_eq_true, not_exists] at h
    refine (List.eraseP_of_forall_not fun d hd htake => h d ⟨hd, ?_⟩).symm
    exact htake

theorem foldPlaceholder_name (ds : List Declaration) (o : ObjectType) :
    (foldPlaceholder ds o).2.name = o.name := by
  rw [foldPlaceholder]
  split <;> rfl

theorem foldPlaceholders_cons (ds : List Declaration) (o : ObjectType) (os : List ObjectType) :
    foldPlaceholders ds (o :: os) =
      ((foldPlaceholders (ds.eraseP o.takes) os).1,
        (foldPlaceholder ds o).2 :: (foldPlaceholders (ds.eraseP o.takes) os).2) := by
  rw [← foldPlaceholder_fst]
  rfl

/-- The declarations that are left are those which are not the first to read like the placeholder of
an object type. -/
theorem mem_foldPlaceholders {ds : List Declaration} {os : List ObjectType} (hds : ds.Nodup)
    (hos : (os.map ObjectType.name).Nodup) (d : Declaration) :
    d ∈ (foldPlaceholders ds os).1 ↔ d ∈ ds ∧ ∀ o ∈ os, ds.find? o.takes ≠ some d := by
  induction os generalizing ds with
  | nil => simp [foldPlaceholders]
  | cons o os ih =>
    obtain ⟨ho, hos⟩ := List.nodup_cons.mp hos
    have same : ∀ o' ∈ os, (ds.eraseP o.takes).find? o'.takes = ds.find? o'.takes := by
      intro o' ho'
      apply find?_eraseP
      apply ObjectType.not_takes_of_takes
      exact fun e => ho (e ▸ List.mem_map_of_mem ho')
    rw [foldPlaceholders_cons, ih (hds.eraseP _) hos, mem_eraseP_iff hds, List.forall_mem_cons,
      and_assoc]
    refine and_congr_right fun _ => and_congr_right fun _ => ?_
    exact forall₂_congr fun o' ho' => by rw [same o' ho']

theorem foldPlaceholders_sublist (ds : List Declaration) (os : List ObjectType) :
    (foldPlaceholders ds os).1.Sublist ds := by
  induction os generalizing ds with
  | nil => exact .refl ds
  | cons o os ih =>
    rw [foldPlaceholders_cons]
    exact (ih _).trans List.eraseP_sublist

theorem names_foldPlaceholders (ds : List Declaration) (os : List ObjectType) :
    (foldPlaceholders ds os).2.map ObjectType.name = os.map ObjectType.name := by
  induction os generalizing ds with
  | nil => rfl
  | cons o os ih =>
    rw [foldPlaceholders_cons, List.map_cons, ih, foldPlaceholder_name, List.map_cons]

/-- The link type stays in front, whatever is folded. -/
theorem foldPlaceholders_link (ds : List Declaration) (os : List ObjectType) :
    (foldPlaceholders (linkDeclaration :: ds) os).1 =
      linkDeclaration :: (foldPlaceholders ds os).1 := by
  induction os generalizing ds with
  | nil => rfl
  | cons o os ih =>
    rw [foldPlaceholders_cons, foldPlaceholders_cons,
      List.eraseP_cons_of_neg (by simp [o.not_takes_link])]
    exact ih _

end ContentSdl
