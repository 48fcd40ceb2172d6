import ContentSdl.Proofs.BlockVariants
import ContentSdl.Proofs.UnionMembers
import Mathlib.Logic.Relation

/-! # Unions are of several types, none of them the union; targets that are repeated do not count -/

namespace ContentSdl

/-- A union has several members, each of them once, and is none of them. -/
structure ProperUnion (name : String) (members : List String) : Prop where
  several : 2 ≤ members.length
  nodup : members.Nodup
  proper : name ∉ members

/-- A union has a longer name than its members, since that consists of theirs and an ending. -/
theorem length_lt_unionName {typePrefix name : String} {targets : List String}
    (h : name ∈ targets.map (targetName typePrefix)) :
    name.length < (unionName typePrefix targets).length := by
  have part : name.toList.Sublist (String.join (targets.map (targetName typePrefix))).toList := by
    rw [String.toList_join]
    exact List.sublist_flatten_of_mem (List.mem_map_of_mem h)
  have shorter := part.length_le
  rw [String.length_toList, String.length_toList] at shorter
  have ending : 0 < "_Union".length := by decide
  rw [unionName, String.length_append]
  omega

theorem properUnion_of_nodup {typePrefix : String} {targets : List String} (nodup : targets.Nodup)
    (several : 2 ≤ targets.length) :
    ProperUnion (unionName typePrefix targets) (targets.map (targetName typePrefix)) where
  several := by rwa [List.length_map]
  nodup := nodup.map fun _ _ => targetName_injective
  proper h := Nat.lt_irrefl _ (length_lt_unionName h)

theorem Visit.properUnion {v : Visit} {targets : List String} (h : v.several? = some targets)
    (typePrefix : String) :
    ProperUnion (unionName typePrefix targets) (targets.map (targetName typePrefix)) := by
  obtain ⟨parent, ⟨uid, displayName, mandatory, multiple, kind⟩, b⟩ := v
  cases kind with
  | scalar | file | group | globalField | blocks | unknown => cases h
  | reference listed =>
    rw [several?, Option.ite_none_right_eq_some, Option.some_inj] at h
    obtain ⟨several, rfl⟩ := h
    exact properUnion_of_nodup (distinct_nodup listed) several

/-- The second list has one element more, which stands somewhere before in it. -/
inductive Repeats {α : Type} : List α → List α → Prop where
  | insert (before after : List α) {a : α} (h : a ∈ before) :
    Repeats (before ++ after) (before ++ a :: after)

theorem Repeats.distinct_eq {α : Type} [DecidableEq α] {as bs : List α} (h : Repeats as bs) :
    distinct as = distinct bs := by
  obtain ⟨before, after, ha⟩ := h
  exact (firstBy_of_repeated id (by simpa using ha)).symm

theorem distinct_eq_of_eqvGen {α : Type} [DecidableEq α] {as bs : List α}
    (h : Relation.EqvGen Repeats as bs) : distinct as = distinct bs := by
  induction h with
  | rel as bs h => exact h.distinct_eq
  | refl as => rfl
  | symm as bs _ ih => exact ih.symm
  | trans as bs cs _ _ ih ih' => exact ih.trans ih'

theorem distinct_eq_nil_iff {α : Type} [DecidableEq α] {as : List α} :
    distinct as = [] ↔ as = [] := by
  simp only [List.eq_nil_iff_forall_not_mem, mem_distinct]

section

variable {targets targets' : List String} (h : distinct targets = distinct targets')

include h

theorem isEmpty_eq_of_distinct_eq : targets.isEmpty = targets'.isEmpty := by
  rw [Bool.eq_iff_iff, List.isEmpty_iff, List.isEmpty_iff, ← distinct_eq_nil_iff, h,
    distinct_eq_nil_iff]

namespace Field

variable (s : Style) (parent uid : String) (displayName : Option String) (mandatory multiple : Bool)

theorem type?_reference_congr :
    type? s parent ⟨uid, displayName, mandatory, multiple, .reference targets⟩ =
      type? s parent ⟨uid, displayName, mandatory, multiple, .reference targets'⟩ := by
  simp only [type?, isEmpty_eq_of_distinct_eq h, h]

theorem visit_reference_congr :
    visit s parent ⟨uid, displayName, mandatory, multiple, .reference targets⟩ =
      visit s parent ⟨uid, displayName, mandatory, multiple, .reference targets'⟩ := by
  simp only [visit, isEmpty_eq_of_distinct_eq h, h]

end Field

end

/-- A field may be replaced by one of the same uid that has the same type and is visited alike. -/
theorem Run.build_congr (run : Run) {parent : String} {f g : Field} (uid : f.uid = g.uid)
    (type : f.type? run.style parent = g.type? run.style parent)
    (visit : f.visit run.style parent = g.visit run.style parent) (before after : List Field) :
    run.build (before ++ f :: after) parent = run.build (before ++ g :: after) parent := by
  have fields : fieldMap run.style parent (before ++ f :: after) =
      fieldMap run.style parent (before ++ g :: after) := by
    simp only [fieldMap, fieldEntries, List.filterMap_append, List.filterMap_cons, uid, type]
  have visits (b : Build) : visitAll run.style parent (before ++ f :: after) b =
      visitAll run.style parent (before ++ g :: after) b := by
    rw [visitAll_append, visitAll_append, visitAll_cons, visitAll_cons, visit]
  simp only [build, Build.walk, fields, visits]

/-- Every union that a run declares has several members, each once, and is none of them. Whether a
reference repeats a target, and where behind the first time, makes no difference to its type, to what a
visit of it adds, and so to a build in which it stands. -/
theorem unions_proper (run : Run) :
    (∀ calls name members, .union name members ∈ (run.buildAll calls).1.flatMap Built.declarations →
      ProperUnion name members) ∧
    ∀ targets targets', Relation.EqvGen Repeats targets targets' →
      ∀ (parent uid : String) (displayName : Option String) (mandatory multiple : Bool),
        let f := Field.mk uid displayName mandatory multiple (.reference targets)
        let g := Field.mk uid displayName mandatory multiple (.reference targets')
        f.type? run.style parent = g.type? run.style parent ∧
          f.visit run.style parent = g.visit run.style parent ∧
          ∀ before after,
            run.build (before ++ f :: after) parent = run.build (before ++ g :: after) parent := by
  constructor
  · intro calls name members declared
    obtain ⟨v, -, targets, several, union⟩ := Run.exists_visit_of_union declared
    obtain ⟨rfl, rfl⟩ := Declaration.union.inj union
    exact v.properUnion several run.style.typePrefix
  · intro targets targets' repeated parent uid displayName mandatory multiple f g
    have same := distinct_eq_of_eqvGen repeated
    have type : f.type? run.style parent = g.type? run.style parent :=
      Field.type?_reference_congr same run.style parent uid displayName mandatory multiple
    have visit : f.visit run.style parent = g.visit run.style parent :=
      Field.visit_reference_congr same run.style parent uid displayName mandatory multiple
    exact ⟨type, visit, run.build_congr rfl type visit⟩

/-- Without a prefix, and with the empty string and parts of one another for targets. -/
theorem unions_proper_unnamed :
    let run : Run := ⟨⟨"", {}⟩, {}⟩
    let f : Field := .make "next" (.reference ["a", "aa", ""])
    let g : Field := .make "next" (.reference ["a", "a", "aa", "", "aa"])
    ProperUnion "_a_aa__Union" ["_a", "_aa", "_"] ∧ run.build [f] "page" = run.build [g] "page" := by
  intro run f g
  obtain ⟨proper, repeats⟩ := unions_proper run
  have twice : Relation.EqvGen Repeats ["a", "aa", ""] ["a", "a", "aa", "", "aa"] :=
    .trans _ _ _ (.rel _ _ (.insert ["a"] ["aa", ""] (by decide)))
      (.rel _ _ (.insert ["a", "a", "aa", ""] [] (by decide)))
  exact ⟨proper [([f], "page")] _ _ (by decide),
    (repeats _ _ twice "page" "next" none false false).2.2 [] []⟩

end ContentSdl
