import ContentSdl.Proofs.FieldBodies
import ContentSdl.Proofs.NestedTypes
import Mathlib.Data.List.Permutation

/-! # When every object type of a build is declared

A build declares each name once. An object type is lost if its name is taken by a declaration that
says something else. -/

namespace ContentSdl

open Event

namespace Emission

/-- Whether an emission is that of an object type: all but unions are. -/
def isObject : Emission → Bool
  | .union _ => false
  | .assets | .placeholder _ | .object .. => true

/-- A declaration of the same name that reads the same is made of emissions. -/
def IsMade (s : Style) (es : List Emission) (e : Emission) : Prop :=
  ∃ e' ∈ made s [] es, e'.name s = e.name s ∧ (e'.declaration s).render = (e.declaration s).render

end Emission

/-- What a build of fields on a fresh run is to declare, in order. -/
def due (s : Style) (parent : String) (fs : List Field) : List Emission :=
  emissions (eventsOf s parent ∅ fs)

/-- No object type is lost. -/
structure KeepsObjects (s : Style) (parent : String) (fs : List Field) (types : List String) :
    Prop where
  /-- One that is not declared because its name is taken has been declared before, as it reads. -/
  suppressed : ∀ before e after, due s parent fs = before ++ e :: after → e.isObject = true →
    e.name s ∈ before.map (Emission.name s) → e.IsMade s before
  /-- Sites whose types have different fields have types of different names. -/
  apart : (sitesOf fs).Pairwise fun x y =>
    x.fields s parent ≠ y.fields s parent → x.name parent ≠ y.name parent
  /-- The type of every site is there with its own fields. -/
  rendered : ∀ x ∈ sitesOf fs, (x.declaration s parent).render ∈ types

/-- No two object types that differ have one name, and none has that of a union which is declared. -/
structure Unambiguous (s : Style) (parent : String) (fs : List Field) : Prop where
  sites : ∀ x ∈ sitesOf fs, ∀ y ∈ sitesOf fs, x.name parent = y.name parent →
    x.isNode = y.isNode ∧ x.fields s parent = y.fields s parent
  assets : .assets ∈ due s parent fs → ∀ x ∈ sitesOf fs, x.name parent ≠ assetsName s.typePrefix
  targets : ∀ target, .placeholder target ∈ due s parent fs →
    ∀ x ∈ sitesOf fs, x.name parent ≠ targetName s.typePrefix target
  assetsTarget : .assets ∈ due s parent fs → .placeholder "assets" ∉ due s parent fs
  unions : ∀ targets, .union targets ∈ made s [] (due s parent fs) →
    ∀ e ∈ due s parent fs, e.isObject = true → e.name s ≠ unionName s.typePrefix targets

/-- The text of a type is not one that fixed bodies set after a blank. -/
def Unspaced (type : String) : Prop := '_' ∈ type.toList ∨ type.toList.head? ≠ some ' '

theorem unspaced_typeName {s : Style} (off : s.options.separateGlobals = false) {parent : String}
    {f : Field} {n : String} (h : f.typeName? s parent = some n) : Unspaced n := by
  have joined (a b : String) : Unspaced (a ++ "_" ++ b) := .inl (by simp)
  obtain ⟨uid, displayName, mandatory, multiple, kind⟩ := f
  cases kind with
  | scalar kind =>
    obtain rfl := Option.some.inj h
    exact .inr (by cases kind <;> decide)
  | file =>
    obtain rfl := Option.some.inj h
    exact .inl (by simp [assetsName])
  | group schema =>
    obtain ⟨-, ⟨⟩⟩ := Option.ite_none_left_eq_some.mp h
    exact joined parent uid
  | globalField definition schema =>
    obtain ⟨-, ⟨⟩⟩ := Option.ite_none_left_eq_some.mp h
    rw [globalName, off]
    exact joined parent uid
  | blocks variants =>
    obtain ⟨-, ⟨⟩⟩ := Option.ite_none_left_eq_some.mp h
    exact joined parent uid
  | reference targets =>
    obtain ⟨-, ⟨⟩⟩ := Option.ite_none_left_eq_some.mp h
    rcases distinct targets with _ | ⟨target, _ | ⟨target', targets⟩⟩
    · exact .inl (by simp [referenceName, unionName])
    · exact joined s.typePrefix target
    · exact .inl (by simp [referenceName, unionName])
  | unknown tag => cases h

theorem Unspaced.wrap {n : String} (h : Unspaced n) (o : Options) (list required : Bool) :
    Unspaced (o.wrap n list required) := by
  rw [Options.wrap]
  rcases h with h | h
  · left
    split <;> split <;> simp [h]
  · right
    cases hn : n.toList with
    | nil => split <;> split <;> simp [hn]
    | cons c cs =>
      have hc : c ≠ ' ' := fun e => h (by rw [hn, e]; rfl)
      split <;> split <;> simp [hn, hc]

theorem unspaced_fieldMap {s : Style} (off : s.options.separateGlobals = false) {parent : String}
    {fs : List Field} {e : String × FieldType} (h : e ∈ (fieldMap s parent fs).entries) :
    Unspaced e.2.type := by
  obtain ⟨f, -, n, -, -, type, unspaced⟩ :=
    wrapsOnly_fieldMap (fun f _ n => unspaced_typeName off) e h
  rw [type]
  exact unspaced.wrap ..

/-- After the key of its first entry a field map reads on with a type, never with a blank. -/
theorem fieldMapBody_ne {m : FieldMap} (unspaced : ∀ e ∈ m.entries, Unspaced e.2.type)
    {key type : String} (hkey : ':' ∉ key.toList) (htype : ':' ∉ type.toList)
    (plain : '_' ∉ type.toList) : fieldMapBody m ≠ key ++ ": " ++ type := by
  intro hbody
  have fixed : (fieldMapBody m).toList = key.toList ++ ':' :: ' ' :: type.toList := by
    simp [hbody]
  cases hm : m.entries with
  | nil => simp [fieldMapBody, hm] at fixed
  | cons e es =>
    obtain ⟨rest, hrest, first⟩ := exists_rest_of_cons hm
    have hblank : ':' ∉ ' ' :: type.toList := by simp [htype]
    obtain ⟨-, -, tail⟩ :=
      (List.append_cons_inj_of_notMem hkey hblank).mp (fixed.symm.trans first)
    rcases unspaced e (hm ▸ List.mem_cons_self) with hunder | hhead
    · have hmem : '_' ∈ ' ' :: type.toList := tail ▸ List.mem_append_left _ hunder
      simp [plain] at hmem
    · have heads := congrArg List.head? tail
      rw [List.head?_append] at heads
      cases htext : e.2.type.toList.head? with
      | none =>
        rw [htext] at heads
        exact hrest heads.symm
      | some c =>
        rw [htext] at heads hhead
        exact hhead heads.symm

theorem Declaration.render_object_eq_iff {name : String} {node node' : Bool} {body body' : Body} :
    (Declaration.object name node body).render = (Declaration.object name node' body').render ↔
      node = node' ∧ body.render = body'.render := by
  simp only [Declaration.render, renderObject]
  rw [← String.toList_inj, ← String.toList_inj]
  cases node <;> cases node' <;> simp

theorem Declaration.render_union_ne (name : String) (members : List String) (name' : String)
    (node : Bool) (body : Body) :
    (Declaration.union name members).render ≠ (Declaration.object name' node body).render := by
  intro h
  have chars := congrArg (fun text => text.toList.head?) h
  simp [Declaration.render, renderObject] at chars

theorem nodup_names_made (s : Style) (es : List Emission) :
    ((made s [] es).map (Emission.name s)).Nodup :=
  (firstFrom_keys (Emission.name s) [] es).1

/-- The first emissions of a name stay when others follow. -/
theorem made_subset_append (s : Style) (es es' : List Emission) :
    made s [] es ⊆ made s [] (es ++ es') := by
  rw [made_append]
  exact List.subset_append_left _ _

theorem mem_made_of_new {s : Style} {before after : List Emission} {e : Emission}
    (h : e.name s ∉ before.map (Emission.name s)) : e ∈ made s [] (before ++ e :: after) := by
  have hnew : e.name s ∉ ((made s [] before).map (Emission.name s)).reverse ++ [] := by
    rw [List.append_nil, List.mem_reverse, mem_names_made]
    exact fun hm => h hm.2
  rw [made_append, List.mem_append]
  right
  rw [made, firstFrom, if_neg hnew]
  exact List.mem_cons_self

/-- What is declared under one name is one declaration. -/
theorem eq_of_made {s : Style} {es : List Emission} {e e' : Emission} (he : e ∈ made s [] es)
    (he' : e' ∈ made s [] es) (h : e.name s = e'.name s) : e = e' :=
  List.inj_on_of_nodup_map (nodup_names_made s es) he he' h

section

variable {s : Style} {parent : String} {fs : List Field}

theorem emission_mem_due (off : s.options.separateGlobals = false) {x : Site}
    (hx : x ∈ sitesOf fs) : x.emission parent ∈ due s parent fs := by
  have nested := nested_eventsOf off fs parent ∅
  have hmem : x.emission parent ∈ (sitesOf fs).map (Site.emission parent) :=
    List.mem_map_of_mem hx
  rw [← nested] at hmem
  exact (List.mem_filter.mp hmem).1

theorem exists_site (off : s.options.separateGlobals = false) {name : String} {node : Bool}
    {schema : List Field} (h : .object name node schema ∈ due s parent fs) :
    ∃ x ∈ sitesOf fs, x.emission parent = .object name node schema := by
  have nested := nested_eventsOf off fs parent ∅
  apply List.mem_map.mp
  rw [← nested]
  exact List.mem_filter.mpr ⟨h, rfl⟩

theorem targetName_injective {typePrefix target target' : String}
    (h : targetName typePrefix target = targetName typePrefix target') : target = target' := by
  have h := congrArg String.toList h
  simp only [targetName, String.toList_append, List.append_cancel_left_eq] at h
  exact String.toList_inj.mp h

theorem targetName_eq_assetsName_iff (typePrefix target : String) :
    targetName typePrefix target = assetsName typePrefix ↔ target = "assets" := by
  have hassets : assetsName typePrefix = targetName typePrefix "assets" := by
    rw [assetsName, targetName, String.append_assoc]
    rfl
  rw [hassets]
  exact ⟨targetName_injective, congrArg (targetName typePrefix)⟩

/-- Object types that are due under one name are the same. -/
theorem Unambiguous.declaration_eq (h : Unambiguous s parent fs)
    (off : s.options.separateGlobals = false) {e e' : Emission} (he : e ∈ due s parent fs)
    (he' : e' ∈ due s parent fs) (object : e.isObject = true) (object' : e'.isObject = true)
    (hname : e.name s = e'.name s) : e.declaration s = e'.declaration s := by
  cases e with
  | union targets => cases object
  | assets =>
    cases e' with
    | union targets => cases object'
    | assets => rfl
    | placeholder target =>
      have htarget := (targetName_eq_assetsName_iff s.typePrefix target).mp hname.symm
      exact absurd (htarget ▸ he') (h.assetsTarget he)
    | object name node schema =>
      obtain ⟨x, hx, hemit⟩ := exists_site off he'
      exact absurd ((congrArg (Emission.name s) hemit).trans hname.symm) (h.assets he x hx)
  | placeholder target =>
    cases e' with
    | union targets => cases object'
    | assets =>
      have htarget := (targetName_eq_assetsName_iff s.typePrefix target).mp hname
      exact absurd (htarget ▸ he) (h.assetsTarget he')
    | placeholder target' =>
      rw [targetName_injective (show targetName s.typePrefix target = _ from hname)]
    | object name node schema =>
      obtain ⟨x, hx, hemit⟩ := exists_site off he'
      exact absurd ((congrArg (Emission.name s) hemit).trans hname.symm) (h.targets target he x hx)
  | object name node schema =>
    obtain ⟨x, hx, hemit⟩ := exists_site off he
    have hxname := congrArg (Emission.name s) hemit
    cases e' with
    | union targets => cases object'
    | assets => exact absurd (hxname.trans hname) (h.assets he' x hx)
    | placeholder target => exact absurd (hxname.trans hname) (h.targets target he' x hx)
    | object name' node' schema' =>
      obtain ⟨y, hy, hemit'⟩ := exists_site off he'
      have hyname := congrArg (Emission.name s) hemit'
      have hxy : x.name parent = y.name parent := hxname.trans (hname.trans hyname.symm)
      obtain ⟨hnode, hfields⟩ := h.sites x hx y hy hxy
      rw [← hemit, ← hemit', Site.declaration_emission, Site.declaration_emission,
        Site.declaration, Site.declaration, hxy, hnode, hfields]

/-- The first of a name is an object type if one of that name is due at all. -/
theorem Unambiguous.isObject_of_made (h : Unambiguous s parent fs) {e e' : Emission}
    (he : e ∈ due s parent fs) (object : e.isObject = true)
    (he' : e' ∈ made s [] (due s parent fs)) (hname : e'.name s = e.name s) :
    e'.isObject = true := by
  cases e' with
  | union targets => exact absurd hname.symm (h.unions targets he' e he object)
  | assets | placeholder | object => rfl

theorem Unambiguous.suppressed (h : Unambiguous s parent fs)
    (off : s.options.separateGlobals = false) {before after : List Emission} {e : Emission}
    (hdue : due s parent fs = before ++ e :: after) (object : e.isObject = true)
    (htaken : e.name s ∈ before.map (Emission.name s)) : e.IsMade s before := by
  have he : e ∈ due s parent fs := by
    rw [hdue]
    exact List.mem_append_right _ List.mem_cons_self
  obtain ⟨e', he', hname⟩ :=
    List.mem_map.mp ((mem_names_made s [] before (e.name s)).mpr ⟨by simp, htaken⟩)
  have hmade : e' ∈ made s [] (due s parent fs) := by
    rw [hdue]
    exact made_subset_append s before _ he'
  have he'due : e' ∈ due s parent fs := (firstFrom_sublist ..).subset hmade
  have object' := h.isObject_of_made he object hmade hname
  have same := h.declaration_eq off he'due he object' object hname
  exact ⟨e', he', hname, congrArg Declaration.render same⟩

theorem KeepsObjects.name_ne {types : List String} (h : KeepsObjects s parent fs types) {x y : Site}
    (hx : x ∈ sitesOf fs) (hy : y ∈ sitesOf fs) (hne : x.fields s parent ≠ y.fields s parent) :
    x.name parent ≠ y.name parent := by
  refine h.apart.forall_of_forall_of_flip ?_ ?_ hx hy hne
  · exact fun x _ hne => absurd rfl hne
  · exact h.apart.imp fun apart hne hname => apart hne.symm hname.symm

/-- A site reads unlike a type with a fixed body. -/
theorem Site.render_ne (off : s.options.separateGlobals = false) (x : Site) {name : String}
    (hname : x.name parent = name) (key type : String) (hkey : ':' ∉ key.toList)
    (htype : ':' ∉ type.toList) (plain : '_' ∉ type.toList) {node : Bool} :
    (x.declaration s parent).render ≠
      (Declaration.object name node (.text (key ++ ": " ++ type))).render := by
  intro h
  rw [← hname] at h
  have hbody := (Declaration.render_object_eq_iff.mp h).2
  exact fieldMapBody_ne (fun _ => unspaced_fieldMap off) hkey htype plain hbody

/-- An object type that is not suppressed is declared, and one that is has been declared before. -/
theorem isMade_of_suppressed
    (suppressed : ∀ before e after, due s parent fs = before ++ e :: after → e.isObject = true →
      e.name s ∈ before.map (Emission.name s) → e.IsMade s before)
    {e : Emission} (he : e ∈ due s parent fs) (object : e.isObject = true) :
    e.IsMade s (due s parent fs) := by
  obtain ⟨before, after, hdue⟩ := List.append_of_mem he
  rw [hdue]
  by_cases htaken : e.name s ∈ before.map (Emission.name s)
  · obtain ⟨e', he', same⟩ := suppressed before e after hdue object htaken
    exact ⟨e', made_subset_append s before _ he', same⟩
  · exact ⟨e, mem_made_of_new htaken, rfl, rfl⟩

/-- If an object type is made, what is made under its name reads as it does. -/
theorem render_eq_of_made {e e' : Emission} (h : e.IsMade s (due s parent fs))
    (he' : e' ∈ made s [] (due s parent fs)) (hname : e.name s = e'.name s) :
    (e.declaration s).render = (e'.declaration s).render := by
  obtain ⟨d, hd, hdname, hrender⟩ := h
  rw [← hrender, eq_of_made hd he' (hdname.trans hname)]

theorem KeepsObjects.unambiguous (off : s.options.separateGlobals = false) {types : List String}
    (h : KeepsObjects s parent fs types) : Unambiguous s parent fs := by
  have all {e : Emission} (he : e ∈ due s parent fs) (object : e.isObject = true) :=
    isMade_of_suppressed h.suppressed he object
  have same {e e' : Emission} (he : e ∈ due s parent fs) (he' : e' ∈ due s parent fs)
      (object : e.isObject = true) (object' : e'.isObject = true) (hname : e.name s = e'.name s) :
      (e.declaration s).render = (e'.declaration s).render := by
    obtain ⟨d, hd, hdname, hrender⟩ := all he' object'
    rw [render_eq_of_made (all he object) hd (hname.trans hdname.symm), hrender]
  constructor
  · intro x hx y hy hname
    have hrender := same (emission_mem_due off hx) (emission_mem_due off hy) rfl rfl hname
    rw [Site.declaration_emission, Site.declaration_emission, Site.declaration, Site.declaration,
      hname] at hrender
    refine ⟨(Declaration.render_object_eq_iff.mp hrender).1, ?_⟩
    by_contra hne
    exact h.name_ne hx hy hne hname
  · intro hassets x hx hname
    have hrender := same (emission_mem_due off hx) hassets rfl rfl hname
    exact x.render_ne off hname "url" "String" (by decide) (by decide) (by decide) hrender
  · intro target htarget x hx hname
    have hrender := same (emission_mem_due off hx) htarget rfl rfl hname
    exact x.render_ne off hname "title" "String!" (by decide) (by decide) (by decide) hrender
  · intro hassets htarget
    have hname := (targetName_eq_assetsName_iff s.typePrefix "assets").mpr rfl
    have hrender := same htarget hassets rfl rfl hname
    simp only [Emission.declaration, placeholder, assetsDeclaration, hname] at hrender
    exact absurd (Declaration.render_object_eq_iff.mp hrender).2 (by decide)
  · intro targets hunion e he object hname
    have hrender := render_eq_of_made (all he object) hunion hname
    cases e with
    | union targets => cases object
    | assets | placeholder | object => exact Declaration.render_union_ne _ _ _ _ _ hrender.symm

end

/-- Where global fields have no types of their own, a build keeps every object type if and only if no
name is ambiguous. Valid fields lead to different sites on different ways, and so to different names
if no uid on these ways has an underscore. -/
theorem keepsObjects_iff_unambiguous (s : Style) (off : s.options.separateGlobals = false)
    (parent : String) (fs : List Field) (valid : validateFields fs = .ok ()) :
    let built := ((Run.mk s {}).build fs parent).1
    built.declarations = (made s [] (due s parent fs)).map (Emission.declaration s) ∧
      (due s parent fs).filter Emission.isNested = (sitesOf fs).map (Site.emission parent) ∧
      (KeepsObjects s parent fs built.types ↔ Unambiguous s parent fs) ∧
      ((sitesOf fs).map Site.path).Nodup ∧
      ((∀ x ∈ sitesOf fs, Plain x.path) → ((sitesOf fs).map (Site.name parent)).Nodup) := by
  intro built
  have declarations : built.declarations =
      (made s [] (due s parent fs)).map (Emission.declaration s) :=
    (Run.mk s {}).declarations_build fs parent
  have named := wellNamed_of_valid valid
  refine ⟨declarations, nested_eventsOf off fs parent ∅, ⟨fun h => ?_, fun h => ?_⟩,
    nodup_paths named, nodup_names_sitesOf named parent⟩
  · exact h.unambiguous off
  · have suppressed := fun before e after (hdue : due s parent fs = before ++ e :: after) =>
      h.suppressed off hdue
    refine ⟨suppressed, ?_, ?_⟩
    · exact List.pairwise_of_forall_mem_list fun x hx y hy hne hname => hne (h.sites x hx y hy hname).2
    · intro x hx
      obtain ⟨e, he, -, hrender⟩ := isMade_of_suppressed suppressed (emission_mem_due off hx) rfl
      rw [← x.declaration_emission, ← hrender]
      have hmade := List.mem_map_of_mem (f := Emission.declaration s) he
      exact List.mem_map_of_mem (declarations ▸ hmade)

/-- A page keeps the type of its hero with an image, beside the asset type and that of its author. -/
theorem keepsObjects_page :
    let s : Style := ⟨"CS", {}⟩
    let fs : List Field := [.make "hero" (.group [.make "image" .file]),
      .make "author" (.reference ["person"])]
    validateFields fs = .ok () ∧
      KeepsObjects s "CS_page" fs ((Run.mk s {}).build fs "CS_page").1.types := by
  intro s fs
  have valid : validateFields fs = .ok () := by decide
  obtain ⟨-, -, keeps, -, -⟩ := keepsObjects_iff_unambiguous s rfl "CS_page" fs valid
  have hsites : sitesOf fs = [⟨["hero"], .make "hero" (.group [.make "image" .file])⟩] := by cbv
  have hdue : due s "CS_page" fs =
      [.assets, .object "CS_page_hero" true [.make "image" .file], .placeholder "person"] := by cbv
  refine ⟨valid, keeps.mpr ⟨?_, ?_, ?_, ?_, ?_⟩⟩
  · simp [hsites]
  · rw [hsites, List.forall_mem_singleton]
    exact fun _ => by decide
  · rw [hsites, hdue]
    intro target htarget
    have hperson : target = "person" := by simpa using htarget
    rw [hperson, List.forall_mem_singleton]
    decide
  · simp [hdue]
  · rw [hdue]
    intro targets htargets
    have hunion := (firstFrom_sublist ..).subset htargets
    simp at hunion

/-- Where one uid is two others joined, the same uid below both stands for one type, though its fields
differ, and those that come second are lost. -/
theorem not_keepsObjects_repeated_uid :
    let s : Style := ⟨"CS", {}⟩
    let x : Site := ⟨["a", "b", "c"], .make "c" (.group [.make "x" (.scalar .text)])⟩
    let y : Site := ⟨["a_b", "c"], .make "c" (.group [.make "y" (.scalar .number)])⟩
    let fs : List Field := [.make "a" (.group [.make "b" (.group [x.field])]),
      .make "a_b" (.group [y.field])]
    let built := ((Run.mk s {}).build fs "CS_page").1
    validateFields fs = .ok () ∧ x ∈ sitesOf fs ∧ y ∈ sitesOf fs ∧
      x.name "CS_page" = y.name "CS_page" ∧ x.fields s "CS_page" ≠ y.fields s "CS_page" ∧
      (y.declaration s "CS_page").render ∉ built.types ∧
      ¬KeepsObjects s "CS_page" fs built.types := by
  intro s x y fs built
  have hsites : sitesOf fs = [x, ⟨["a", "b"], .make "b" (.group [x.field])⟩,
      ⟨["a"], .make "a" (.group [.make "b" (.group [x.field])])⟩, y,
      ⟨["a_b"], .make "a_b" (.group [y.field])⟩] := by cbv
  have hy : y ∈ sitesOf fs := by simp [hsites]
  have lost : (y.declaration s "CS_page").render ∉ built.types := by decide
  exact ⟨by decide, by simp [hsites], hy, by decide, by decide, lost,
    fun keeps => lost (keeps.rendered y hy)⟩

end ContentSdl
