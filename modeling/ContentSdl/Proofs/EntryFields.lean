import ContentSdl.Proofs.Handover
import ContentSdl.Proofs.InsertionOrder

/-! # Object types keep the fields that were built for them

System fields stand behind those of a map, and the field of a placeholder behind them, in the object
types that take one in. -/

namespace ContentSdl

/-- The system fields that a map does not have, with their types. -/
def missingSystemFields (m : FieldMap) : List (String × FieldType) :=
  (systemFields.filter (·.1 ∉ m.keys)).map fun f => (f.1, .named f.2)

private theorem nodup_systemFields : (systemFields.map Prod.fst).Nodup := by decide

theorem entries_withSystemFields (m : FieldMap) :
    (withSystemFields m).entries = m.entries ++ missingSystemFields m := by
  rw [withSystemFields, missingSystemFields]
  exact OrderedMap.entries_foldl_insertIfNew Prod.fst
    (fun f : String × String => FieldType.named f.2) m nodup_systemFields

theorem withSystemFields_of_mem {m : FieldMap} (h : ∀ f ∈ systemFields, f.1 ∈ m.keys) :
    withSystemFields m = m := by
  rw [withSystemFields]
  exact OrderedMap.foldl_insertIfNew_of_mem Prod.fst
    (fun f : String × String => FieldType.named f.2) h

theorem mem_keys_withSystemFields (m : FieldMap) {f : String × String} (h : f ∈ systemFields) :
    f.1 ∈ (withSystemFields m).keys := by
  rw [OrderedMap.keys, entries_withSystemFields, List.map_append, List.mem_append]
  by_cases hf : f.1 ∈ m.keys
  · exact .inl hf
  · right
    rw [missingSystemFields, List.map_map]
    exact List.mem_map.mpr ⟨f, List.mem_filter.mpr ⟨h, by simpa using hf⟩, rfl⟩

theorem withSystemFields_withSystemFields (m : FieldMap) :
    withSystemFields (withSystemFields m) = withSystemFields m :=
  withSystemFields_of_mem fun _ h => mem_keys_withSystemFields m h

/-- An object type has taken in its placeholder, and infers further fields, or it is as it was. -/
def TakesIn (o o' : ObjectType) : Prop :=
  o'.infer = true ∧ o' = o.takeIn ∨ o'.infer = false ∧ o' = o

theorem takesIn_merged {o : ObjectType} (h : o.infer = false) (texts : List String) :
    TakesIn o (o.merged texts) := by
  by_cases hin : placeholderText o ∈ texts
  · exact .inl ⟨(ObjectType.infer_merged h texts).mpr hin, if_pos hin⟩
  · have stays : o.merged texts = o := if_neg hin
    exact .inr ⟨by rw [stays, h], stays⟩

theorem forall₂_takesIn_foldPlaceholders {os : List ObjectType} (h : ∀ o ∈ os, o.infer = false)
    (ds : List Declaration) : List.Forall₂ TakesIn os (foldPlaceholders ds os).2 := by
  induction os generalizing ds with
  | nil => exact .nil
  | cons o os ih =>
    obtain ⟨ho, hos⟩ := List.forall_mem_cons.mp h
    rw [foldPlaceholders_cons, foldPlaceholder_snd]
    exact .cons (takesIn_merged ho _) (ih hos _)

/-- What folding takes out are the placeholders of the object types that infer further fields. -/
theorem takenOut_infer_foldPlaceholders {os : List ObjectType} (h : ∀ o ∈ os, o.infer = false)
    (ds : List Declaration) :
    TakenOut (((foldPlaceholders ds os).2.filter (·.infer)).map placeholderText)
      (ds.map Declaration.render) ((foldPlaceholders ds os).1.map Declaration.render) := by
  induction os generalizing ds with
  | nil => exact ⟨.refl _, .refl _⟩
  | cons o os ih =>
    obtain ⟨ho, hos⟩ := List.forall_mem_cons.mp h
    have rest := ih hos (ds.eraseP o.takes)
    rw [map_render_eraseP] at rest
    rw [foldPlaceholders_cons, foldPlaceholder_snd]
    by_cases hin : placeholderText o ∈ ds.map Declaration.render
    · rw [List.filter_cons_of_pos ((ObjectType.infer_merged ho _).mpr hin), List.map_cons,
        o.placeholderText_merged]
      exact rest.cons hin
    · rw [List.filter_cons_of_neg (mt (ObjectType.infer_merged ho _).mp hin)]
      rwa [List.erase_of_not_mem hin] at rest

/-- Each in a row of object types finds as many placeholders less as there are object types of its name
before it. -/
def InferInTurn (texts : List String) (os : List ObjectType) : Prop :=
  ∀ before o after, os = before ++ o :: after →
    (o.infer = true ↔ (before.map ObjectType.name).count o.name < texts.count (placeholderText o))

theorem placeholderText_eq_iff (o o' : ObjectType) :
    placeholderText o = placeholderText o' ↔ o.name = o'.name :=
  ⟨ObjectType.placeholderText_inj, fun h => by rw [placeholderText, h, placeholderText]⟩

theorem inferInTurn_foldPlaceholders {os : List ObjectType} (h : ∀ o ∈ os, o.infer = false)
    (ds : List Declaration) : InferInTurn (ds.map Declaration.render) (foldPlaceholders ds os).2 := by
  induction os generalizing ds with
  | nil => exact fun before o after split => by simp [foldPlaceholders] at split
  | cons o os ih =>
    obtain ⟨ho, hos⟩ := List.forall_mem_cons.mp h
    -- The first object type erases a placeholder of its name if there is one; for those of the same
    -- name behind it both counts go down by one, and for all others none does.
    have rest := ih hos (ds.eraseP o.takes)
    rw [map_render_eraseP] at rest
    rw [foldPlaceholders_cons, foldPlaceholder_snd]
    intro before o' after split
    dsimp only at split
    cases before with
    | nil =>
      obtain ⟨rfl, -⟩ := List.cons.inj split
      rw [ObjectType.infer_merged ho, o.placeholderText_merged, List.map_nil, List.count_nil,
        List.count_pos_iff]
    | cons first before =>
      obtain ⟨rfl, tail⟩ := List.cons.inj split
      rw [rest before o' after tail, List.map_cons, o.name_merged, List.count_cons,
        List.count_erase]
      by_cases hname : o.name = o'.name
      · have same := (placeholderText_eq_iff o o').mpr hname
        rw [same]
        simp only [hname, beq_self_eq_true, if_true]
        omega
      · have other := mt (placeholderText_eq_iff o o').mp hname
        simp [hname, other]

/-- What is added to the entries of a build: the system fields that are not among them, and the title
that a placeholder brings, unless there is one. -/
def addedEntries (m : FieldMap) (infer : Bool) : List (String × FieldType) :=
  let missing := missingSystemFields m
  missing ++
    if infer = true ∧ placeholderField.1 ∉ (m.entries ++ missing).map (·.1) then
      [(placeholderField.1, .named placeholderField.2)]
    else []

/-- The object type of a content type: a node with the entries of its build in front, as they are. -/
structure ObjectType.Keeps (s : Style) (c : ContentType) (built : Built) (o : ObjectType) : Prop where
  name : o.name = c.typeName s.typePrefix
  interfaces : o.interfaces = ["Node"]
  fields : o.fields.entries = built.fields.entries ++ addedEntries built.fields o.infer
  complete : withSystemFields o.fields = o.fields

theorem entries_takeIn (o : ObjectType) :
    o.takeIn.fields.entries = o.fields.entries ++
      if placeholderField.1 ∉ o.fields.keys then [(placeholderField.1, .named placeholderField.2)]
      else [] := by
  by_cases h : placeholderField.1 ∈ o.fields.keys
  · rw [if_neg (not_not.mpr h), List.append_nil, ObjectType.takeIn, OrderedMap.insertIfNew_of_mem h]
  · rw [if_pos h, ObjectType.takeIn, OrderedMap.entries_insertIfNew h]

theorem keys_subset_takeIn (o : ObjectType) : o.fields.keys ⊆ o.takeIn.fields.keys := by
  rw [OrderedMap.keys, OrderedMap.keys, entries_takeIn, List.map_append]
  exact List.subset_append_left _ _

theorem fields_objectType (s : Style) (c : ContentType) (built : Built) :
    (objectType s c built).fields = withSystemFields built.fields := by
  rw [objectType, ObjectType.node]

theorem keeps_of_takesIn {s : Style} {c : ContentType} {built : Built} {o : ObjectType}
    (h : TakesIn (objectType s c built) o) : o.Keeps s c built := by
  have more {m : FieldMap} (hm : (withSystemFields built.fields).keys ⊆ m.keys) :
      withSystemFields m = m :=
    withSystemFields_of_mem fun f hf => hm (mem_keys_withSystemFields built.fields hf)
  rcases h with ⟨infer, taken⟩ | ⟨infer, same⟩
  · constructor
    · rw [taken]; rfl
    · rw [taken]; rfl
    · rw [infer, taken, entries_takeIn, fields_objectType, OrderedMap.keys, entries_withSystemFields]
      simp only [addedEntries, true_and, List.append_assoc]
    · rw [taken]
      apply more
      rw [← fields_objectType s c built]
      exact keys_subset_takeIn (objectType s c built)
  · constructor
    · rw [same]; rfl
    · rw [same]; rfl
    · rw [infer, same, fields_objectType, entries_withSystemFields]
      simp [addedEntries]
    · rw [same, fields_objectType, withSystemFields_withSystemFields]

theorem forall₂_keeps {s : Style} {cs : List ContentType} {builts : List Built} {os : List ObjectType}
    (h : List.Forall₂ TakesIn (List.zipWith (objectType s) cs builts) os) :
    List.Forall₂ (fun x o => ObjectType.Keeps s x.1 x.2 o) (cs.zip builts) os := by
  rw [← List.map_uncurry_zip_eq_zipWith, List.forall₂_map_left_iff] at h
  exact h.imp fun _ _ => keeps_of_takesIn

/-- A registration hands over an object type for each valid content type, in order: a node that keeps
the entries of its build in front. Behind them are system fields and, where the placeholder of the
object type is taken out of the declarations, a title; neither replaces an entry that is there. -/
theorem objects_keep_fields (config : Config) (source : Source) (cs : List ContentType)
    (enabled : config.enabled = true) (fetched : source.fetch = .ok cs) :
    let s := config.style
    let builts := ((Run.mk s {}).buildAll (buildCalls s (validTypes cs))).1
    let texts := builts.flatMap Built.types
    (∃ left handed,
      (customize config source).definitions? =
          some (.sdl linkDeclaration.render :: left.map .sdl ++ handed.map .object) ∧
        handed.map ObjectType.name = (validTypes cs).map (fun c => c.typeName s.typePrefix) ∧
        List.Forall₂ (fun x o => ObjectType.Keeps s x.1 x.2 o) ((validTypes cs).zip builts) handed ∧
        TakenOut ((handed.filter (·.infer)).map placeholderText) texts left ∧
        InferInTurn texts handed) ∧
      ∀ m, withSystemFields (withSystemFields m) = withSystemFields m := by
  intro s builts texts
  refine ⟨?_, withSystemFields_withSystemFields⟩
  let ds := builts.flatMap Built.declarations
  let os := List.zipWith (objectType s) (validTypes cs) builts
  have htexts : ds.map Declaration.render = texts := List.map_flatMap ..
  have plain : ∀ o ∈ os, o.infer = false := fun o => infer_of_mem_zipWith
  have names : os.map ObjectType.name = (validTypes cs).map fun c => c.typeName s.typePrefix := by
    apply names_zipWith_objectType
    rw [Run.length_buildAll, buildCalls, List.length_map]
  obtain ⟨declarations, objects⟩ := Plan.fold_ofContentTypes s cs
  have definitions : (Plan.ofContentTypes s cs).fold.definitions = .sdl linkDeclaration.render ::
      ((foldPlaceholders ds os).1.map Declaration.render).map .sdl ++
        (foldPlaceholders ds os).2.map .object := by
    rw [Plan.definitions, declarations, objects, List.map_cons, List.map_map]
    rfl
  refine ⟨(foldPlaceholders ds os).1.map Declaration.render, (foldPlaceholders ds os).2, ?_, ?_,
    forall₂_keeps (forall₂_takesIn_foldPlaceholders plain ds), ?_, ?_⟩
  · rw [← definitions]
    simp [customize, enabled, fetched, s]
  · rw [names_foldPlaceholders, names]
  · rw [← htexts]
    exact takenOut_infer_foldPlaceholders plain ds
  · rw [← htexts]
    exact inferInTurn_foldPlaceholders plain ds

/-- A post has its own locale; of two content types with one uid, the first takes the placeholder in. -/
theorem objects_keep_fields_person :
    let config : Config := { enabled := true, typePrefix := "CS" }
    let post : ContentType :=
      .make "post" [.make "locale" (.scalar .number), .make "author" (.reference ["person"])]
    let person : ContentType := .make "person" [.make "photo" .file]
    let text := "type CS_person implements Node @infer \x7b title: String! \x7d"
    let asset := "type CS_assets implements Node @infer \x7b url: String \x7d"
    ∃ left handed,
      (customize config (.given [post, person, person])).definitions? =
          some (.sdl linkDeclaration.render :: left.map .sdl ++ handed.map .object) ∧
        handed.map ObjectType.name = ["CS_post", "CS_person", "CS_person"] ∧
        TakenOut ((handed.filter (·.infer)).map placeholderText) [text, asset] left ∧
        InferInTurn [text, asset] handed := by
  intro config post person text asset
  obtain ⟨⟨left, handed, definitions, names, -, taken, inTurn⟩, -⟩ :=
    objects_keep_fields config (.given [post, person, person]) [post, person, person] rfl rfl
  exact ⟨left, handed, definitions, names, taken, inTurn⟩

example :
    let post : ContentType :=
      .make "post" [.make "locale" (.scalar .number), .make "author" (.reference ["person"])]
    let person : ContentType := .make "person" [.make "photo" .file]
    (Plan.ofContentTypes ⟨"CS", {}⟩ [post, person, person]).fold.objects.map
        (fun o => (o.infer, o.fields.keys)) =
      [(false, ["locale", "author", "uid", "created_at", "updated_at", "created_by", "updated_by"]),
        (true, ["photo", "uid", "locale", "created_at", "updated_at", "created_by", "updated_by",
          "title"]),
        (false, ["photo", "uid", "locale", "created_at", "updated_at", "created_by",
          "updated_by"])] := by
  decide

end ContentSdl
