import ContentSdl.Proofs.Registration

/-! # What builds produce is handed over once -/

namespace ContentSdl

/-- What is left of texts when one occurrence of each of some is taken out. -/
structure TakenOut (removed texts left : List String) : Prop where
  ordered : left.Sublist texts
  perm : (removed ++ left).Perm texts

/-- The placeholders of object types that stand among texts. -/
def placeholdersIn (texts : List String) (os : List ObjectType) : List String :=
  (os.map placeholderText).filter (· ∈ texts)

/-- An object type takes in its placeholder if that stands among texts. -/
def ObjectType.merged (texts : List String) (o : ObjectType) : ObjectType :=
  if placeholderText o ∈ texts then o.takeIn else o

theorem ObjectType.placeholderText_merged (texts : List String) (o : ObjectType) :
    placeholderText (o.merged texts) = placeholderText o := by
  rw [merged]
  split <;> rfl

theorem ObjectType.name_merged (texts : List String) (o : ObjectType) :
    (o.merged texts).name = o.name := by
  rw [merged]
  split <;> rfl

theorem map_render_eraseP (ds : List Declaration) (o : ObjectType) :
    (ds.eraseP o.takes).map Declaration.render =
      (ds.map Declaration.render).erase (placeholderText o) := by
  induction ds with
  | nil => rfl
  | cons d ds ih =>
    by_cases h : d.render = placeholderText o
    · rw [List.eraseP_cons_of_pos (by simp [ObjectType.takes, h]), List.map_cons, h,
        List.erase_cons_head]
    · rw [List.eraseP_cons_of_neg (by simp [ObjectType.takes, h]), List.map_cons, List.map_cons, ih,
        List.erase_cons_tail (by simpa using h)]

theorem foldPlaceholder_snd (ds : List Declaration) (o : ObjectType) :
    (foldPlaceholder ds o).2 = o.merged (ds.map Declaration.render) := by
  have hany : (ds.any (·.render = placeholderText o) = true) ↔
      placeholderText o ∈ ds.map Declaration.render := by
    simp [List.any_eq_true]
  rw [foldPlaceholder, ObjectType.merged]
  by_cases h : placeholderText o ∈ ds.map Declaration.render
  · rw [if_pos (hany.mpr h), if_pos h]
  · rw [if_neg (mt hany.mp h), if_neg h]

/-- What one object type takes in is no placeholder of another. -/
private theorem mem_erase_placeholder {o o' : ObjectType} (hne : o'.name ≠ o.name)
    (texts : List String) :
    placeholderText o' ∈ texts.erase (placeholderText o) ↔ placeholderText o' ∈ texts :=
  List.mem_erase_of_ne fun h => hne (ObjectType.placeholderText_inj h)

theorem placeholdersIn_cons (texts : List String) (o : ObjectType) (os : List ObjectType) :
    placeholdersIn texts (o :: os) =
      if placeholderText o ∈ texts then placeholderText o :: placeholdersIn texts os
      else placeholdersIn texts os := by
  rw [placeholdersIn, List.map_cons, List.filter_cons]
  simp only [decide_eq_true_eq]
  rfl

theorem TakenOut.cons {removed texts left : List String} {t : String} (h : t ∈ texts)
    (rest : TakenOut removed (texts.erase t) left) : TakenOut (t :: removed) texts left where
  ordered := rest.ordered.trans List.erase_sublist
  perm := (rest.perm.cons t).trans (List.perm_cons_erase h).symm

/-- Folding takes out one occurrence of each placeholder that is there, whatever else is folded. -/
theorem takenOut_foldPlaceholders {os : List ObjectType} (h : (os.map ObjectType.name).Nodup)
    (ds : List Declaration) :
    TakenOut (placeholdersIn (ds.map Declaration.render) os) (ds.map Declaration.render)
        ((foldPlaceholders ds os).1.map Declaration.render) ∧
      (foldPlaceholders ds os).2 = os.map (ObjectType.merged (ds.map Declaration.render)) := by
  induction os generalizing ds with
  | nil => exact ⟨⟨.refl _, .refl _⟩, rfl⟩
  | cons o os ih =>
    obtain ⟨ho, hos⟩ := List.nodup_cons.mp h
    have hne : ∀ o' ∈ os, o'.name ≠ o.name := fun o' ho' e => ho (e ▸ List.mem_map_of_mem ho')
    obtain ⟨taken, merged⟩ := ih hos (ds.eraseP o.takes)
    rw [map_render_eraseP] at taken merged
    have same : placeholdersIn ((ds.map Declaration.render).erase (placeholderText o)) os =
        placeholdersIn (ds.map Declaration.render) os := by
      apply List.filter_congr
      intro t ht
      obtain ⟨o', ho', rfl⟩ := List.mem_map.mp ht
      rw [decide_eq_decide]
      exact mem_erase_placeholder (hne o' ho') _
    rw [same] at taken
    rw [foldPlaceholders_cons]
    constructor
    · rw [placeholdersIn_cons]
      split
      · rename_i hin
        exact taken.cons hin
      · rename_i hout
        rwa [List.erase_of_not_mem hout] at taken
    · rw [merged, foldPlaceholder_snd, List.map_cons]
      refine congrArg _ (List.map_congr_left fun o' ho' => ?_)
      rw [ObjectType.merged, ObjectType.merged]
      exact if_congr (mem_erase_placeholder (hne o' ho') _) rfl rfl

/-- The link type is taken in by no object type. -/
theorem foldPlaceholders_link_snd (ds : List Declaration) (os : List ObjectType) :
    (foldPlaceholders (linkDeclaration :: ds) os).2 = (foldPlaceholders ds os).2 := by
  induction os generalizing ds with
  | nil => rfl
  | cons o os ih =>
    have hlink : placeholderText o ≠ linkDeclaration.render := by
      have hnot := o.not_takes_link
      rw [ObjectType.takes, decide_eq_false_iff_not] at hnot
      exact fun h => hnot h.symm
    have hmerged : o.merged (linkDeclaration.render :: ds.map Declaration.render) =
        o.merged (ds.map Declaration.render) := by
      simp [ObjectType.merged, hlink]
    rw [foldPlaceholders_cons, foldPlaceholders_cons, foldPlaceholder_snd, foldPlaceholder_snd,
      List.eraseP_cons_of_neg (by simp [o.not_takes_link]), ih, List.map_cons, hmerged]

/-- Behind the link type, a plan for content types is the declarations of their builds, folded into the
object types of those that are valid. -/
theorem Plan.fold_ofContentTypes (s : Style) (cs : List ContentType) :
    let builts := ((Run.mk s {}).buildAll (buildCalls s (validTypes cs))).1
    let folded := foldPlaceholders (builts.flatMap Built.declarations)
      (List.zipWith (objectType s) (validTypes cs) builts)
    (ofContentTypes s cs).fold.declarations = linkDeclaration :: folded.1 ∧
      (ofContentTypes s cs).fold.objects = folded.2 := by
  intro builts folded
  obtain ⟨-, declarations, objects⟩ := foldl_add { run := { style := s } } cs
  constructor
  · rw [← foldPlaceholders_link]
    exact congrArg₂ (fun ds os => (foldPlaceholders ds os).1) declarations objects
  · rw [← foldPlaceholders_link_snd]
    exact congrArg₂ (fun ds os => (foldPlaceholders ds os).2) declarations objects

theorem mem_placeholdersIn {texts : List String} {os : List ObjectType} {o : ObjectType}
    (h : o ∈ os) : placeholderText o ∈ placeholdersIn texts os ↔ placeholderText o ∈ texts := by
  rw [placeholdersIn, List.mem_filter, decide_eq_true_eq]
  exact and_iff_right (List.mem_map_of_mem h)

theorem ObjectType.infer_merged {o : ObjectType} (h : o.infer = false) (texts : List String) :
    (o.merged texts).infer = true ↔ placeholderText o ∈ texts := by
  rw [merged]
  split
  · rename_i hin
    exact iff_of_true rfl hin
  · rename_i hout
    exact iff_of_false (by simp [h]) hout

theorem infer_of_mem_zipWith {s : Style} {cs : List ContentType} {builts : List Built}
    {o : ObjectType} (h : o ∈ List.zipWith (objectType s) cs builts) : o.infer = false := by
  rw [← List.map_uncurry_zip_eq_zipWith] at h
  obtain ⟨x, -, rfl⟩ := List.mem_map.mp h
  rfl

theorem nodup_placeholdersIn {os : List ObjectType} (h : (os.map ObjectType.name).Nodup)
    (texts : List String) : (placeholdersIn texts os).Nodup := by
  apply List.Nodup.filter
  rw [List.Nodup, List.pairwise_map] at h ⊢
  exact h.imp fun hne e => hne (ObjectType.placeholderText_inj e)

namespace Plan

/-- A plan lists the references and files of the builds of the valid content types, in turn. -/
theorem report_foldl_add (p : Plan) (cs : List ContentType) :
    let builts := (p.run.buildAll (buildCalls p.run.style (validTypes cs))).1
    (cs.foldl add p).report.references = p.report.references ++ builts.flatMap Built.references ∧
      (cs.foldl add p).report.files = p.report.files ++ builts.flatMap Built.files := by
  induction cs generalizing p with
  | nil => simp [validTypes, buildCalls, Run.buildAll]
  | cons c cs ih =>
    have tail := ih (p.add c)
    cases h : c.validate with
    | error e =>
      have same : (p.add c).report.references = p.report.references ∧
          (p.add c).report.files = p.report.files := by simp [add, h]
      rw [(add_of_invalid h).1, same.1, same.2] at tail
      rw [validTypes_of_error h]
      exact tail
    | ok _ =>
      let first := p.run.build c.schema (c.typeName p.run.style.typePrefix)
      have more : (p.add c).report.references = p.report.references ++ first.1.references ∧
          (p.add c).report.files = p.report.files ++ first.1.files := by simp [add, h, first]
      rw [(add_of_valid h).1, more.1, more.2] at tail
      obtain ⟨references, files⟩ := tail
      rw [List.append_assoc] at references files
      rw [validTypes_of_ok h]
      exact ⟨references, files⟩

end Plan

/-- A registration of content types with distinct uids hands over the link type, then the declarations
of all builds in order but for one placeholder of each object type that has one, then the object type
of each valid content type. It reports the references and files of all builds in order. -/
theorem definitions_eq_declarations_and_objects (config : Config) (source : Source)
    (cs : List ContentType) (enabled : config.enabled = true) (fetched : source.fetch = .ok cs)
    (uids : (cs.map ContentType.uid).Nodup) :
    let s := config.style
    let builts := ((Run.mk s {}).buildAll (buildCalls s (validTypes cs))).1
    let texts := builts.flatMap Built.types
    let objects := List.zipWith (objectType s) (validTypes cs) builts
    let removed := placeholdersIn texts objects
    ∃ left handed report,
      (customize config source).definitions? =
          some (.sdl linkDeclaration.render :: left.map .sdl ++ handed.map .object) ∧
        (customize config source).result = .ok report ∧
        TakenOut removed texts left ∧ removed.Nodup ∧
        handed = objects.map (ObjectType.merged texts) ∧
        handed.map ObjectType.name = (validTypes cs).map (fun c => c.typeName s.typePrefix) ∧
        (∀ o ∈ handed, o.infer = true ↔ placeholderText o ∈ removed) ∧
        report.references = builts.flatMap Built.references ∧
        report.files = builts.flatMap Built.files := by
  intro s builts texts objects removed
  obtain ⟨hrun, hdeclarations, hobjects⟩ := Plan.foldl_add { run := { style := s } } cs
  obtain ⟨hreferences, hfiles⟩ := Plan.report_foldl_add { run := { style := s } } cs
  let ds := builts.flatMap Built.declarations
  have htexts : ds.map Declaration.render = texts := List.map_flatMap ..
  have onames : objects.map ObjectType.name =
      (validTypes cs).map fun c => c.typeName s.typePrefix := by
    apply names_zipWith_objectType
    rw [Run.length_buildAll, buildCalls, List.length_map]
  have hos : (objects.map ObjectType.name).Nodup := onames ▸ nodup_typeNames s.typePrefix uids
  obtain ⟨taken, merged⟩ := takenOut_foldPlaceholders hos ds
  rw [htexts] at taken merged
  let plan := (Plan.ofContentTypes s cs).fold
  have declarations : plan.declarations = linkDeclaration :: (foldPlaceholders ds objects).1 := by
    rw [← foldPlaceholders_link]
    exact congrArg₂ (fun ds os => (foldPlaceholders ds os).1) hdeclarations hobjects
  have handed : plan.objects = objects.map (ObjectType.merged texts) := by
    rw [← merged, ← foldPlaceholders_link_snd]
    exact congrArg₂ (fun ds os => (foldPlaceholders ds os).2) hdeclarations hobjects
  have definitions : plan.definitions = .sdl linkDeclaration.render ::
      ((foldPlaceholders ds objects).1.map Declaration.render).map .sdl ++
        (objects.map (ObjectType.merged texts)).map .object := by
    simp only [Plan.definitions, declarations, handed, List.map_cons, List.map_map]
    rfl
  refine ⟨(foldPlaceholders ds objects).1.map Declaration.render,
    objects.map (ObjectType.merged texts),
    { plan.report with globals := plan.run.registry.globals.entries }, ?_, ?_, taken,
    nodup_placeholdersIn hos texts, rfl, ?_, ?_, hreferences, hfiles⟩
  · rw [← definitions]
    simp [customize, enabled, fetched, plan, s]
  · simp [customize, enabled, fetched, plan, s]
  · rw [← onames, List.map_map]
    exact List.map_congr_left fun o _ => o.name_merged texts
  · intro o ho
    obtain ⟨o', ho', rfl⟩ := List.mem_map.mp ho
    rw [o'.placeholderText_merged, mem_placeholdersIn ho']
    exact ObjectType.infer_merged (infer_of_mem_zipWith ho') texts

/-- Of what a post and its author declare, the placeholder of the author alone is taken out; a content
type that is not valid leaves no trace. -/
theorem handover_post_person :
    let config : Config := { enabled := true, typePrefix := "CS" }
    let post : ContentType := .make "post" [.make "author" (.reference ["person"])]
    let odd : ContentType := .make "odd" [.make "" (.reference ["odd"])]
    let person : ContentType := .make "person" [.make "bio" (.group [.make "text" (.scalar .text)])]
    let source : Source := .given [post, odd, person]
    ∃ (left : List String) (handed : List ObjectType) (report : Report),
      (customize config source).definitions? =
          some (.sdl linkDeclaration.render :: left.map .sdl ++ handed.map .object) ∧
        (customize config source).result = .ok report ∧
        TakenOut ["type CS_person implements Node @infer \x7b title: String! \x7d"]
          ["type CS_person implements Node @infer \x7b title: String! \x7d",
            "type CS_person_bio implements Node @infer \x7b text:String \x7d"] left ∧
        handed.map ObjectType.name = ["CS_post", "CS_person"] ∧
        report.references = [⟨"CS_post", "author"⟩] ∧ report.files = [] := by
  intro config post odd person source
  obtain ⟨left, handed, report, definitions, result, taken, -, -, names, -, references, files⟩ :=
    definitions_eq_declarations_and_objects config source [post, odd, person] rfl rfl (by decide)
  exact ⟨left, handed, report, definitions, result, taken, names, references, files⟩

end ContentSdl
