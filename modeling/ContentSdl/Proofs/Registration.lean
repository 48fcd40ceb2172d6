import ContentSdl.Proofs.BuildSequence
import ContentSdl.Proofs.Placeholders

/-! # What a registration hands over, and under which names -/

namespace ContentSdl

/-- The content types that are built: those with a valid schema. -/
def validTypes (cs : List ContentType) : List ContentType := cs.filter fun c => c.validate.isOk

theorem validTypes_of_error {c : ContentType} {e : SchemaError} (h : c.validate = .error e)
    (cs : List ContentType) : validTypes (c :: cs) = validTypes cs := by
  simp [validTypes, h, Except.isOk, Except.toBool]

theorem validTypes_of_ok {c : ContentType} (h : c.validate = .ok ()) (cs : List ContentType) :
    validTypes (c :: cs) = c :: validTypes cs := by
  simp [validTypes, h, Except.isOk, Except.toBool]

/-- The builds of content types: their schemas, each for the object type of its content type. -/
def buildCalls (s : Style) (cs : List ContentType) : List (List Field × String) :=
  cs.map fun c => (c.schema, c.typeName s.typePrefix)

/-- The object type of a content type, before placeholders are folded. -/
def objectType (s : Style) (c : ContentType) (built : Built) : ObjectType :=
  .node (c.typeName s.typePrefix) (withSystemFields built.fields)

namespace Plan

theorem add_of_invalid {p : Plan} {c : ContentType} {e : SchemaError} (h : c.validate = .error e) :
    (p.add c).run = p.run ∧ (p.add c).declarations = p.declarations ∧
      (p.add c).objects = p.objects := by
  simp [add, h]

theorem add_of_valid {p : Plan} {c : ContentType} (h : c.validate = .ok ()) :
    let (built, run) := p.run.build c.schema (c.typeName p.run.style.typePrefix)
    (p.add c).run = run ∧ (p.add c).declarations = p.declarations ++ built.declarations ∧
      (p.add c).objects = p.objects ++ [objectType p.run.style c built] := by
  simp [add, h, objectType]

/-- A plan takes in the builds of the valid content types, in turn on one run. -/
theorem foldl_add (p : Plan) (cs : List ContentType) :
    let (builts, run) := p.run.buildAll (buildCalls p.run.style (validTypes cs))
    (cs.foldl add p).run = run ∧
      (cs.foldl add p).declarations = p.declarations ++ builts.flatMap Built.declarations ∧
      (cs.foldl add p).objects =
        p.objects ++ List.zipWith (objectType p.run.style) (validTypes cs) builts := by
  induction cs generalizing p with
  | nil => simp [validTypes, buildCalls, Run.buildAll]
  | cons c cs ih =>
    have tail := ih (p.add c)
    cases h : c.validate with
    | error e =>
      obtain ⟨run, declarations, objects⟩ := add_of_invalid (p := p) h
      rw [run, declarations, objects] at tail
      rw [validTypes_of_error h]
      exact tail
    | ok _ =>
      obtain ⟨run, declarations, objects⟩ := add_of_valid (p := p) h
      rw [declarations, objects, run] at tail
      rw [validTypes_of_ok h]
      obtain ⟨hrun, hdeclarations, hobjects⟩ := tail
      refine ⟨hrun, ?_, ?_⟩
      · rw [List.append_assoc] at hdeclarations
        exact hdeclarations
      · rw [List.append_assoc] at hobjects
        exact hobjects

/-- The names under which definitions are handed over: those of the declarations and those of the
object types. -/
def definitionNames (p : Plan) : List String :=
  p.declarations.map Declaration.name ++ p.objects.map ObjectType.name

end Plan

theorem typeName_injective (typePrefix : String) (c c' : ContentType)
    (h : c.typeName typePrefix = c'.typeName typePrefix) : c.uid = c'.uid := by
  have h := congrArg String.toList h
  simp only [ContentType.typeName, String.toList_append, List.append_cancel_left_eq] at h
  exact String.toList_inj.mp h

/-- The name of an object type has an underscore, that of the link type has none. -/
theorem typeName_ne_linkName (typePrefix : String) (c : ContentType) :
    c.typeName typePrefix ≠ linkName := by
  intro h
  have underscore : '_' ∈ (c.typeName typePrefix).toList := by
    simp [ContentType.typeName]
  rw [h] at underscore
  exact absurd underscore (by decide)

theorem nodup_typeNames (typePrefix : String) {cs : List ContentType}
    (h : (cs.map ContentType.uid).Nodup) :
    ((validTypes cs).map fun c => c.typeName typePrefix).Nodup := by
  have valid : ((validTypes cs).map ContentType.uid).Nodup :=
    h.sublist (List.filter_sublist.map ContentType.uid)
  rw [List.Nodup, List.pairwise_map] at valid ⊢
  exact valid.imp fun hne e => hne (typeName_injective typePrefix _ _ e)

theorem names_zipWith_objectType (s : Style) {cs : List ContentType} {builts : List Built}
    (h : builts.length = cs.length) :
    (List.zipWith (objectType s) cs builts).map ObjectType.name =
      cs.map fun c => c.typeName s.typePrefix := by
  induction cs generalizing builts with
  | nil => rfl
  | cons c cs ih =>
    cases builts with
    | nil => cases h
    | cons built builts => exact congrArg (_ :: ·) (ih (Nat.succ.inj h))

/-- A declaration of some is folded into the object type of a content type: it is the first that reads
like the placeholder of that type. -/
def IsFolded (typePrefix : String) (cs : List ContentType) (ds : List Declaration)
    (d : Declaration) : Prop :=
  ∃ c ∈ cs, ds.find? (fun e => e.render = (placeholder (c.typeName typePrefix)).render) = some d

/-- It is only the name of an object type that tells what is folded into it. -/
theorem isFolded_iff {typePrefix : String} {cs : List ContentType} {os : List ObjectType}
    (names : os.map ObjectType.name = cs.map fun c => c.typeName typePrefix)
    (ds : List Declaration) (d : Declaration) :
    (∃ o ∈ os, ds.find? o.takes = some d) ↔ IsFolded typePrefix cs ds d := by
  let takesName (name : String) (e : Declaration) : Bool := e.render = (placeholder name).render
  constructor
  · rintro ⟨o, ho, hfind⟩
    have hname : o.name ∈ cs.map fun c => c.typeName typePrefix :=
      names ▸ List.mem_map_of_mem ho
    obtain ⟨c, hc, hname⟩ := List.mem_map.mp hname
    refine ⟨c, hc, ?_⟩
    change ds.find? (takesName (c.typeName typePrefix)) = some d
    rw [hname]
    exact hfind
  · rintro ⟨c, hc, hfind⟩
    have hname : c.typeName typePrefix ∈ os.map ObjectType.name :=
      names ▸ List.mem_map_of_mem hc
    obtain ⟨o, ho, hname⟩ := List.mem_map.mp hname
    refine ⟨o, ho, ?_⟩
    change ds.find? (takesName o.name) = some d
    rw [hname]
    exact hfind

/-- The names of declarations, folded into object types, and of these are distinct unless a
declaration that stays has the name of the link type or of an object type. -/
theorem nodup_foldPlaceholders_iff {ds : List Declaration} {os : List ObjectType}
    (hds : (ds.map Declaration.name).Nodup) (hos : (os.map ObjectType.name).Nodup)
    (hlink : linkName ∉ os.map ObjectType.name) :
    (linkName :: ((foldPlaceholders ds os).1.map Declaration.name ++
        os.map ObjectType.name)).Nodup ↔
      ∀ d ∈ ds, d.name = linkName ∨ d.name ∈ os.map ObjectType.name →
        ∃ o ∈ os, ds.find? o.takes = some d := by
  have stays (d : Declaration) := mem_foldPlaceholders (d := d) hds.of_map hos
  have hstay : ((foldPlaceholders ds os).1.map Declaration.name).Nodup :=
    hds.sublist ((foldPlaceholders_sublist ds os).map Declaration.name)
  rw [List.nodup_cons, List.nodup_append', List.mem_append, not_or]
  constructor
  · rintro ⟨⟨hnolink, -⟩, -, -, hdisjoint⟩ d hd hname
    by_contra hfold
    have hmem : d.name ∈ (foldPlaceholders ds os).1.map Declaration.name := by
      apply List.mem_map_of_mem
      rw [stays]
      exact ⟨hd, fun o ho hfind => hfold ⟨o, ho, hfind⟩⟩
    rcases hname with hname | hname
    · exact hnolink (hname ▸ hmem)
    · exact hdisjoint hmem hname
  · intro hfold
    have apart : ∀ n ∈ (foldPlaceholders ds os).1.map Declaration.name,
        n ≠ linkName ∧ n ∉ os.map ObjectType.name := by
      intro n hn
      obtain ⟨d, hd, rfl⟩ := List.mem_map.mp hn
      rw [stays] at hd
      rw [← not_or]
      intro hname
      obtain ⟨o, ho, hfind⟩ := hfold d hd.1 hname
      exact hd.2 o ho hfind
    exact ⟨⟨fun h => (apart linkName h).1 rfl, hlink⟩, hstay, hos, fun n hn ho => (apart n hn).2 ho⟩

/-- A registration of content types with distinct uids hands over definitions with distinct names if
and only if every declaration of their builds that has the name of the link type or of the object type
of a content type is folded. -/
theorem nodup_definitionNames_iff (config : Config) (source : Source) (cs : List ContentType)
    (enabled : config.enabled = true) (fetched : source.fetch = .ok cs)
    (uids : (cs.map ContentType.uid).Nodup) :
    let s := config.style
    let plan := (Plan.ofContentTypes s cs).fold
    let ds := ((Run.mk s {}).buildAll (buildCalls s (validTypes cs))).1.flatMap Built.declarations
    (customize config source).definitions? = some plan.definitions ∧
      (plan.definitionNames.Nodup ↔
        ∀ d ∈ ds, d.name = linkName ∨
            d.name ∈ (validTypes cs).map (fun c => c.typeName s.typePrefix) →
          IsFolded s.typePrefix (validTypes cs) ds d) := by
  intro s plan ds
  have handed : (customize config source).definitions? = some plan.definitions := by
    simp [customize, enabled, fetched, plan, s]
  refine ⟨handed, ?_⟩
  obtain ⟨-, hdeclarations, hobjects⟩ := Plan.foldl_add { run := { style := s } } cs
  let os := List.zipWith (objectType s) (validTypes cs)
    ((Run.mk s {}).buildAll (buildCalls s (validTypes cs))).1
  have onames : os.map ObjectType.name =
      (validTypes cs).map fun c => c.typeName s.typePrefix := by
    apply names_zipWith_objectType
    rw [Run.length_buildAll, buildCalls, List.length_map]
  have declarations : plan.declarations = linkDeclaration :: (foldPlaceholders ds os).1 := by
    rw [← foldPlaceholders_link]
    exact congrArg₂ (fun ds os => (foldPlaceholders ds os).1) hdeclarations hobjects
  have objects : plan.objects.map ObjectType.name = os.map ObjectType.name :=
    (names_foldPlaceholders _ _).trans (congrArg (List.map ObjectType.name) hobjects)
  have names : plan.definitionNames =
      linkName :: ((foldPlaceholders ds os).1.map Declaration.name ++ os.map ObjectType.name) := by
    rw [Plan.definitionNames, declarations, objects]
    rfl
  have hos : (os.map ObjectType.name).Nodup := onames ▸ nodup_typeNames s.typePrefix uids
  have hlink : linkName ∉ os.map ObjectType.name := by
    rw [onames, List.mem_map]
    rintro ⟨c, -, hc⟩
    exact typeName_ne_linkName s.typePrefix c hc
  have folded (d : Declaration) : (∃ o ∈ os, ds.find? o.takes = some d) ↔
      IsFolded s.typePrefix (validTypes cs) ds d := isFolded_iff onames ds d
  rw [names, nodup_foldPlaceholders_iff (Run.nodup_names_buildAll _ _) hos hlink, onames]
  exact forall₂_congr fun d _ => imp_congr_right fun _ => folded d

/-- A post that refers to a person, and the person: the placeholder of the latter is folded. -/
theorem nodup_definitionNames_post_person :
    let config : Config := { enabled := true, typePrefix := "CS" }
    let post : ContentType := .make "post" [.make "author" (.reference ["person"])]
    let person : ContentType := .make "person" [.make "name" (.scalar .text)]
    (Plan.ofContentTypes config.style [post, person]).fold.definitionNames.Nodup := by
  intro config post person
  have h := nodup_definitionNames_iff config (.given [post, person]) [post, person] rfl rfl
    (by decide)
  refine h.2.mpr ?_
  unfold IsFolded
  decide

/-- An object type that has the name of the asset type stays beside it. -/
theorem not_nodup_definitionNames_assets :
    let config : Config := { enabled := true, typePrefix := "CS" }
    let assets : ContentType := .make "assets" [.make "image" .file]
    (customize config (.given [assets])).definitions? =
        some (Plan.ofContentTypes config.style [assets]).fold.definitions ∧
      (Plan.ofContentTypes config.style [assets]).fold.definitionNames =
        ["linktype", "CS_assets", "CS_assets"] ∧
      ¬(Plan.ofContentTypes config.style [assets]).fold.definitionNames.Nodup := by
  refine ⟨rfl, ?_, ?_⟩
  · decide
  · decide

end ContentSdl
