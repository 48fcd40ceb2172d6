import ContentSdl.Proofs.ParallelWalks

/-! # Switching off the marks of mandatory fields -/

namespace ContentSdl

mutual
/-- Fields that differ in mandatory flags and display names only, in their own or in those of fields
below. -/
inductive Remarked : Field → Field → Prop where
  | intro {uid : String} {displayName displayName' : Option String} {mandatory mandatory' : Bool}
    {multiple : Bool} {kind kind' : FieldKind} (holds : RemarkedKind kind kind') :
    Remarked ⟨uid, displayName, mandatory, multiple, kind⟩
      ⟨uid, displayName', mandatory', multiple, kind'⟩

inductive RemarkedKind : FieldKind → FieldKind → Prop where
  | same (kind : FieldKind) : RemarkedKind kind kind
  | group {schema schema' : List Field} (each : List.Forall₂ Remarked schema schema') :
    RemarkedKind (.group schema) (.group schema')
  | globalField (definition : String) {schema schema' : List Field}
    (each : List.Forall₂ Remarked schema schema') :
    RemarkedKind (.globalField definition schema) (.globalField definition schema')
  | blocks {variants variants' : List Block} (each : List.Forall₂ RemarkedBlock variants variants') :
    RemarkedKind (.blocks variants) (.blocks variants')

inductive RemarkedBlock : Block → Block → Prop where
  | intro {uid : String} {title : Option String} {schema schema' : List Field}
    (each : List.Forall₂ Remarked schema schema') :
    RemarkedBlock ⟨uid, title, schema⟩ ⟨uid, title, schema'⟩
end

namespace Remarked

variable {f g : Field}

theorem refl (f : Field) : Remarked f f := by
  obtain ⟨uid, displayName, mandatory, multiple, kind⟩ := f
  exact .intro (.same kind)

theorem uid_eq (h : Remarked f g) : f.uid = g.uid := by
  cases h
  rfl

theorem isList_eq (h : Remarked f g) : f.isList = g.isList := by
  obtain ⟨holds⟩ := h
  cases holds <;> rfl

end Remarked

theorem Remarked.corresponds {f g : Field} (h : Remarked f g) : f.kind.Corresponds Remarked g.kind := by
  obtain ⟨holds⟩ := h
  cases holds with
  | same => exact .refl Remarked.refl _
  | group each => exact .group each
  | globalField definition each => exact .globalField definition each
  | @blocks variants variants' each =>
    have schemas : List.Forall₂ (fun b b' => List.Forall₂ Remarked b.schema b'.schema) variants
        variants' := each.imp fun b b' hb => by
      obtain ⟨each⟩ := hb
      exact each
    exact .blocks (eq_nil_iff_of_forall₂ each) (forall₂_mergedSchema (fun _ _ => uid_eq) schemas)

namespace Options

variable (separateGlobals : Bool) (n : String) (multiple : Bool)

theorem wrap_disabled (mandatory mandatory' : Bool) :
    (⟨true, separateGlobals⟩ : Options).wrap n multiple mandatory =
      (⟨true, separateGlobals⟩ : Options).wrap n multiple mandatory' := by
  simp [wrap]

/-- A type that is the other one, or that with the mark of a non-null type. -/
def Marks (t t' : String) : Prop := t' = t ∨ t' = t ++ "!"

theorem marks_wrap (mandatory : Bool) :
    Marks ((⟨true, separateGlobals⟩ : Options).wrap n multiple mandatory)
      ((⟨false, separateGlobals⟩ : Options).wrap n multiple mandatory) := by
  cases mandatory
  · exact .inl rfl
  · exact .inr rfl

end Options

theorem inStep_remarked (typePrefix : String) (separateGlobals : Bool) :
    InStep ⟨typePrefix, ⟨true, separateGlobals⟩⟩ ⟨typePrefix, ⟨true, separateGlobals⟩⟩ (· = ·)
      Remarked where
  typePrefix := rfl
  separateGlobals := rfl
  uid _ _ h := h.uid_eq
  kind _ _ h := h.corresponds
  wrap f g h n := by rw [h.isList_eq]; exact Options.wrap_disabled ..

theorem inStep_marks (typePrefix : String) (separateGlobals : Bool) :
    InStep ⟨typePrefix, ⟨true, separateGlobals⟩⟩ ⟨typePrefix, ⟨false, separateGlobals⟩⟩ Options.Marks
      (· = ·) where
  typePrefix := rfl
  separateGlobals := rfl
  uid _ _ h := congrArg Field.uid h
  kind f _ h := h ▸ .refl Eq.refl f.kind
  wrap f _ h n := h ▸ Options.marks_wrap separateGlobals n f.isList f.isRequired

/-- The parents and uids of related files are the same. -/
theorem map_files_eq {files files' : List FileField}
    (h : List.Forall₂ (FileField.Related Remarked) files files') :
    files.map (fun f => (f.parent, f.field.uid)) =
      files'.map (fun f => (f.parent, f.field.uid)) := by
  rw [← List.forall₂_eq_eq_eq, List.forall₂_map_left_iff, List.forall₂_map_right_iff]
  exact h.imp fun _ _ hf => Prod.ext hf.parent hf.field.uid_eq

theorem map_name_eq {T : String → String → Prop} {ds ds' : List Declaration}
    (h : List.Forall₂ (Declaration.Related T) ds ds') :
    ds.map Declaration.name = ds'.map Declaration.name := by
  rw [← List.forall₂_eq_eq_eq, List.forall₂_map_left_iff, List.forall₂_map_right_iff]
  exact h.imp fun _ _ hd => hd.name_eq

namespace Run

/-- Where types are not marked as non-null, builds of fields that differ in mandatory flags and display
names differ in the files they return only, and not in their uids. Where they are, all is the same but
for types of fields that have the mark. -/
theorem disableMandatory_erases_marks (r : Registry) (typePrefix parent : String)
    (separateGlobals : Bool) :
    let on : Run := ⟨⟨typePrefix, ⟨true, separateGlobals⟩⟩, r⟩
    let off : Run := ⟨⟨typePrefix, ⟨false, separateGlobals⟩⟩, r⟩
    (∀ fs gs, List.Forall₂ Remarked fs gs →
      let (built, run) := on.build fs parent
      let (built', run') := on.build gs parent
      built.fields = built'.fields ∧ built.types = built'.types ∧
        built.references = built'.references ∧ run = run' ∧
        built.files.map (fun f => (f.parent, f.field.uid)) =
          built'.files.map (fun f => (f.parent, f.field.uid))) ∧
    ∀ fs,
      let (built, run) := on.build fs parent
      let (built', run') := off.build fs parent
      built.fields.Related (FieldType.Related Options.Marks) built'.fields ∧
        List.Forall₂ (Declaration.Related Options.Marks) built.declarations built'.declarations ∧
        built.declarations.map Declaration.name = built'.declarations.map Declaration.name ∧
        built.references = built'.references ∧ built.files = built'.files ∧
        run.registry = run'.registry := by
  intro on off
  refine ⟨fun fs gs h => ?_, fun fs => ?_⟩
  · obtain ⟨built, registry⟩ := (inStep_remarked typePrefix separateGlobals).build h r parent
    have declarations := Declaration.eq_of_related built.declarations
    refine ⟨OrderedMap.Related.eq (fun _ _ ht => ht.eq) built.fields,
      congrArg (List.map Declaration.render) declarations, built.references,
      congrArg (Run.mk on.style) registry, map_files_eq built.files⟩
  · have each : List.Forall₂ (· = ·) fs fs := List.forall₂_same.mpr fun _ _ => rfl
    obtain ⟨built, registry⟩ := (inStep_marks typePrefix separateGlobals).build each r parent
    have files := FileField.eq_of_related (fun _ _ same _ => same) built.files
    exact ⟨built.fields, built.declarations, map_name_eq built.declarations, built.references, files,
      registry⟩

theorem disableMandatory_erases_marks_card :
    let on : Run := ⟨⟨"CS", ⟨true, true⟩⟩, {}⟩
    let card (displayName : Option String) (mandatory : Bool) : Field :=
      ⟨"card", displayName, mandatory, false, .blocks [⟨"hero", none,
        [⟨"image", displayName, mandatory, true, .file⟩]⟩]⟩
    List.Forall₂ Remarked [card none true] [card (some "Card") false] ∧
      (on.build [card none true] "CS_page").1.types =
        (on.build [card (some "Card") false] "CS_page").1.types ∧
      (on.build [card none true] "CS_page").1.types =
        ["type CS_assets implements Node @infer { url: String }",
          "type CS_page_card { image:[CS_assets] }"] := by
  intro on card
  have image : List.Forall₂ Remarked [⟨"image", none, true, true, .file⟩]
      [⟨"image", some "Card", false, true, .file⟩] := .cons (.intro (.same .file)) .nil
  have related : List.Forall₂ Remarked [card none true] [card (some "Card") false] :=
    .cons (.intro (.blocks (.cons (.intro image) .nil))) .nil
  have erased := (disableMandatory_erases_marks {} "CS" "CS_page" true).1 _ _ related
  exact ⟨related, erased.2.1, by decide⟩

end Run

end ContentSdl
