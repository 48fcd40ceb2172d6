import ContentSdl.Proofs.ParallelWalks

/-! # Of the variants of blocks only their merged schema counts -/

namespace ContentSdl

mutual
/-- Fields that differ only in how the fields of blocks, their own or those below, are spread over
variants. -/
inductive Regrouped : Field → Field → Prop where
  | intro {uid : String} {displayName : Option String} {mandatory multiple : Bool}
    {kind kind' : FieldKind} (holds : RegroupedKind kind kind') :
    Regrouped ⟨uid, displayName, mandatory, multiple, kind⟩
      ⟨uid, displayName, mandatory, multiple, kind'⟩

inductive RegroupedKind : FieldKind → FieldKind → Prop where
  | same (kind : FieldKind) : RegroupedKind kind kind
  | group {schema schema' : List Field} (each : List.Forall₂ Regrouped schema schema') :
    RegroupedKind (.group schema) (.group schema')
  | globalField (definition : String) {schema schema' : List Field}
    (each : List.Forall₂ Regrouped schema schema') :
    RegroupedKind (.globalField definition schema) (.globalField definition schema')
  | blocks {variants variants' : List Block} (nonempty : variants ≠ []) (nonempty' : variants' ≠ [])
    (merged : List.Forall₂ Regrouped (mergedSchema variants) (mergedSchema variants')) :
    RegroupedKind (.blocks variants) (.blocks variants')
end

namespace Regrouped

variable {f g : Field}

theorem refl (f : Field) : Regrouped f f := by
  obtain ⟨uid, displayName, mandatory, multiple, kind⟩ := f
  exact .intro (.same kind)

theorem forall₂_refl (fs : List Field) : List.Forall₂ Regrouped fs fs :=
  List.forall₂_same.mpr fun f _ => refl f

theorem uid_eq (h : Regrouped f g) : f.uid = g.uid := by
  cases h
  rfl

theorem eq_of_file (h : Regrouped f g) (file : f.kind = .file) : f = g := by
  obtain ⟨holds⟩ := h
  cases holds with
  | same => rfl
  | group | globalField | blocks => cases file

theorem corresponds (h : Regrouped f g) : f.kind.Corresponds Regrouped g.kind := by
  obtain ⟨holds⟩ := h
  cases holds with
  | same => exact .refl refl _
  | group each => exact .group each
  | globalField definition each => exact .globalField definition each
  | blocks nonempty nonempty' merged => exact .blocks (iff_of_false nonempty nonempty') merged

theorem isList_eq (h : Regrouped f g) : f.isList = g.isList := by
  obtain ⟨holds⟩ := h
  cases holds <;> rfl

theorem isRequired_eq (h : Regrouped f g) : f.isRequired = g.isRequired := by
  obtain ⟨holds⟩ := h
  cases holds <;> rfl

theorem inStep (s : Style) : InStep s s (· = ·) Regrouped where
  typePrefix := rfl
  separateGlobals := rfl
  uid _ _ h := h.uid_eq
  kind _ _ h := h.corresponds
  wrap f g h n := by rw [h.isList_eq, h.isRequired_eq]

/-- Variants may be replaced by others with the same merged schema. -/
theorem of_mergedSchema {variants variants' : List Block} (nonempty : variants ≠ [])
    (nonempty' : variants' ≠ []) (same : mergedSchema variants = mergedSchema variants') (uid : String)
    (displayName : Option String) (mandatory multiple : Bool) :
    Regrouped ⟨uid, displayName, mandatory, multiple, .blocks variants⟩
      ⟨uid, displayName, mandatory, multiple, .blocks variants'⟩ :=
  .intro (.blocks nonempty nonempty' (same ▸ forall₂_refl _))

end Regrouped

/-- The fields of variants may themselves be regrouped. -/
theorem RegroupedKind.of_schemas {variants variants' : List Block}
    (each : List.Forall₂ (fun b b' => List.Forall₂ Regrouped b.schema b'.schema) variants variants') :
    RegroupedKind (.blocks variants) (.blocks variants') := by
  by_cases h : variants = []
  · obtain rfl := h
    obtain rfl := (eq_nil_iff_of_forall₂ each).mp rfl
    exact .same _
  · exact .blocks h (mt (eq_nil_iff_of_forall₂ each).mpr h)
      (forall₂_mergedSchema (fun _ _ => Regrouped.uid_eq) each)

/-- An element whose key has come before may be left out. -/
theorem firstBy_of_repeated {α κ : Type} [DecidableEq κ] (key : α → κ) {before after : List α} {a : α}
    (h : key a ∈ before.map key) :
    firstBy key (before ++ a :: after) = firstBy key (before ++ after) := by
  have seen : key a ∈ ((firstFrom key [] before).map key).reverse ++ [] := by
    rw [List.append_nil, List.mem_reverse]
    exact (mem_firstBy_keys key before (key a)).mpr h
  rw [firstBy, firstBy, firstFrom_append, firstFrom_append, firstFrom, if_pos seen]

theorem mergedSchema_of_repeated {variants variants' : List Block} {before after : List Field}
    {f : Field} (repeated : f.uid ∈ before.map Field.uid)
    (h : variants.flatMap Block.schema = before ++ f :: after)
    (h' : variants'.flatMap Block.schema = before ++ after) :
    mergedSchema variants = mergedSchema variants' := by
  rw [mergedSchema, mergedSchema, h, h']
  exact firstBy_of_repeated Field.uid repeated

namespace Run

theorem build_of_regrouped (run : Run) {fs gs : List Field} (h : List.Forall₂ Regrouped fs gs)
    (parent : String) : run.build fs parent = run.build gs parent := by
  obtain ⟨built, registry⟩ := (Regrouped.inStep run.style).build h run.registry parent
  exact Prod.ext (built.eq fun _ _ => Regrouped.eq_of_file) (congrArg (Run.mk run.style) registry)

/-- Variants of blocks at any depth may be replaced by others with the same merged schema: a build
returns the same and leaves the same registry. So a field of a variant that repeats the uid of an earlier
one contributes nothing. -/
theorem build_depends_on_mergedSchema (run : Run) (parent : String) :
    (∀ fs gs, List.Forall₂ Regrouped fs gs → run.build fs parent = run.build gs parent) ∧
    ∀ (variants variants' : List Block) (before after : List Field) (f : Field),
      f.uid ∈ before.map Field.uid →
      variants.flatMap Block.schema = before ++ f :: after →
      variants'.flatMap Block.schema = before ++ after →
      ∀ (uid : String) (displayName : Option String) (mandatory multiple : Bool),
        let blocks := Field.mk uid displayName mandatory multiple (.blocks variants)
        let blocks' := Field.mk uid displayName mandatory multiple (.blocks variants')
        Regrouped blocks blocks' ∧
          ∀ fs gs, run.build (fs ++ blocks :: gs) parent = run.build (fs ++ blocks' :: gs) parent := by
  refine ⟨fun fs gs h => run.build_of_regrouped h parent, ?_⟩
  intro variants variants' before after f repeated h h' uid displayName mandatory multiple blocks blocks'
  have nonempty : variants ≠ [] := by
    rintro rfl
    cases before <;> cases h
  have nonempty' : variants' ≠ [] := by
    -- The first field of that uid is still there.
    rintro rfl
    obtain ⟨rfl, -⟩ := List.append_eq_nil_iff.mp h'.symm
    cases repeated
  have same := mergedSchema_of_repeated repeated h h'
  have regrouped : Regrouped blocks blocks' :=
    .of_mergedSchema nonempty nonempty' same uid displayName mandatory multiple
  refine ⟨regrouped, fun fs gs => run.build_of_regrouped ?_ parent⟩
  exact List.rel_append (Regrouped.forall₂_refl fs) (.cons regrouped (Regrouped.forall₂_refl gs))

/-- The file field repeats the uid of a field that is dropped, and so it is left out, in blocks within
blocks too. -/
theorem build_depends_on_mergedSchema_page :
    let dropped : Field := .make "image" (.unknown "svg")
    let inner : Field := .make "parts" (.blocks [⟨"part", none, [dropped, .make "image" .file]⟩])
    let inner' : Field := .make "parts" (.blocks [⟨"first", none, [dropped]⟩, ⟨"other", none, []⟩])
    let page (parts : Field) : List Field := [.make "body" (.blocks [⟨"hero", none, [parts]⟩])]
    let run : Run := ⟨⟨"CS", {}⟩, {}⟩
    List.Forall₂ Regrouped (page inner) (page inner') ∧
      run.build (page inner) "CS_page" = run.build (page inner') "CS_page" ∧
      (run.build (page inner) "CS_page").1.types =
        ["type CS_page_body_parts {  }", "type CS_page_body { parts:CS_page_body_parts }"] := by
  intro dropped inner inner' page run
  have applied := build_depends_on_mergedSchema run "CS_page"
  have parts : Regrouped inner inner' :=
    (applied.2 _ _ [dropped] [] (.make "image" .file) (by decide) rfl rfl "parts" none false false).1
  have regrouped : List.Forall₂ Regrouped (page inner) (page inner') :=
    .cons (.intro (.of_schemas (.cons (.cons parts .nil) .nil))) .nil
  exact ⟨regrouped, applied.1 _ _ regrouped, by decide⟩

end Run

end ContentSdl
