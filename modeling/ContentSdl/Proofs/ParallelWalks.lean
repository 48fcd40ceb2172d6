import ContentSdl.Proofs.FieldMaps
import Mathlib.Data.List.Forall2

/-! # Walks side by side

Two walks take the same steps if their fields correspond one by one: they come to the same registry, and
what they declare and find differs no more than their fields and the marks of their styles do. -/

namespace ContentSdl

namespace OrderedMap

variable {α β : Type} {T : α → β → Prop} {es : List (String × α)} {es' : List (String × β)}

/-- Entries with one key and related values. -/
def EntryRelated (T : α → β → Prop) (e : String × α) (e' : String × β) : Prop :=
  e.1 = e'.1 ∧ T e.2 e'.2

/-- Maps with the same keys in the same order, and with related values. -/
def Related (T : α → β → Prop) (m : OrderedMap α) (m' : OrderedMap β) : Prop :=
  List.Forall₂ (EntryRelated T) m.entries m'.entries

theorem forall₂_putEntry {key : String} {a : α} {b : β} (h : T a b)
    (hes : List.Forall₂ (EntryRelated T) es es') :
    List.Forall₂ (EntryRelated T) (putEntry key a es) (putEntry key b es') := by
  induction hes with
  | nil => exact .cons ⟨rfl, h⟩ .nil
  | @cons e e' es es' he hes ih =>
    obtain ⟨k, c⟩ := e
    obtain ⟨k', c'⟩ := e'
    obtain ⟨rfl, hc⟩ := he
    rw [putEntry, putEntry]
    split
    · exact .cons ⟨rfl, h⟩ hes
    · exact .cons ⟨rfl, hc⟩ ih

theorem related_insertAll (hes : List.Forall₂ (EntryRelated T) es es') {m : OrderedMap α}
    {m' : OrderedMap β} (h : m.Related T m') : (m.insertAll es).Related T (m'.insertAll es') := by
  induction hes generalizing m m' with
  | nil => exact h
  | @cons e e' es es' he _ ih =>
    rw [insertAll_cons, insertAll_cons, he.1]
    exact ih (forall₂_putEntry he.2 h)

theorem related_ofList (hes : List.Forall₂ (EntryRelated T) es es') :
    (ofList es).Related T (ofList es') :=
  related_insertAll hes .nil

theorem Related.eq {T : α → α → Prop} (hT : ∀ a b, T a b → a = b) {m m' : OrderedMap α}
    (h : m.Related T m') : m = m' := by
  apply OrderedMap.ext
  rw [← List.forall₂_eq_eq_eq]
  exact h.imp fun _ _ he => Prod.ext he.1 (hT _ _ he.2)

end OrderedMap

/-- Types of which one is found where the other is; what they wrap and how is related. -/
structure FieldType.Related (T : String → String → Prop) (t t' : FieldType) : Prop where
  accessor : t.accessor? = t'.accessor?
  type : T t.type t'.type

theorem FieldType.Related.eq {t t' : FieldType} (h : t.Related (· = ·) t') : t = t' := by
  obtain ⟨accessor, type⟩ := h
  cases t with
  | named =>
    cases t' with
    | named => exact congrArg named type
    | resolved => cases accessor
  | resolved =>
    cases t' with
    | named => cases accessor
    | resolved => exact congrArg₂ resolved type (Option.some.inj accessor)

/-- Declarations that differ in the types of their fields only. -/
inductive Declaration.Related (T : String → String → Prop) : Declaration → Declaration → Prop where
  | text (name : String) (node : Bool) (s : String) :
    Related T (.object name node (.text s)) (.object name node (.text s))
  | fields (name : String) (node : Bool) {m m' : FieldMap} (h : m.Related (FieldType.Related T) m') :
    Related T (.object name node (.fields m)) (.object name node (.fields m'))
  | union (name : String) (members : List String) :
    Related T (.union name members) (.union name members)

namespace Declaration.Related

variable {T : String → String → Prop} {d d' : Declaration}

theorem name_eq (h : d.Related T d') : d.name = d'.name := by
  cases h <;> rfl

theorem eq (h : d.Related (· = ·) d') : d = d' := by
  cases h with
  | text | union => rfl
  | fields name node h => rw [OrderedMap.Related.eq (fun _ _ => FieldType.Related.eq) h]

end Declaration.Related

theorem Declaration.eq_of_related {ds ds' : List Declaration}
    (h : List.Forall₂ (Related (· = ·)) ds ds') : ds = ds' :=
  List.forall₂_eq_eq_eq ▸ h.imp fun _ _ hd => hd.eq

/-- Occurrences of related file fields. -/
structure FileField.Related (R : Field → Field → Prop) (f f' : FileField) : Prop where
  parent : f.parent = f'.parent
  field : R f.field f'.field
  kind : f.field.kind = .file

theorem FileField.eq_of_related {R : Field → Field → Prop}
    (hR : ∀ f f', R f f' → f.kind = .file → f = f') {fs fs' : List FileField}
    (h : List.Forall₂ (Related R) fs fs') : fs = fs' := by
  rw [← List.forall₂_eq_eq_eq]
  refine h.imp fun f f' hf => ?_
  obtain ⟨parent, field⟩ := f
  obtain ⟨parent', field'⟩ := f'
  exact congrArg₂ mk hf.parent (hR field field' hf.field hf.kind)

/-- Builds that differ in types and fields only. -/
structure Build.Parallel (T : String → String → Prop) (R : Field → Field → Prop) (b b' : Build) :
    Prop where
  registry : b.registry = b'.registry
  declarations : List.Forall₂ (Declaration.Related T) b.declarations b'.declarations
  references : b.references = b'.references
  files : List.Forall₂ (FileField.Related R) b.files b'.files
  log : b.log = b'.log

namespace Build.Parallel

variable {T : String → String → Prop} {R : Field → Field → Prop} {b b' : Build}

theorem fresh (T : String → String → Prop) (R : Field → Field → Prop) (r : Registry) :
    Parallel T R { registry := r } { registry := r } :=
  ⟨rfl, .nil, rfl, .nil, rfl⟩

theorem report (h : Parallel T R b b') (level : LogLevel) (message : String) :
    Parallel T R (b.report level message) (b'.report level message) :=
  { h with log := congrArg (· ++ _) h.log }

theorem use (h : Parallel T R b b') (definition user : String) :
    Parallel T R (b.use definition user) (b'.use definition user) :=
  { h with registry := congrArg (·.record definition user) h.registry }

theorem addReference (h : Parallel T R b b') (r : Reference) :
    Parallel T R (b.addReference r) (b'.addReference r) :=
  { h with references := congrArg (· ++ _) h.references }

theorem addFile (h : Parallel T R b b') {f f' : FileField} (hf : f.Related R f') :
    Parallel T R (b.addFile f) (b'.addFile f') :=
  { h with files := List.rel_append h.files (.cons hf .nil) }

theorem emit (h : Parallel T R b b') {d d' : Declaration} (hd : d.Related T d') :
    Parallel T R (b.emit d) (b'.emit d') := by
  have declared : b.registry.declared = b'.registry.declared := congrArg Registry.declared h.registry
  by_cases hnew : d.name ∈ b.registry.declared
  · have hnew' : d'.name ∈ b'.registry.declared := by rwa [← declared, ← hd.name_eq]
    rwa [emit_of_declared hnew, emit_of_declared hnew']
  · have hnew' : d'.name ∉ b'.registry.declared := by rwa [← declared, ← hd.name_eq]
    rw [emit_of_new hnew, emit_of_new hnew', hd.name_eq]
    refine report ?_ _ _
    exact { h with
      registry := by rw [h.registry]
      declarations := List.rel_append h.declarations (.cons hd .nil) }

theorem emitAll (h : Parallel T R b b') {ds : List Declaration} (hds : ∀ d ∈ ds, d.Related T d) :
    Parallel T R (b.emitAll ds) (b'.emitAll ds) := by
  induction ds generalizing b b' with
  | nil => exact h
  | cons d ds ih =>
    obtain ⟨hd, hds⟩ := List.forall_mem_cons.mp hds
    exact ih (h.emit hd) hds

end Build.Parallel

/-- Kinds with corresponding fields inside. Of variants, only the merged schema counts, and whether there
are any. -/
inductive FieldKind.Corresponds (R : Field → Field → Prop) : FieldKind → FieldKind → Prop where
  | scalar (kind : ScalarKind) : Corresponds R (.scalar kind) (.scalar kind)
  | file : Corresponds R .file .file
  | group {schema schema' : List Field} (inside : List.Forall₂ R schema schema') :
    Corresponds R (.group schema) (.group schema')
  | globalField (definition : String) {schema schema' : List Field}
    (inside : List.Forall₂ R schema schema') :
    Corresponds R (.globalField definition schema) (.globalField definition schema')
  | blocks {variants variants' : List Block} (empty : variants = [] ↔ variants' = [])
    (inside : List.Forall₂ R (mergedSchema variants) (mergedSchema variants')) :
    Corresponds R (.blocks variants) (.blocks variants')
  | reference (targets : List String) : Corresponds R (.reference targets) (.reference targets)
  | unknown (tag : String) : Corresponds R (.unknown tag) (.unknown tag)

theorem FieldKind.Corresponds.refl {R : Field → Field → Prop} (hR : ∀ f, R f f) (kind : FieldKind) :
    kind.Corresponds R kind := by
  have inside (fs : List Field) : List.Forall₂ R fs fs := List.forall₂_same.mpr fun f _ => hR f
  cases kind with
  | scalar kind => exact .scalar kind
  | file => exact .file
  | group schema => exact .group (inside schema)
  | globalField definition schema => exact .globalField definition (inside schema)
  | blocks variants => exact .blocks Iff.rfl (inside _)
  | reference targets => exact .reference targets
  | unknown tag => exact .unknown tag

theorem forall₂_firstFrom {α κ : Type} [DecidableEq κ] {key : α → κ} {R : α → α → Prop}
    (hkey : ∀ a b, R a b → key a = key b) (seen : List κ) {as bs : List α}
    (h : List.Forall₂ R as bs) : List.Forall₂ R (firstFrom key seen as) (firstFrom key seen bs) := by
  induction h generalizing seen with
  | nil => exact .nil
  | @cons a b as bs hab _ ih =>
    rw [firstFrom, firstFrom, hkey a b hab]
    split
    · exact ih seen
    · exact .cons hab (ih _)

/-- Variants with related fields, one by one, have related merged schemas. -/
theorem forall₂_mergedSchema {R : Field → Field → Prop} (uid : ∀ f g, R f g → f.uid = g.uid)
    {variants variants' : List Block}
    (h : List.Forall₂ (fun b b' => List.Forall₂ R b.schema b'.schema) variants variants') :
    List.Forall₂ R (mergedSchema variants) (mergedSchema variants') :=
  forall₂_firstFrom uid [] (List.rel_flatMap h fun _ _ hb => hb)

theorem eq_nil_iff_of_forall₂ {α β : Type} {R : α → β → Prop} {as : List α} {bs : List β}
    (h : List.Forall₂ R as bs) : as = [] ↔ bs = [] := by
  rw [← List.length_eq_zero_iff, ← List.length_eq_zero_iff, h.length_eq]

/-- Styles that give the same names, and fields that they walk in step: all that differs is how types are
marked. -/
structure InStep (s s' : Style) (T : String → String → Prop) (R : Field → Field → Prop) : Prop where
  typePrefix : s.typePrefix = s'.typePrefix
  separateGlobals : s.options.separateGlobals = s'.options.separateGlobals
  uid : ∀ f g, R f g → f.uid = g.uid
  kind : ∀ f g, R f g → f.kind.Corresponds R g.kind
  wrap : ∀ f g, R f g → ∀ n,
    T (s.options.wrap n f.isList f.isRequired) (s'.options.wrap n g.isList g.isRequired)

namespace InStep

variable {s s' : Style} {T : String → String → Prop} {R : Field → Field → Prop} {f g : Field}

theorem globalName_eq (h : InStep s s' T R) (parent uid definition : String) :
    globalName s.options parent uid definition = globalName s'.options parent uid definition := by
  rw [globalName, globalName, h.separateGlobals]

theorem typeName?_eq (h : InStep s s' T R) (hfg : R f g) (parent : String) :
    f.typeName? s parent = g.typeName? s' parent := by
  have uid := h.uid f g hfg
  have kind := h.kind f g hfg
  obtain ⟨u, _, _, _, k⟩ := f
  obtain ⟨u', _, _, _, k'⟩ := g
  obtain rfl : u = u' := uid
  change FieldKind.Corresponds R k k' at kind
  cases kind with
  | scalar | unknown => rfl
  | file => exact congrArg (fun p => some (assetsName p)) h.typePrefix
  | group inside => simp only [Field.typeName?, eq_nil_iff_of_forall₂ inside]
  | globalField definition inside =>
    simp only [Field.typeName?, eq_nil_iff_of_forall₂ inside, h.globalName_eq]
  | blocks empty => simp only [Field.typeName?, empty]
  | reference => simp only [Field.typeName?, h.typePrefix]

theorem accessor?_eq (h : InStep s s' T R) (hfg : R f g) : f.accessor? = g.accessor? := by
  have kind := h.kind f g hfg
  rw [Field.accessor?, Field.accessor?, h.uid f g hfg]
  generalize f.kind = k at kind
  generalize g.kind = k' at kind
  cases kind <;> rfl

theorem type?_related (h : InStep s s' T R) (hfg : R f g) (parent : String) :
    Option.Rel (FieldType.Related T) (f.type? s parent) (g.type? s' parent) := by
  have marked := f.map_type_type? s parent
  have marked' := g.map_type_type? s' parent
  rw [h.typeName?_eq hfg] at marked
  cases ht : f.type? s parent with
  | none =>
    rw [ht, Option.map_none, eq_comm, Option.map_eq_none_iff] at marked
    rw [marked, Option.map_none, Option.map_eq_none_iff] at marked'
    rw [marked']
    exact .none
  | some t =>
    rw [ht, Option.map_some, eq_comm, Option.map_eq_some_iff] at marked
    obtain ⟨n, hn, htype⟩ := marked
    rw [hn, Option.map_some, Option.map_eq_some_iff] at marked'
    obtain ⟨t', ht', htype'⟩ := marked'
    rw [ht']
    refine .some ⟨?_, ?_⟩
    · rw [Field.accessor?_of_type? ht, Field.accessor?_of_type? ht', h.accessor?_eq hfg]
    · rw [← htype, htype']
      exact h.wrap f g hfg n

theorem fieldMap_related (h : InStep s s' T R) {fs gs : List Field} (hfs : List.Forall₂ R fs gs)
    (parent : String) :
    (fieldMap s parent fs).Related (FieldType.Related T) (fieldMap s' parent gs) := by
  have entry ⦃f g : Field⦄ (hfg : R f g) :
      Option.Rel (OrderedMap.EntryRelated (FieldType.Related T))
        ((f.type? s parent).map (f.uid, ·)) ((g.type? s' parent).map (g.uid, ·)) := by
    have type := h.type?_related hfg parent
    generalize f.type? s parent = t at type
    generalize g.type? s' parent = t' at type
    cases type with
    | none => exact .none
    | some type => exact .some ⟨h.uid f g hfg, type⟩
  exact OrderedMap.related_ofList (List.rel_filterMap entry hfs)

theorem visitAll_of_each {parent : String} {fs gs : List Field}
    (each : ∀ f ∈ fs, ∀ g, R f g → ∀ b b' : Build, b.Parallel T R b' →
      (f.visit s parent b).Parallel T R (g.visit s' parent b'))
    (hfs : List.Forall₂ R fs gs) {b b' : Build} (hb : b.Parallel T R b') :
    (visitAll s parent fs b).Parallel T R (visitAll s' parent gs b') := by
  induction hfs generalizing b b' with
  | nil => exact hb
  | @cons f g fs gs hfg _ ih =>
    obtain ⟨hf, hfs⟩ := List.forall_mem_cons.mp each
    rw [visitAll_cons, visitAll_cons]
    exact ih hfs (hf g hfg b b' hb)

theorem related_referenceDeclarations (T : String → String → Prop) (typePrefix : String)
    (targets : List String) : ∀ d ∈ referenceDeclarations typePrefix targets, d.Related T d := by
  intro d hd
  rw [referenceDeclarations, List.mem_append] at hd
  rcases hd with hd | hd
  · obtain ⟨n, -, rfl⟩ := List.mem_map.mp hd
    exact .text ..
  · split at hd
    · rw [List.mem_singleton.mp hd]
      exact .union ..
    · cases hd

theorem visit (h : InStep s s' T R) (hfg : R f g) (parent : String) {b b' : Build}
    (hb : b.Parallel T R b') : (f.visit s parent b).Parallel T R (g.visit s' parent b') := by
  induction f using Field.tree_induction generalizing g parent b b' with
  | step f ih =>
    have uid := h.uid f g hfg
    have kind := h.kind f g hfg
    have inside {fs gs : List Field} (hfs : fs ⊆ f.children) (each : List.Forall₂ R fs gs)
        (name : String) (node : Bool) {b b' : Build} (hb : b.Parallel T R b') :
        ((visitAll s name fs b).emit (.object name node (.fields (fieldMap s name fs)))).Parallel T R
          ((visitAll s' name gs b').emit (.object name node (.fields (fieldMap s' name gs)))) :=
      (visitAll_of_each (fun c hc _ hcd _ _ hb => ih c (hfs hc) hcd name hb) each hb).emit
        (.fields name node (h.fieldMap_related each name))
    obtain ⟨u, displayName, mandatory, multiple, k⟩ := f
    obtain ⟨u', displayName', mandatory', multiple', k'⟩ := g
    obtain rfl : u = u' := uid
    change FieldKind.Corresponds R k k' at kind
    cases kind with
    | scalar kind =>
      rw [Field.visit, Field.visit]
      exact hb
    | file =>
      rw [Field.visit, Field.visit, ← h.typePrefix]
      have found : FileField.Related R ⟨parent, ⟨u, displayName, mandatory, multiple, .file⟩⟩
          ⟨parent, ⟨u, displayName', mandatory', multiple', .file⟩⟩ := ⟨rfl, hfg, rfl⟩
      exact (hb.addFile found).emit (.text ..)
    | @group schema schema' each =>
      have empty := eq_nil_iff_of_forall₂ each
      by_cases hne : schema = []
      · obtain rfl := hne
        obtain rfl := empty.mp rfl
        rw [Field.visit, Field.visit]
        exact hb.report ..
      · rw [Field.visit_group s parent u displayName mandatory multiple b hne,
          Field.visit_group s' parent u displayName' mandatory' multiple' b' (mt empty.mpr hne)]
        exact inside (List.Subset.refl schema) each (objectName parent u) true hb
    | @globalField definition schema schema' each =>
      have empty := eq_nil_iff_of_forall₂ each
      by_cases hne : schema = []
      · obtain rfl := hne
        obtain rfl := empty.mp rfl
        rw [Field.visit, Field.visit]
        exact hb.report ..
      · rw [Field.visit_globalField s parent u displayName mandatory multiple b definition hne,
          Field.visit_globalField s' parent u displayName' mandatory' multiple' b' definition
            (mt empty.mpr hne), ← h.separateGlobals, ← hb.registry, ← h.globalName_eq]
        have used := hb.use definition parent
        split
        · exact used
        · exact inside (List.Subset.refl schema) each _ true used
    | @blocks variants variants' empty each =>
      by_cases hne : variants = []
      · obtain rfl := hne
        obtain rfl := empty.mp rfl
        rw [Field.visit, Field.visit]
        exact hb.report ..
      · rw [Field.visit_blocks s parent u displayName mandatory multiple b hne,
          Field.visit_blocks s' parent u displayName' mandatory' multiple' b' (mt empty.mpr hne)]
        exact inside (mergedSchema_subset variants) each (objectName parent u) false hb
    | reference targets =>
      rw [Field.visit, Field.visit, ← h.typePrefix]
      split
      · exact hb.report ..
      · exact (hb.emitAll (related_referenceDeclarations T s.typePrefix _)).addReference _
    | unknown tag =>
      rw [Field.visit, Field.visit]
      exact hb.report ..

theorem visitAll (h : InStep s s' T R) {fs gs : List Field} (hfs : List.Forall₂ R fs gs)
    (parent : String) {b b' : Build} (hb : b.Parallel T R b') :
    (ContentSdl.visitAll s parent fs b).Parallel T R (ContentSdl.visitAll s' parent gs b') :=
  visitAll_of_each (fun _ _ _ hfg _ _ hb => h.visit hfg parent hb) hfs hb

end InStep

/-- Results of builds that differ in types and fields only. -/
structure Built.Parallel (T : String → String → Prop) (R : Field → Field → Prop) (b b' : Built) :
    Prop where
  fields : b.fields.Related (FieldType.Related T) b'.fields
  declarations : List.Forall₂ (Declaration.Related T) b.declarations b'.declarations
  references : b.references = b'.references
  files : List.Forall₂ (FileField.Related R) b.files b'.files
  log : b.log = b'.log

theorem Built.Parallel.eq {R : Field → Field → Prop} (hR : ∀ f f', R f f' → f.kind = .file → f = f')
    {b b' : Built} (h : b.Parallel (· = ·) R b') : b = b' := by
  have fields : b.fields = b'.fields := OrderedMap.Related.eq (fun _ _ ht => ht.eq) h.fields
  have declarations := Declaration.eq_of_related h.declarations
  have files := FileField.eq_of_related hR h.files
  obtain ⟨_, _, _, _, _⟩ := b
  obtain ⟨_, _, _, _, _⟩ := b'
  rw [Built.mk.injEq]
  exact ⟨fields, declarations, h.references, files, h.log⟩

/-- Builds of corresponding fields on one registry leave one registry. -/
theorem InStep.build {s s' : Style} {T : String → String → Prop} {R : Field → Field → Prop}
    (h : InStep s s' T R) {fs gs : List Field} (hfs : List.Forall₂ R fs gs) (r : Registry)
    (parent : String) :
    ((Run.mk s r).build fs parent).1.Parallel T R ((Run.mk s' r).build gs parent).1 ∧
      ((Run.mk s r).build fs parent).2.registry = ((Run.mk s' r).build gs parent).2.registry := by
  have walked := h.visitAll hfs parent (Build.Parallel.fresh T R r)
  refine ⟨⟨h.fieldMap_related hfs parent, walked.declarations, walked.references, walked.files,
    walked.log⟩, walked.registry⟩

end ContentSdl
