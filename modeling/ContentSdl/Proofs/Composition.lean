import ContentSdl.Proofs.BuildSequence
import ContentSdl.Proofs.InsertionOrder

/-! # Walks compose, since none reads what earlier ones have gathered -/

namespace ContentSdl

namespace Build

/-- A build whose lists go on where those of an earlier one end. -/
def after (b c : Build) : Build where
  registry := c.registry
  declarations := b.declarations ++ c.declarations
  references := b.references ++ c.references
  files := b.files ++ c.files
  log := b.log ++ c.log

section

variable (b c : Build)

@[simp] theorem registry_after : (b.after c).registry = c.registry := rfl

theorem after_fresh : b.after { registry := b.registry } = b := by simp [after]

theorem after_after (d : Build) : (b.after c).after d = b.after (c.after d) := by simp [after]

theorem report_after (level : LogLevel) (message : String) :
    (b.after c).report level message = b.after (c.report level message) := by
  simp [report, after]

theorem addReference_after (r : Reference) :
    (b.after c).addReference r = b.after (c.addReference r) := by
  simp [addReference, after]

theorem addFile_after (f : FileField) : (b.after c).addFile f = b.after (c.addFile f) := by
  simp [addFile, after]

theorem use_after (definition user : String) :
    (b.after c).use definition user = b.after (c.use definition user) := rfl

theorem emit_after (d : Declaration) : (b.after c).emit d = b.after (c.emit d) := by
  by_cases h : d.name ∈ c.registry.declared
  · rw [emit_of_declared h, emit_of_declared (b := b.after c) h]
  · rw [emit_of_new h, emit_of_new (b := b.after c) h]
    simp [report, after]

theorem emitAll_after (ds : List Declaration) :
    (b.after c).emitAll ds = b.after (c.emitAll ds) := by
  induction ds generalizing c with
  | nil => rfl
  | cons d ds ih => exact (congrArg (emitAll ds) (b.emit_after c d)).trans (ih (c.emit d))

end

end Build

open Build

private theorem visitAll_after_of_each {s : Style} {parent : String} {fs : List Field}
    (each : ∀ f ∈ fs, ∀ b c, f.visit s parent (after b c) = b.after (f.visit s parent c))
    (b c : Build) : visitAll s parent fs (b.after c) = b.after (visitAll s parent fs c) := by
  induction fs generalizing c with
  | nil => rfl
  | cons f fs ih =>
    obtain ⟨hf, hfs⟩ := List.forall_mem_cons.mp each
    rw [visitAll_cons, visitAll_cons, hf]
    exact ih hfs (f.visit s parent c)

theorem Field.visit_after (s : Style) (f : Field) (parent : String) (b c : Build) :
    f.visit s parent (b.after c) = b.after (f.visit s parent c) := by
  induction f using Field.tree_induction generalizing parent b c with
  | step f ih =>
    have inside {fs : List Field} (hfs : fs ⊆ f.children) (name : String) (c : Build) :
        visitAll s name fs (b.after c) = b.after (visitAll s name fs c) :=
      visitAll_after_of_each (fun g hg b c => ih g (hfs hg) name b c) b c
    obtain ⟨uid, displayName, mandatory, multiple, kind⟩ := f
    cases kind with
    | scalar kind =>
      rw [visit]
      rfl
    | file =>
      rw [visit]
      simp only [addFile_after, emit_after]
    | group schema =>
      by_cases h : schema = []
      · subst h
        rw [visit]
        exact report_after ..
      · rw [visit_group s parent uid displayName mandatory multiple _ h,
          visit_group s parent uid displayName mandatory multiple _ h,
          inside (List.Subset.refl schema), emit_after]
    | globalField definition schema =>
      by_cases h : schema = []
      · subst h
        rw [visit]
        exact report_after ..
      · rw [visit_globalField s parent uid displayName mandatory multiple _ definition h,
          visit_globalField s parent uid displayName mandatory multiple _ definition h,
          use_after, inside (List.Subset.refl schema), emit_after, registry_after]
        -- Both sides ask the registry of `c` whether the definition is known.
        split <;> rfl
    | blocks variants =>
      by_cases h : variants = []
      · subst h
        rw [visit]
        exact report_after ..
      · rw [visit_blocks s parent uid displayName mandatory multiple _ h,
          visit_blocks s parent uid displayName mandatory multiple _ h,
          inside (mergedSchema_subset variants), emit_after]
    | reference targets =>
      rw [visit]
      split
      · exact report_after ..
      · simp only [emitAll_after, addReference_after]
    | unknown tag =>
      rw [visit]
      exact report_after ..

theorem visitAll_after (s : Style) (fs : List Field) (parent : String) (b c : Build) :
    visitAll s parent fs (b.after c) = b.after (visitAll s parent fs c) :=
  visitAll_after_of_each (fun f _ b c => f.visit_after s parent b c) b c

/-- A walk adds to a build what it gathers from the registry alone. -/
theorem visitAll_eq_after (s : Style) (fs : List Field) (parent : String) (b : Build) :
    visitAll s parent fs b = b.after (visitAll s parent fs { registry := b.registry }) := by
  rw [← visitAll_after, after_fresh]

namespace Build

/-- Walks one after another; each returns the types of its fields. -/
def walkAll (s : Style) : List (List Field × String) → Build → List FieldMap × Build
  | [], b => ([], b)
  | call :: calls, b =>
    let first := b.walk s call.1 call.2
    let rest := walkAll s calls first.2
    (first.1 :: rest.1, rest.2)

/-- What builds gathered in all, on a run that they left with a registry. -/
def gathered (r : Registry) (builts : List Built) : Build :=
  { total r builts with log := builts.flatMap Built.log }

theorem gathered_cons (r : Registry) (built : Built) (builts : List Built) :
    gathered r (built :: builts) =
      after ⟨r, built.declarations, built.references, built.files, built.log⟩
        (gathered r builts) := by
  simp [gathered, total, after]

theorem walkAll_eq (s : Style) (calls : List (List Field × String)) (b : Build) :
    walkAll s calls b =
      (((Run.mk s b.registry).buildAll calls).1.map Built.fields,
        b.after (gathered ((Run.mk s b.registry).buildAll calls).2.registry
          ((Run.mk s b.registry).buildAll calls).1)) := by
  induction calls generalizing b with
  | nil => simp [walkAll, Run.buildAll, gathered, total, after]
  | cons call calls ih =>
    let c := visitAll s call.2 call.1 { registry := b.registry }
    have first : (b.walk s call.1 call.2).2 = b.after c := visitAll_eq_after s call.1 call.2 b
    have rest := ih (b.after c)
    rw [after_after] at rest
    rw [walkAll, first, rest]
    simp only [Run.buildAll, List.map_cons, gathered_cons]
    rfl

end Build

/-- What came of one build and then of another, as one. -/
structure Built.Joins (first second whole : Built) : Prop where
  types : whole.types = first.types ++ second.types
  references : whole.references = first.references ++ second.references
  files : whole.files = first.files ++ second.files
  log : whole.log = first.log ++ second.log
  fields : whole.fields = first.fields.insertAll second.fields.entries
  keys : whole.fields.keys = first.fields.keys ++ second.fields.keys.filter (· ∉ first.fields.keys)
  values : ∀ key, whole.fields.get? key = (second.fields.get? key).or (first.fields.get? key)

theorem fieldMap_append (s : Style) (parent : String) (fs gs : List Field) :
    fieldMap s parent (fs ++ gs) =
      (fieldMap s parent fs).insertAll (fieldMap s parent gs).entries := by
  rw [fieldMap, fieldEntries_append, fieldMap, fieldMap, OrderedMap.insertAll_entries_ofList,
    OrderedMap.ofList, OrderedMap.insertAll_append]
  rfl

namespace Run

theorem build_append (run : Run) (fs gs : List Field) (parent : String) :
    let first := run.build fs parent
    let second := first.2.build gs parent
    let whole := run.build (fs ++ gs) parent
    first.1.Joins second.1 whole.1 ∧ whole.2 = second.2 := by
  intro first second whole
  let c := visitAll run.style parent fs { registry := run.registry }
  have walked : visitAll run.style parent (fs ++ gs) { registry := run.registry } =
      c.after (visitAll run.style parent gs { registry := c.registry }) := by
    rw [visitAll_append, ← visitAll_eq_after]
  have declarations : whole.1.declarations = first.1.declarations ++ second.1.declarations :=
    congrArg Build.declarations walked
  have fields : whole.1.fields = first.1.fields.insertAll second.1.fields.entries :=
    fieldMap_append run.style parent fs gs
  constructor
  · constructor
    · rw [Built.types, declarations, List.map_append]
      rfl
    · exact congrArg Build.references walked
    · exact congrArg Build.files walked
    · exact congrArg Build.log walked
    · exact fields
    · rw [fields, OrderedMap.keys_insertAll_entries]
    · intro key
      rw [fields, OrderedMap.get?_insertAll_entries]
  · have registry := congrArg Build.registry walked
    exact congrArg (Run.mk run.style) registry

/-- Building two lists of fields as one gives what the two builds give one after the other: the lists of
the second follow those of the first, and its entries are inserted into the map of the first. Walks that
share their lists until all are done give the maps and the registry of separate ones, and their lists
in a row. -/
theorem walks_compose (run : Run) :
    (∀ fs gs parent,
      let first := run.build fs parent
      let second := first.2.build gs parent
      let whole := run.build (fs ++ gs) parent
      first.1.Joins second.1 whole.1 ∧ whole.2 = second.2) ∧
    ∀ calls fields,
      let apart := run.buildAll calls
      let together := Build.walkAll run.style calls { registry := run.registry }
      let built := together.2.finish fields
      together.1 = apart.1.map Built.fields ∧
        together.2.registry = apart.2.registry ∧
        built.fields = fields ∧
        built.types = apart.1.flatMap Built.types ∧
        built.references = apart.1.flatMap Built.references ∧
        built.files = apart.1.flatMap Built.files ∧
        built.log = apart.1.flatMap Built.log := by
  refine ⟨run.build_append, fun calls fields => ?_⟩
  intro apart together built
  have walked : together = (apart.1.map Built.fields,
      Build.after { registry := run.registry } (gathered apart.2.registry apart.1)) :=
    walkAll_eq run.style calls { registry := run.registry }
  have types : built.types = apart.1.flatMap Built.types := by
    have declarations : built.declarations = apart.1.flatMap Built.declarations :=
      congrArg (fun w => w.2.declarations) walked
    rw [Built.types, declarations, List.map_flatMap]
    rfl
  exact ⟨congrArg Prod.fst walked, congrArg (fun w => w.2.registry) walked, rfl, types,
    congrArg (fun w => w.2.references) walked, congrArg (fun w => w.2.files) walked,
    congrArg (fun w => w.2.log) walked⟩

end Run

end ContentSdl
