import ContentSdl.Proofs.Events

/-! # A build follows the events of its fields

What single steps do to a build is told by their events, so what visits and walks do is, too. -/

namespace ContentSdl

open Event

namespace Registry

/-- The global field definitions that have users. -/
def definitions (r : Registry) : Finset String := r.globals.keys.toFinset

/-- Records uses one after another, each a definition with its user. -/
def recordAll (r : Registry) (us : List (String × String)) : Registry :=
  us.foldl (fun r u => r.record u.1 u.2) r

theorem mem_definitions (r : Registry) (definition : String) :
    definition ∈ r.definitions ↔ r.has definition = true := by
  rw [definitions, List.mem_toFinset, has, users?, OrderedMap.isSome_get?]

theorem definitions_record (r : Registry) (definition user : String) :
    (r.record definition user).definitions = insert definition r.definitions := by
  ext other
  rw [mem_definitions, Finset.mem_insert, mem_definitions, has, users?_record]
  by_cases h : other = definition
  · simp [h]
  · simp [h, has]

theorem definitions_recordAll (r : Registry) (us : List (String × String)) :
    (r.recordAll us).definitions = r.definitions ∪ (us.map (·.1)).toFinset := by
  induction us generalizing r with
  | nil => simp [recordAll]
  | cons u us ih =>
    have h := ih (r.record u.1 u.2)
    rw [definitions_record] at h
    rw [List.map_cons, List.toFinset_cons, Finset.union_insert, ← Finset.insert_union]
    exact h

/-- Which users come of uses does not depend on what is declared. -/
theorem globals_recordAll {r r' : Registry} (h : r.globals = r'.globals)
    (us : List (String × String)) : (r.recordAll us).globals = (r'.recordAll us).globals := by
  induction us generalizing r r' with
  | nil => exact h
  | cons u us ih =>
    apply ih
    simp only [record, users?, h]

theorem recordAll_append (r : Registry) (us vs : List (String × String)) :
    r.recordAll (us ++ vs) = (r.recordAll us).recordAll vs := List.foldl_append

end Registry

/-- The emissions that come to a declaration where some names are taken: the first of every other
name. -/
def made (s : Style) (taken : List String) (es : List Emission) : List Emission :=
  firstFrom (Emission.name s) taken es

theorem made_append (s : Style) (taken : List String) (es es' : List Emission) :
    made s taken (es ++ es') = made s taken es ++
      made s (((made s taken es).map (Emission.name s)).reverse ++ taken) es' :=
  firstFrom_append (Emission.name s) taken es es'

theorem mem_names_made (s : Style) (taken : List String) (es : List Emission) (n : String) :
    n ∈ (made s taken es).map (Emission.name s) ↔ n ∉ taken ∧ n ∈ es.map (Emission.name s) :=
  mem_firstFrom_keys (Emission.name s) taken es n

namespace Event

theorem files_append (evs evs' : List Event) : files (evs ++ evs') = files evs ++ files evs' :=
  List.filterMap_append

theorem uses_append (evs evs' : List Event) : uses (evs ++ evs') = uses evs ++ uses evs' :=
  List.filterMap_append

theorem emissions_append (evs evs' : List Event) :
    emissions (evs ++ evs') = emissions evs ++ emissions evs' :=
  List.filterMap_append

theorem references_append (evs evs' : List Event) :
    references (evs ++ evs') = references evs ++ references evs' :=
  List.filterMap_append

@[simp] theorem emissions_map_emit (es : List Emission) : emissions (es.map .emit) = es := by
  simp [emissions, List.filterMap_map]

@[simp] theorem files_map_emit (es : List Emission) : files (es.map .emit) = [] := by
  simp [files, List.filterMap_map]

@[simp] theorem uses_map_emit (es : List Emission) : uses (es.map .emit) = [] := by
  simp [uses, List.filterMap_map]

@[simp] theorem references_map_emit (es : List Emission) : references (es.map .emit) = [] := by
  simp [references, List.filterMap_map]

end Event

namespace Build

/-- One build is another one after some events, the log aside. -/
structure Follows (s : Style) (evs : List Event) (b b' : Build) : Prop where
  declared : b'.registry.declared =
    ((made s b.registry.declared (emissions evs)).map (Emission.name s)).reverse ++
      b.registry.declared
  globals : b'.registry.globals = (b.registry.recordAll (uses evs)).globals
  declarations : b'.declarations =
    b.declarations ++ (made s b.registry.declared (emissions evs)).map (Emission.declaration s)
  references : b'.references = b.references ++ Event.references evs
  files : b'.files = b.files ++ Event.files evs

namespace Follows

variable {s : Style} {evs evs' : List Event} {b b' b'' : Build}

theorem refl (s : Style) (b : Build) : Follows s [] b b := by
  constructor <;> simp [emissions, uses, Event.references, Event.files, made, firstFrom,
    Registry.recordAll]

theorem trans (h : Follows s evs b b') (h' : Follows s evs' b' b'') :
    Follows s (evs ++ evs') b b'' where
  declared := by
    rw [h'.declared, h.declared, emissions_append, made_append]
    simp
  globals := by
    rw [h'.globals, uses_append, Registry.recordAll_append]
    exact Registry.globals_recordAll h.globals _
  declarations := by
    rw [h'.declarations, h.declarations, h.declared, emissions_append, made_append]
    simp
  references := by
    rw [h'.references, h.references, references_append, List.append_assoc]
  files := by
    rw [h'.files, h.files, files_append, List.append_assoc]

theorem mem_declared (h : Follows s evs b b') (n : String) :
    n ∈ b'.registry.declared ↔
      n ∈ b.registry.declared ∨ n ∈ (emissions evs).map (Emission.name s) := by
  rw [h.declared, List.mem_append, List.mem_reverse, mem_names_made]
  by_cases hn : n ∈ b.registry.declared
  · simp [hn]
  · simp [hn]

/-- The definitions with users are those known of before and those that the events use. -/
theorem definitions (h : Follows s evs b b') :
    b'.registry.definitions = usedAfter b.registry.definitions evs := by
  rw [usedAfter, ← Registry.definitions_recordAll]
  exact congrArg (fun g => g.keys.toFinset) h.globals

end Follows

theorem follows_emit (s : Style) (e : Emission) (b : Build) :
    Follows s [.emit e] b (b.emit (e.declaration s)) := by
  by_cases h : (e.declaration s).name ∈ b.registry.declared
  · rw [emit_of_declared h]
    constructor <;> simp [emissions, uses, Event.references, Event.files, made, firstFrom, h,
      Registry.recordAll, Emission.name]
  · rw [emit_of_new h]
    constructor <;> simp [emissions, uses, Event.references, Event.files, made, firstFrom, h,
      Registry.recordAll, report, Emission.name]

theorem follows_addFile (s : Style) (f : FileField) (b : Build) :
    Follows s [.file f] b (b.addFile f) := by
  constructor <;> simp [emissions, uses, Event.references, Event.files, made, firstFrom,
    Registry.recordAll, addFile]

theorem follows_addReference (s : Style) (r : Reference) (b : Build) :
    Follows s [.reference r] b (b.addReference r) := by
  constructor <;> simp [emissions, uses, Event.references, Event.files, made, firstFrom,
    Registry.recordAll, addReference]

theorem follows_use (s : Style) (definition user : String) (b : Build) :
    Follows s [.use definition user] b (b.use definition user) := by
  constructor <;> simp [emissions, uses, Event.references, Event.files, made, firstFrom,
    Registry.recordAll, use, Registry.record]

theorem follows_report (s : Style) (level : LogLevel) (message : String) (b : Build) :
    Follows s [] b (b.report level message) := by
  constructor <;> simp [emissions, uses, Event.references, Event.files, made, firstFrom,
    Registry.recordAll, report]

theorem follows_emitAll (s : Style) (es : List Emission) (b : Build) :
    Follows s (es.map .emit) b (b.emitAll (es.map (Emission.declaration s))) := by
  induction es generalizing b with
  | nil => exact .refl s b
  | cons e es ih => exact (follows_emit s e b).trans (ih _)

/-- If visits of the fields follow their events one by one, so do they in a row. -/
theorem follows_visitAll_of_each {s : Style} {parent : String} {fs : List Field}
    (each : ∀ f ∈ fs, ∀ b : Build,
      Follows s (f.events s parent b.registry.definitions) b (f.visit s parent b)) (b : Build) :
    Follows s (eventsOf s parent b.registry.definitions fs) b (visitAll s parent fs b) := by
  induction fs generalizing b with
  | nil =>
    rw [eventsOf_nil]
    exact .refl s b
  | cons f fs ih =>
    obtain ⟨hf, hfs⟩ := List.forall_mem_cons.mp each
    have head := hf b
    have tail := ih hfs (f.visit s parent b)
    rw [head.definitions] at tail
    rw [eventsOf_cons, visitAll_cons]
    exact head.trans tail

/-- The declaration of an object follows the visits of its fields. -/
private theorem follows_object {s : Style} {name : String} {schema : List Field} {b : Build}
    (node : Bool) (h : Follows s (eventsOf s name b.registry.definitions schema) b
      (visitAll s name schema b)) :
    Follows s (eventsOf s name b.registry.definitions schema ++ [.emit (.object name node schema)]) b
      ((visitAll s name schema b).emit (.object name node (.fields (fieldMap s name schema)))) :=
  h.trans (follows_emit s (.object name node schema) _)

private theorem referenceDeclarations_eq (s : Style) (targets : List String) :
    referenceDeclarations s.typePrefix targets =
      (Emission.ofTargets targets).map (Emission.declaration s) := by
  rw [referenceDeclarations, Emission.ofTargets]
  split <;> simp [Function.comp_def, Emission.declaration]

theorem follows_visit (s : Style) (f : Field) (parent : String) (b : Build) :
    Follows s (f.events s parent b.registry.definitions) b (f.visit s parent b) := by
  induction f using Field.tree_induction generalizing parent b with
  | step f ih =>
    obtain ⟨uid, displayName, mandatory, multiple, kind⟩ := f
    cases kind with
    | scalar kind =>
      rw [Field.events, Field.visit]
      exact .refl s b
    | file =>
      rw [Field.events, Field.visit]
      exact (follows_addFile s _ b).trans (follows_emit s .assets _)
    | group schema =>
      by_cases h : schema = []
      · subst h
        rw [Field.events, Field.visit]
        exact follows_report ..
      · rw [Field.visit_group s parent uid displayName mandatory multiple b h, Field.events, if_neg h]
        exact follows_object true
          (follows_visitAll_of_each (fun g hg b => ih g hg (objectName parent uid) b) b)
    | globalField definition schema =>
      by_cases h : schema = []
      · subst h
        rw [Field.events, Field.visit]
        exact follows_report ..
      · rw [Field.visit_globalField s parent uid displayName mandatory multiple b definition h,
          Field.events, if_neg h]
        have head := follows_use s definition parent b
        have known : (s.options.separateGlobals && b.registry.has definition) = true ↔
            s.options.separateGlobals = true ∧ definition ∈ b.registry.definitions := by
          rw [Bool.and_eq_true, Registry.mem_definitions]
        by_cases hu : s.options.separateGlobals = true ∧ definition ∈ b.registry.definitions
        · rw [if_pos hu, if_pos (known.mpr hu)]
          exact head
        · rw [if_neg hu, if_neg (mt known.mp hu)]
          have deeper := follows_visitAll_of_each
            (fun g hg b => ih g hg (globalName s.options parent uid definition) b)
            (b.use definition parent)
          have hd : (b.use definition parent).registry.definitions =
              insert definition b.registry.definitions := Registry.definitions_record ..
          have whole := head.trans (follows_object true deeper)
          rw [hd] at whole
          exact whole
    | blocks variants =>
      by_cases h : variants = []
      · subst h
        rw [Field.events, Field.visit]
        exact follows_report ..
      · rw [Field.visit_blocks s parent uid displayName mandatory multiple b h, Field.events, if_neg h]
        have each (g : Field) (hg : g ∈ mergedSchema variants) (b : Build) :=
          ih g (mergedSchema_subset variants hg) (objectName parent uid) b
        exact follows_object false (follows_visitAll_of_each each b)
    | reference targets =>
      by_cases h : targets = []
      · subst h
        rw [Field.events, Field.visit]
        exact follows_report ..
      · rw [Field.events, if_neg h, Field.visit]
        simp only [List.isEmpty_iff, h, if_false]
        rw [referenceDeclarations_eq]
        exact (follows_emitAll s _ b).trans (follows_addReference s _ _)
    | unknown tag =>
      rw [Field.events, Field.visit]
      exact follows_report ..

theorem follows_visitAll (s : Style) (fs : List Field) (parent : String) (b : Build) :
    Follows s (eventsOf s parent b.registry.definitions fs) b (visitAll s parent fs b) :=
  follows_visitAll_of_each (fun f _ b => follows_visit s f parent b) b

end Build

namespace Run

/-- What a build leaves behind follows the events of its fields. -/
theorem follows_build (run : Run) (fs : List Field) (parent : String) :
    Build.Follows run.style (eventsOf run.style parent run.registry.definitions fs)
      { registry := run.registry }
      (visitAll run.style parent fs { registry := run.registry }) :=
  Build.follows_visitAll run.style fs parent { registry := run.registry }

theorem declarations_build (run : Run) (fs : List Field) (parent : String) :
    (run.build fs parent).1.declarations =
      (made run.style run.registry.declared
        (emissions (eventsOf run.style parent run.registry.definitions fs))).map
          (Emission.declaration run.style) :=
  (run.follows_build fs parent).declarations

theorem references_build (run : Run) (fs : List Field) (parent : String) :
    (run.build fs parent).1.references =
      references (eventsOf run.style parent run.registry.definitions fs) :=
  (run.follows_build fs parent).references

theorem files_build (run : Run) (fs : List Field) (parent : String) :
    (run.build fs parent).1.files =
      files (eventsOf run.style parent run.registry.definitions fs) :=
  (run.follows_build fs parent).files

/-- A build returns the references and files of its events in order, and the first emission of each
name that was not declared; its registry adds the names of all emissions, and the uses in order. -/
theorem build_eq_events (run : Run) (fs : List Field) (parent : String) :
    let evs := eventsOf run.style parent run.registry.definitions fs
    let es := made run.style run.registry.declared (emissions evs)
    let (built, run') := run.build fs parent
    built.references = references evs ∧
      built.files = files evs ∧
      built.declarations = es.map (Emission.declaration run.style) ∧
      built.types = es.map (fun e => (e.declaration run.style).render) ∧
      run'.style = run.style ∧
      (∀ n, n ∈ run'.registry.declared ↔
        n ∈ run.registry.declared ∨ n ∈ (emissions evs).map (Emission.name run.style)) ∧
      run'.registry.globals = (run.registry.recordAll (uses evs)).globals := by
  have h := run.follows_build fs parent
  have declarations := run.declarations_build fs parent
  have types := congrArg (List.map Declaration.render) declarations
  rw [List.map_map] at types
  exact ⟨run.references_build fs parent, run.files_build fs parent, declarations, types, rfl,
    h.mem_declared, h.globals⟩

end Run

end ContentSdl
