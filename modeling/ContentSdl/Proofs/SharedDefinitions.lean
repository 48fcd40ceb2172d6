import ContentSdl.Proofs.InsertionOrder
import ContentSdl.Proofs.Visits

/-! # A shared definition is walked once in a run -/

namespace ContentSdl

namespace Run

/-- The fields that the walks of builds in turn come to. -/
def trace (run : Run) : List (List Field × String) → List Visit
  | [] => []
  | call :: calls =>
    traceOf run.style call.2 call.1 { registry := run.registry } ++
      (run.build call.1 call.2).2.trace calls

/-- The global fields of a definition that the walks come to, those without a schema left out. -/
def reached (run : Run) (calls : List (List Field × String)) (definition : String) : List Visit :=
  (run.trace calls).filter (·.definition? = some definition)

theorem uses_trace (run : Run) (calls : List (List Field × String)) :
    Event.uses (eventsOfAll run.style run.registry.definitions calls) =
      Visit.uses (run.trace calls) := by
  induction calls generalizing run with
  | nil => rfl
  | cons call calls ih =>
    have head := traces_traceOf (s := run.style) call.1 call.2 { registry := run.registry }
    have tail := ih (run.build call.1 call.2).2
    have used : (run.build call.1 call.2).2.registry.definitions = _ :=
      (run.follows_build call.1 call.2).definitions
    rw [used] at tail
    rw [eventsOfAll, Event.uses_append, trace, Visit.uses_append, ← tail, ← head.uses]
    rfl

theorem threads_trace (run : Run) (calls : List (List Field × String)) :
    Threads run.registry (run.trace calls) := by
  induction calls generalizing run with
  | nil => trivial
  | cons call calls ih =>
    have head := traces_traceOf (s := run.style) call.1 call.2 { registry := run.registry }
    have left := (run.follows_build call.1 call.2).globals
    rw [head.uses] at left
    exact head.threads.append ((ih (run.build call.1 call.2).2).congr left)

end Run

/-- A definition is known to a visit if an earlier one uses it. -/
theorem Threads.has_iff {before after : List Visit} {v : Visit}
    (h : Threads {} (before ++ v :: after)) (definition : String) :
    v.before.registry.has definition = true ↔ ∃ u ∈ before, u.definition? = some definition := by
  have known : v.before.registry.definitions =
      (Registry.recordAll {} (Visit.uses before)).definitions :=
    congrArg (fun g => g.keys.toFinset) h.globals_before
  rw [← Registry.mem_definitions, known, Registry.definitions_recordAll, Visit.map_fst_uses,
    Finset.mem_union, List.mem_toFinset, List.mem_filterMap]
  simp [Registry.definitions]

namespace Visit

variable {s : Style} {definition : String} {v : Visit}

theorem exists_schema (h : v.definition? = some definition) :
    ∃ schema, v.field.kind = .globalField definition schema ∧ schema ≠ [] := by
  rw [definition?] at h
  split at h
  · rename_i other schema kind
    obtain ⟨hne, heq⟩ := Option.ite_none_left_eq_some.mp h
    exact ⟨schema, Option.some.inj heq ▸ kind, hne⟩
  · cases h

/-- The schema of a global field is walked for the type of its definition, which is declared after
it. -/
structure Enters (s : Style) (definition : String) (v : Visit) : Prop where
  trace : v.field.trace s v.parent v.before =
    v :: traceOf s definition v.field.inner (v.before.use definition v.parent)
  visit : v.field.visit s v.parent v.before =
    (visitAll s definition v.field.inner (v.before.use definition v.parent)).emit
      (.object definition true (.fields (fieldMap s definition v.field.inner)))

/-- A global field is used, and its schema is not walked. -/
structure Passes (s : Style) (definition : String) (v : Visit) : Prop where
  trace : v.field.trace s v.parent v.before = [v]
  visit : v.field.visit s v.parent v.before = v.before.use definition v.parent

theorem enters (on : s.options.separateGlobals = true) (h : v.definition? = some definition)
    (new : v.before.registry.has definition = false) : v.Enters s definition := by
  obtain ⟨schema, kind, hne⟩ := exists_schema h
  obtain ⟨parent, ⟨uid, displayName, mandatory, multiple, _⟩, b⟩ := v
  subst kind
  constructor
  · rw [Field.trace, Field.below?]
    simp [hne, new, globalName, on]
  · rw [Field.visit_globalField s parent uid displayName mandatory multiple b definition hne]
    simp [new, globalName, on, Field.inner]

theorem passes (on : s.options.separateGlobals = true) (h : v.definition? = some definition)
    (known : v.before.registry.has definition = true) : v.Passes s definition := by
  obtain ⟨schema, kind, hne⟩ := exists_schema h
  obtain ⟨parent, ⟨uid, displayName, mandatory, multiple, _⟩, b⟩ := v
  subst kind
  constructor
  · rw [Field.trace, Field.below?]
    simp [known, on]
  · rw [Field.visit_globalField s parent uid displayName mandatory multiple b definition hne]
    simp [known, on]

theorem type?_of_definition? (on : s.options.separateGlobals = true)
    (h : v.definition? = some definition) : v.field.type? s v.parent =
      some (.named (s.options.wrap definition v.field.multiple v.field.mandatory)) := by
  obtain ⟨schema, kind, hne⟩ := exists_schema h
  rw [Field.type?, kind]
  simp [hne, globalName, on]

end Visit

namespace Run

/-- The walks of a fresh run enter a definition where they first come to it, also if they come to it
again inside it. -/
theorem enters_of_reached {s : Style} (on : s.options.separateGlobals = true)
    (calls : List (List Field × String)) {definition : String} {first : Visit} {later : List Visit}
    (h : (Run.mk s {}).reached calls definition = first :: later) :
    first.Enters s definition ∧ ∀ v ∈ later, v.Passes s definition := by
  obtain ⟨before, after, trace, none, hfirst, rfl⟩ := List.filter_eq_cons_iff.mp h
  have threads := (Run.mk s {}).threads_trace calls
  have uses : first.definition? = some definition := by simpa using hfirst
  rw [trace] at threads
  constructor
  · apply Visit.enters on uses
    rw [← Bool.not_eq_true, threads.has_iff]
    rintro ⟨u, hu, hd⟩
    exact none u hu (by simpa using hd)
  · intro v hv
    obtain ⟨hmem, hd⟩ := List.mem_filter.mp hv
    -- The first one is among those before, wherever it stands: around this one or beside it.
    obtain ⟨between, rest, rfl⟩ := List.append_of_mem hmem
    have split : before ++ first :: (between ++ v :: rest) =
        (before ++ first :: between) ++ v :: rest := by simp
    rw [split] at threads
    apply Visit.passes on (by simpa using hd)
    exact (threads.has_iff definition).mpr ⟨first, by simp, uses⟩

/-- The registry lists the definitions by their first uses, each with the parents of all its fields. -/
theorem entries_buildAll (s : Style) (calls : List (List Field × String)) :
    ((Run.mk s {}).buildAll calls).2.registry.globals.entries =
      (distinct (((Run.mk s {}).trace calls).filterMap Visit.definition?)).map
        fun definition => (definition, ((Run.mk s {}).reached calls definition).map Visit.parent) := by
  have globals : ((Run.mk s {}).buildAll calls).2.registry.globals =
      (Registry.recordAll {} (Visit.uses ((Run.mk s {}).trace calls))).globals := by
    rw [← uses_trace]
    exact ((Run.mk s {}).follows_buildAll calls).globals
  rw [globals, Registry.entries_recordAll, Visit.map_fst_uses]
  simp only [Visit.map_snd_uses]
  rfl

/-- In builds on a fresh run with types for definitions, only the first field of a definition that is
reached has its schema walked, under the name of the definition. All of them have that type, and the
registry lists each definition by its first use, with the parents of all fields that use it. No two
declarations have its name. -/
theorem walked_once (s : Style) (on : s.options.separateGlobals = true)
    (calls : List (List Field × String)) :
    let (builts, run) := (Run.mk s {}).buildAll calls
    let trace := (Run.mk s {}).trace calls
    let reached := (Run.mk s {}).reached calls
    let ds := builts.flatMap Built.declarations
    (∀ definition first later, reached definition = first :: later →
      first.Enters s definition ∧ ∀ v ∈ later, v.Passes s definition) ∧
    (∀ definition, ∀ v ∈ reached definition, v.field.type? s v.parent =
      some (.named (s.options.wrap definition v.field.multiple v.field.mandatory))) ∧
    run.registry.globals.entries = (distinct (trace.filterMap Visit.definition?)).map
      (fun definition => (definition, (reached definition).map Visit.parent)) ∧
    builts.flatMap Built.types = ds.map Declaration.render ∧
    ∀ definition, (ds.map Declaration.name).count definition ≤ 1 := by
  refine ⟨fun _ _ _ h => enters_of_reached on calls h, ?_, entries_buildAll s calls,
    (List.map_flatMap ..).symm, ?_⟩
  · intro definition v hv
    have uses := (List.mem_filter.mp hv).2
    exact Visit.type?_of_definition? on (by simpa using uses)
  · intro definition
    exact List.nodup_iff_count_le_one.mp (nodup_names_buildAll (Run.mk s {}) calls) definition

/-- A definition that is nested in itself, and used again by a second build. -/
theorem walked_once_seo :
    let s : Style := ⟨"CS", { separateGlobals := true }⟩
    let again : Field := .make "b" (.globalField "seo" [.make "image" .file])
    let seo : Field := .make "a" (.globalField "seo" [again, .make "title" (.scalar .text)])
    let calls := [([seo], "CS_page"), ([.make "hero" (.group [again])], "CS_post")]
    let (builts, run) := (Run.mk s {}).buildAll calls
    let reached := (Run.mk s {}).reached calls "seo"
    run.registry.globals.entries = [("seo", ["CS_page", "seo", "CS_post_hero"])] ∧
      reached.map Visit.parent = ["CS_page", "seo", "CS_post_hero"] ∧
      (∃ first later, reached = first :: later ∧
        first.Enters s "seo" ∧ ∀ v ∈ later, v.Passes s "seo") ∧
      ((builts.flatMap Built.declarations).map Declaration.name).count "seo" ≤ 1 := by
  intro s again seo calls
  obtain ⟨walked, -, -, -, count⟩ := walked_once s rfl calls
  have users : ((Run.mk s {}).buildAll calls).2.registry.globals.entries =
      [("seo", ["CS_page", "seo", "CS_post_hero"])] := by decide
  have parents : ((Run.mk s {}).reached calls "seo").map Visit.parent =
      ["CS_page", "seo", "CS_post_hero"] := by
    have listed : ("seo", ["CS_page", "seo", "CS_post_hero"]) ∈
        ((Run.mk s {}).buildAll calls).2.registry.globals.entries := by
      rw [users]
      exact List.mem_singleton_self _
    rw [entries_buildAll] at listed
    obtain ⟨definition, -, he⟩ := List.mem_map.mp listed
    obtain ⟨rfl, parents⟩ := Prod.mk.inj he
    exact parents
  obtain ⟨first, later, reached, -, -⟩ := List.map_eq_cons_iff.mp parents
  exact ⟨users, parents, ⟨first, later, reached, walked "seo" first later reached⟩, count "seo"⟩

end Run

end ContentSdl
