import ContentSdl.Proofs.BuildSequence
import ContentSdl.Proofs.WrappedTypes

/-! # The fields that a walk comes to -/

namespace ContentSdl

open Event

/-- A field that a walk comes to, the object type that it is for, and what has come of the build by
then. -/
structure Visit where
  parent : String
  field : Field
  before : Build

namespace Visit

/-- The definition that is used when a walk comes to a global field with a schema. -/
def definition? (v : Visit) : Option String :=
  match v.field.kind with
  | .globalField definition schema => if schema = [] then none else some definition
  | _ => none

/-- The use that is recorded then: the definition with its user. -/
def use? (v : Visit) : Option (String × String) := v.definition?.map (·, v.parent)

/-- The uses of visits in order. -/
def uses (vs : List Visit) : List (String × String) := vs.filterMap use?

@[simp] theorem uses_nil : uses [] = [] := rfl

theorem uses_cons (v : Visit) (vs : List Visit) : uses (v :: vs) = v.use?.toList ++ uses vs := by
  rw [uses, List.filterMap_cons]
  cases v.use? <;> rfl

theorem uses_append (vs ws : List Visit) : uses (vs ++ ws) = uses vs ++ uses ws :=
  List.filterMap_append

theorem map_fst_uses (vs : List Visit) : (uses vs).map (·.1) = vs.filterMap definition? := by
  rw [uses, List.map_filterMap]
  congr 1
  funext v
  rw [use?, Option.map_map]
  exact congrFun Option.map_id _

/-- The users of a definition are the parents of the visits that use it. -/
theorem map_snd_uses (vs : List Visit) (definition : String) :
    ((uses vs).filter (·.1 = definition)).map (·.2) =
      (vs.filter (·.definition? = some definition)).map parent := by
  induction vs with
  | nil => rfl
  | cons v vs ih =>
    rw [uses_cons, List.filter_append, List.map_append, ih, List.filter_cons, use?]
    cases v.definition? with
    | none => simp
    | some other => by_cases h : other = definition <;> simp [h]

end Visit

/-- Where a walk goes on inside a field, if it does: for which object type, and with what state. A
shared definition that is known is not walked again. -/
def Field.below? (s : Style) (parent : String) (f : Field) (b : Build) : Option (String × Build) :=
  match f.kind with
  | .group schema => if schema = [] then none else some (objectName parent f.uid, b)
  | .globalField definition schema =>
    if schema = [] ∨ (s.options.separateGlobals && b.registry.has definition) = true then none
    else some (globalName s.options parent f.uid definition, b.use definition parent)
  | .blocks variants => if variants = [] then none else some (objectName parent f.uid, b)
  | .scalar _ | .file | .reference _ | .unknown _ => none

theorem Field.sizeOf_inner_lt (f : Field) : sizeOf f.inner < sizeOf f := by
  obtain ⟨uid, displayName, mandatory, multiple, kind⟩ := f
  rw [Field.mk.sizeOf_spec]
  cases kind with
  | blocks variants =>
    have := sizeOf_mergedSchema_le variants
    simp [inner]; omega
  | scalar | file | group | globalField | reference | unknown => simp [inner]; try omega

mutual
/-- The fields that a walk comes to from a field on: that field first, then those inside it. -/
def Field.trace (s : Style) (parent : String) (f : Field) (b : Build) : List Visit :=
  ⟨parent, f, b⟩ ::
    match f.below? s parent b with
    | none => []
    | some (name, b) => traceOf s name f.inner b
termination_by sizeOf f
decreasing_by exact f.sizeOf_inner_lt

/-- The fields that a walk of fields comes to, each from the state that the earlier ones left. -/
def traceOf (s : Style) (parent : String) : List Field → Build → List Visit
  | [], _ => []
  | f :: fs, b => f.trace s parent b ++ traceOf s parent fs (f.visit s parent b)
termination_by fs => sizeOf fs
end

@[simp] theorem traceOf_nil (s : Style) (parent : String) (b : Build) :
    traceOf s parent [] b = [] := by
  rw [traceOf]

theorem traceOf_cons (s : Style) (parent : String) (f : Field) (fs : List Field) (b : Build) :
    traceOf s parent (f :: fs) b =
      f.trace s parent b ++ traceOf s parent fs (f.visit s parent b) := by
  rw [traceOf]

/-- Visits follow a registry if each finds the users that the earlier ones have left. -/
def Threads : Registry → List Visit → Prop
  | _, [] => True
  | r, v :: vs => v.before.registry.globals = r.globals ∧ Threads (r.recordAll v.use?.toList) vs

namespace Threads

variable {r r' : Registry} {vs ws : List Visit}

theorem congr (h : Threads r vs) (hr : r.globals = r'.globals) : Threads r' vs := by
  induction vs generalizing r r' with
  | nil => trivial
  | cons v vs ih => exact ⟨h.1.trans hr, ih h.2 (Registry.globals_recordAll hr _)⟩

theorem append (h : Threads r vs) (h' : Threads (r.recordAll (Visit.uses vs)) ws) :
    Threads r (vs ++ ws) := by
  induction vs generalizing r with
  | nil => exact h'
  | cons v vs ih =>
    rw [Visit.uses_cons, Registry.recordAll_append] at h'
    exact ⟨h.1, ih h.2 h'⟩

theorem globals_before {before after : List Visit} {v : Visit}
    (h : Threads r (before ++ v :: after)) :
    v.before.registry.globals = (r.recordAll (Visit.uses before)).globals := by
  induction before generalizing r with
  | nil => exact h.1
  | cons u before ih =>
    rw [Visit.uses_cons, Registry.recordAll_append]
    exact ih h.2

end Threads

/-- The visits of a walk make the uses of its events, one after another. -/
structure Traces (evs : List Event) (b : Build) (vs : List Visit) : Prop where
  uses : Event.uses evs = Visit.uses vs
  threads : Threads b.registry vs

section

variable {parent : String} {f : Field} {b b' : Build} {evs evs' : List Event} {vs : List Visit}

/-- A field is visited first, and then what is inside it. -/
private theorem Traces.visit (inside : Traces evs' b' vs)
    (huses : Event.uses evs = (Visit.use? ⟨parent, f, b⟩).toList ++ Event.uses evs')
    (hb : b'.registry = b.registry.recordAll (Visit.use? ⟨parent, f, b⟩).toList) :
    Traces evs b (⟨parent, f, b⟩ :: vs) where
  uses := by rw [huses, inside.uses, Visit.uses_cons]
  threads := ⟨rfl, hb ▸ inside.threads⟩

private theorem Traces.single (huses : Event.uses evs = (Visit.use? ⟨parent, f, b⟩).toList) :
    Traces evs b [⟨parent, f, b⟩] where
  uses := by rw [huses, Visit.uses_cons, Visit.uses_nil, List.append_nil]
  threads := ⟨rfl, trivial⟩

end

section

variable {s : Style}

private theorem traces_traceOf_of_each {parent : String} {fs : List Field}
    (each : ∀ f ∈ fs, ∀ b, Traces (f.events s parent b.registry.definitions) b (f.trace s parent b))
    (b : Build) :
    Traces (eventsOf s parent b.registry.definitions fs) b (traceOf s parent fs b) := by
  induction fs generalizing b with
  | nil =>
    rw [eventsOf_nil, traceOf_nil]
    exact ⟨rfl, trivial⟩
  | cons f fs ih =>
    obtain ⟨hf, hfs⟩ := List.forall_mem_cons.mp each
    have follows := Build.follows_visit s f parent b
    have head := hf b
    have tail := ih hfs (f.visit s parent b)
    have left : (f.visit s parent b).registry.globals =
        (b.registry.recordAll (Visit.uses (f.trace s parent b))).globals := by
      rw [follows.globals, head.uses]
    rw [follows.definitions] at tail
    rw [eventsOf_cons, traceOf_cons]
    constructor
    · rw [Event.uses_append, Visit.uses_append, head.uses, tail.uses]
    · exact head.threads.append (tail.threads.congr left)

theorem traces_trace (f : Field) (parent : String) (b : Build) :
    Traces (f.events s parent b.registry.definitions) b (f.trace s parent b) := by
  induction f using Field.tree_induction generalizing parent b with
  | step f ih =>
    have below (name : String) (b : Build) :
        Traces (eventsOf s name b.registry.definitions f.inner) b (traceOf s name f.inner b) :=
      traces_traceOf_of_each (fun g hg b => ih g (f.inner_subset_children hg) name b) b
    have object {name : String} (node : Bool) (evs : List Event) (schema : List Field) :
        Event.uses (evs ++ [.emit (.object name node schema)]) = Event.uses evs := by
      rw [Event.uses_append]
      exact List.append_nil _
    obtain ⟨uid, displayName, mandatory, multiple, kind⟩ := f
    cases kind with
    | scalar | file | unknown =>
      rw [Field.events, Field.trace, Field.below?]
      exact .single rfl
    | group schema =>
      rw [Field.events, Field.trace, Field.below?]
      by_cases h : schema = []
      · simp only [h, if_true]
        exact .single rfl
      · simp only [h, if_false]
        exact (below (objectName parent uid) b).visit (object true _ schema) rfl
    | globalField definition schema =>
      rw [Field.events, Field.trace, Field.below?]
      by_cases h : schema = []
      · simp only [h, if_true, true_or]
        exact .single (by simp [Event.uses, Visit.use?, Visit.definition?])
      · have known : (s.options.separateGlobals && b.registry.has definition) = true ↔
            s.options.separateGlobals = true ∧ definition ∈ b.registry.definitions := by
          rw [Bool.and_eq_true, Registry.mem_definitions]
        simp only [h, if_false, false_or, known]
        by_cases hu : s.options.separateGlobals = true ∧ definition ∈ b.registry.definitions
        · simp only [hu, and_self, if_true]
          exact .single (by simp [Event.uses, Visit.use?, Visit.definition?, h])
        · simp only [hu, if_false]
          have hd : (b.use definition parent).registry.definitions =
              insert definition b.registry.definitions := Registry.definitions_record ..
          -- The use is recorded first, so the fields inside find the definition known.
          have inside := below (globalName s.options parent uid definition) (b.use definition parent)
          rw [hd] at inside
          have use : Visit.use? ⟨parent, ⟨uid, displayName, mandatory, multiple,
              .globalField definition schema⟩, b⟩ = some (definition, parent) := by
            simp [Visit.use?, Visit.definition?, h]
          apply inside.visit
          · rw [use]
            exact congrArg ((definition, parent) :: ·) (object true _ schema)
          · rw [use]
            rfl
    | blocks variants =>
      rw [Field.events, Field.trace, Field.below?]
      by_cases h : variants = []
      · simp only [h, if_true]
        exact .single rfl
      · simp only [h, if_false]
        exact (below (objectName parent uid) b).visit (object false _ _) rfl
    | reference targets =>
      rw [Field.events, Field.trace, Field.below?]
      apply Traces.single
      split
      · rfl
      · rw [Event.uses_append, uses_map_emit]
        rfl

theorem traces_traceOf (fs : List Field) (parent : String) (b : Build) :
    Traces (eventsOf s parent b.registry.definitions fs) b (traceOf s parent fs b) :=
  traces_traceOf_of_each (fun f _ b => traces_trace f parent b) b

end

end ContentSdl
