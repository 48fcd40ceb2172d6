import ContentSdl.Proofs.BuildSequence
import ContentSdl.Proofs.WrappedTypes

/-! # Every type that a run relies on is declared by the run

A definition counts as used while its fields are visited, before its type is declared. So the known
types are those of all emissions, also of the later ones. -/

namespace ContentSdl

open Event

/-- The types of scalars, which no run declares. -/
def scalarTypes : List String := ScalarKind.all.map ScalarKind.outputType

/-- An emission relies on known types only, and an object is that of a field among or below some
fields. -/
def Emission.Closed (s : Style) (fs : List Field) (known : String → Prop) : Emission → Prop
  | .assets => True
  | .placeholder _ => True
  | .union targets => ∀ target ∈ targets, known (targetName s.typePrefix target)
  | .object name _ schema => (∃ g, Occurs g fs ∧ g.inner = schema) ∧
      ∀ f ∈ schema, ∀ n, f.typeName? s name = some n → n ∈ scalarTypes ∨ known n

/-- Fields under a parent and their events rely on known types only, and know the definitions that
they use if those have types of their own. -/
structure ClosedEvents (s : Style) (parent : String) (fs : List Field) (known : String → Prop)
    (evs : List Event) : Prop where
  types : ∀ f ∈ fs, ∀ n, f.typeName? s parent = some n → n ∈ scalarTypes ∨ known n
  emissions : ∀ e ∈ emissions evs, e.Closed s fs known
  references : ∀ r ∈ references evs, r.parent = parent ∨ known r.parent
  files : ∀ f ∈ files evs, f.parent = parent ∨ known f.parent
  uses : s.options.separateGlobals = true → ∀ u ∈ uses evs, known u.1

namespace Emission

variable {s : Style} {known : String → Prop}

theorem Closed.mono {fs gs : List Field} (hs : fs ⊆ gs) {e : Emission} (h : e.Closed s fs known) :
    e.Closed s gs known := by
  cases e with
  | assets => trivial
  | placeholder target => trivial
  | union targets => exact h
  | object name node schema =>
    obtain ⟨⟨g, hg, inner⟩, types⟩ := h
    exact ⟨⟨g, hg.mono hs, inner⟩, types⟩

/-- What is closed below a field is closed for the field. -/
theorem Closed.inside {f : Field} {e : Emission} (h : e.Closed s f.inner known) :
    e.Closed s [f] known := by
  cases e with
  | assets => trivial
  | placeholder target => trivial
  | union targets => exact h
  | object name node schema =>
    obtain ⟨⟨g, hg, inner⟩, types⟩ := h
    exact ⟨⟨g, .inside (List.mem_singleton_self f) (hg.mono f.inner_subset_children), inner⟩, types⟩

end Emission

namespace ClosedEvents

variable {s : Style} {parent : String} {known : String → Prop}

theorem nil (s : Style) (parent : String) (known : String → Prop) :
    ClosedEvents s parent [] known [] := by
  constructor <;> simp [Event.emissions, Event.references, Event.files, Event.uses]

/-- A field without events relies on its type alone. -/
theorem quiet {f : Field}
    (h : ∀ n, f.typeName? s parent = some n → n ∈ scalarTypes ∨ known n) :
    ClosedEvents s parent [f] known [] := by
  constructor <;> simp [Event.emissions, Event.references, Event.files, Event.uses]
  exact h

theorem cons {f : Field} {fs : List Field} {evs evs' : List Event}
    (head : ClosedEvents s parent [f] known evs) (tail : ClosedEvents s parent fs known evs') :
    ClosedEvents s parent (f :: fs) known (evs ++ evs') where
  types := by
    intro g hg
    rcases List.mem_cons.mp hg with rfl | hg
    · exact head.types g (List.mem_singleton_self g)
    · exact tail.types g hg
  emissions := by
    intro e he
    rw [emissions_append, List.mem_append] at he
    rcases he with he | he
    · exact (head.emissions e he).mono (by simp)
    · exact (tail.emissions e he).mono (List.subset_cons_self f fs)
  references := by
    intro r hr
    rw [references_append, List.mem_append] at hr
    exact hr.elim (head.references r) (tail.references r)
  files := by
    intro g hg
    rw [files_append, List.mem_append] at hg
    exact hg.elim (head.files g) (tail.files g)
  uses := by
    intro hs u hu
    rw [uses_append, List.mem_append] at hu
    exact hu.elim (head.uses hs u) (tail.uses hs u)

/-- The object type of a field is closed if its fields are and its name is known. -/
theorem object {f : Field} {name : String} {evs : List Event} (node : Bool)
    (hname : f.typeName? s parent = some name) (hknown : known name)
    (h : ClosedEvents s name f.inner known evs) :
    ClosedEvents s parent [f] known (evs ++ [.emit (.object name node f.inner)]) where
  types := by
    intro g hg n hn
    rw [List.mem_singleton.mp hg, hname] at hn
    exact .inr (Option.some.inj hn ▸ hknown)
  emissions := by
    intro e he
    rw [emissions_append, List.mem_append] at he
    rcases he with he | he
    · exact (h.emissions e he).inside
    · rw [List.mem_singleton.mp he]
      exact ⟨⟨f, .here (List.mem_singleton_self f), rfl⟩, h.types⟩
  references := by
    intro r hr
    rw [references_append, List.mem_append] at hr
    rcases hr with hr | hr
    · exact .inr ((h.references r hr).elim (fun e => e ▸ hknown) id)
    · cases hr
  files := by
    intro g hg
    rw [files_append, List.mem_append] at hg
    rcases hg with hg | hg
    · exact .inr ((h.files g hg).elim (fun e => e ▸ hknown) id)
    · cases hg
  uses := by
    intro hs u hu
    rw [uses_append, List.mem_append] at hu
    exact hu.elim (h.uses hs u) (fun hu => by cases hu)

/-- A use relies on its definition if that has a type of its own. -/
theorem use {f : Field} {evs : List Event} {definition : String} (user : String)
    (hknown : s.options.separateGlobals = true → known definition)
    (h : ClosedEvents s parent [f] known evs) :
    ClosedEvents s parent [f] known (.use definition user :: evs) where
  types := h.types
  emissions := h.emissions
  references := h.references
  files := h.files
  uses := by
    intro hs u hu
    rcases List.mem_cons.mp hu with rfl | hu
    · exact hknown hs
    · exact h.uses hs u hu

theorem file {f : Field} (hname : f.typeName? s parent = some (assetsName s.typePrefix))
    (hknown : known (assetsName s.typePrefix)) :
    ClosedEvents s parent [f] known [.file ⟨parent, f⟩, .emit .assets] where
  types := by
    intro g hg n hn
    rw [List.mem_singleton.mp hg, hname] at hn
    exact .inr (Option.some.inj hn ▸ hknown)
  emissions := by
    intro e he
    rw [List.mem_singleton.mp he]
    trivial
  references := by
    intro r hr
    cases hr
  files := by
    intro g hg
    rw [List.mem_singleton.mp hg]
    exact .inl rfl
  uses := by
    intro _ u hu
    cases hu

private theorem known_target {targets : List String}
    (h : ∀ e ∈ Emission.ofTargets targets, known (e.name s)) {target : String}
    (ht : target ∈ targets) : known (targetName s.typePrefix target) :=
  h (.placeholder target) (List.mem_append_left _ (List.mem_map.mpr ⟨target, ht, rfl⟩))

private theorem known_referenceName {targets : List String} (hne : targets ≠ [])
    (h : ∀ e ∈ Emission.ofTargets targets, known (e.name s)) :
    known (referenceName s.typePrefix targets) := by
  match targets with
  | [] => exact absurd rfl hne
  | [target] => exact known_target h (List.mem_singleton_self target)
  | target :: second :: rest =>
    apply h (.union (target :: second :: rest))
    rw [Emission.ofTargets, if_pos (by simp)]
    exact List.mem_append_right _ (List.mem_singleton_self _)

/-- A reference relies on what its targets need, a union on its members. -/
theorem reference {f : Field} {targets : List String} (uid : String) (hne : targets ≠ [])
    (hname : f.typeName? s parent = some (referenceName s.typePrefix targets))
    (h : ∀ e ∈ Emission.ofTargets targets, known (e.name s)) :
    ClosedEvents s parent [f] known
      ((Emission.ofTargets targets).map .emit ++ [.reference ⟨parent, uid⟩]) where
  types := by
    intro g hg n hn
    rw [List.mem_singleton.mp hg, hname] at hn
    exact .inr (Option.some.inj hn ▸ known_referenceName hne h)
  emissions := by
    intro e he
    rw [emissions_append, emissions_map_emit] at he
    rcases List.mem_append.mp he with he | he
    · rw [Emission.ofTargets] at he
      rcases List.mem_append.mp he with he | he
      · obtain ⟨target, -, rfl⟩ := List.mem_map.mp he
        trivial
      · split at he
        · rw [List.mem_singleton.mp he]
          exact fun target ht => known_target h ht
        · cases he
    · cases he
  references := by
    intro r hr
    rw [references_append, references_map_emit, List.nil_append] at hr
    rw [List.mem_singleton.mp hr]
    exact .inl rfl
  files := by
    intro g hg
    rw [files_append, files_map_emit] at hg
    cases hg
  uses := by
    intro _ u hu
    rw [uses_append, uses_map_emit] at hu
    cases hu

end ClosedEvents

section

variable {s : Style} {known : String → Prop}

/-- The types of definitions used before are known, if definitions have types of their own. -/
def KnowsUsed (s : Style) (known : String → Prop) (used : Finset String) : Prop :=
  s.options.separateGlobals = true → ∀ definition ∈ used, known definition

theorem ClosedEvents.knowsUsed {parent : String} {fs : List Field} {evs : List Event}
    {used : Finset String} (h : ClosedEvents s parent fs known evs)
    (hused : KnowsUsed s known used) : KnowsUsed s known (usedAfter used evs) := by
  intro hs definition hd
  rw [usedAfter, Finset.mem_union, List.mem_toFinset, List.mem_map] at hd
  rcases hd with hd | ⟨u, hu, rfl⟩
  · exact hused hs definition hd
  · exact h.uses hs u hu

private theorem closed_eventsOf_of_each {parent : String} {fs : List Field}
    (each : ∀ f ∈ fs, ∀ used, (∀ e ∈ emissions (f.events s parent used), known (e.name s)) →
      KnowsUsed s known used → ClosedEvents s parent [f] known (f.events s parent used))
    {used : Finset String}
    (hnames : ∀ e ∈ emissions (eventsOf s parent used fs), known (e.name s))
    (hused : KnowsUsed s known used) :
    ClosedEvents s parent fs known (eventsOf s parent used fs) := by
  induction fs generalizing used with
  | nil =>
    rw [eventsOf_nil]
    exact .nil s parent known
  | cons f fs ih =>
    obtain ⟨hf, hfs⟩ := List.forall_mem_cons.mp each
    rw [eventsOf_cons, emissions_append] at hnames
    rw [eventsOf_cons]
    have head := hf used (fun e he => hnames e (List.mem_append_left _ he)) hused
    exact head.cons
      (ih hfs (fun e he => hnames e (List.mem_append_right _ he)) (head.knowsUsed hused))

theorem closed_events (f : Field) (parent : String) (used : Finset String)
    (hnames : ∀ e ∈ emissions (f.events s parent used), known (e.name s))
    (hused : KnowsUsed s known used) :
    ClosedEvents s parent [f] known (f.events s parent used) := by
  induction f using Field.tree_induction generalizing parent used with
  | step f ih =>
    -- An object is closed if its fields are, and its own emission comes last.
    have nested {name : String} {used : Finset String} (node : Bool)
        (hname : f.typeName? s parent = some name)
        (hnames : ∀ e ∈ emissions (eventsOf s name used f.inner ++
          [.emit (.object name node f.inner)]), known (e.name s))
        (hused : KnowsUsed s known used) : ClosedEvents s parent [f] known
          (eventsOf s name used f.inner ++ [.emit (.object name node f.inner)]) := by
      rw [emissions_append] at hnames
      apply ClosedEvents.object node hname
      · exact hnames (.object name node f.inner)
          (List.mem_append_right _ (List.mem_singleton_self _))
      · exact closed_eventsOf_of_each
          (fun g hg used => ih g (f.inner_subset_children hg) name used)
          (fun e he => hnames e (List.mem_append_left _ he)) hused
    obtain ⟨uid, displayName, mandatory, multiple, kind⟩ := f
    cases kind with
    | scalar kind =>
      rw [Field.events]
      apply ClosedEvents.quiet
      intro n hn
      exact .inl (Option.some.inj hn ▸ List.mem_map.mpr ⟨kind, kind.mem_all, rfl⟩)
    | file =>
      rw [Field.events] at hnames ⊢
      exact ClosedEvents.file rfl (hnames .assets (List.mem_singleton_self _))
    | group schema =>
      rw [Field.events] at hnames ⊢
      by_cases h : schema = []
      · rw [if_pos h]
        exact ClosedEvents.quiet (by simp [Field.typeName?, h])
      · rw [if_neg h] at hnames ⊢
        exact nested true (by simp [Field.typeName?, h]) hnames hused
    | globalField definition schema =>
      rw [Field.events] at hnames ⊢
      by_cases h : schema = []
      · rw [if_pos h]
        exact ClosedEvents.quiet (by simp [Field.typeName?, h])
      · rw [if_neg h] at hnames ⊢
        have hname : Field.typeName? s parent ⟨uid, displayName, mandatory, multiple,
            .globalField definition schema⟩ =
              some (globalName s.options parent uid definition) := by
          simp [Field.typeName?, h]
        by_cases hu : s.options.separateGlobals = true ∧ definition ∈ used
        · rw [if_pos hu]
          have hd := hused hu.1 definition hu.2
          refine ClosedEvents.use parent (fun _ => hd) (ClosedEvents.quiet ?_)
          intro n hn
          rw [hname, globalName, if_pos hu.1] at hn
          exact .inr (Option.some.inj hn ▸ hd)
        · rw [if_neg hu] at hnames ⊢
          have hobject : known (globalName s.options parent uid definition) := by
            apply hnames (.object (globalName s.options parent uid definition) true schema)
            rw [emissions_append]
            exact List.mem_append_right _ (List.mem_singleton_self _)
          have hd : s.options.separateGlobals = true → known definition := by
            intro hs
            rwa [globalName, if_pos hs] at hobject
          apply ClosedEvents.use parent hd
          apply nested true hname hnames
          intro hs other ho
          rcases Finset.mem_insert.mp ho with rfl | ho
          · exact hd hs
          · exact hused hs other ho
    | blocks variants =>
      rw [Field.events] at hnames ⊢
      by_cases h : variants = []
      · rw [if_pos h]
        exact ClosedEvents.quiet (by simp [Field.typeName?, h])
      · rw [if_neg h] at hnames ⊢
        exact nested false (by simp [Field.typeName?, h]) hnames hused
    | reference targets =>
      rw [Field.events] at hnames ⊢
      by_cases h : targets = []
      · rw [if_pos h]
        exact ClosedEvents.quiet (by simp [Field.typeName?, h])
      · rw [if_neg h] at hnames ⊢
        rw [emissions_append, emissions_map_emit] at hnames
        have hne : distinct targets ≠ [] := by
          intro hd
          obtain ⟨target, ht⟩ := List.exists_mem_of_ne_nil targets h
          have ht := (mem_distinct targets target).mpr ht
          rw [hd] at ht
          cases ht
        exact ClosedEvents.reference uid hne (by simp [Field.typeName?, h])
          (fun e he => hnames e (List.mem_append_left _ he))
    | unknown tag =>
      rw [Field.events]
      exact ClosedEvents.quiet (by simp [Field.typeName?])

theorem closed_eventsOf (fs : List Field) (parent : String) (used : Finset String)
    (hnames : ∀ e ∈ emissions (eventsOf s parent used fs), known (e.name s))
    (hused : KnowsUsed s known used) :
    ClosedEvents s parent fs known (eventsOf s parent used fs) :=
  closed_eventsOf_of_each (fun f _ used => closed_events f parent used) hnames hused

end

/-- A declaration relies on known types only. A body with entries is that of a field among or below
some fields. -/
inductive Declaration.Closed (s : Style) (fs : List Field) (known : String → Prop) :
    Declaration → Prop where
  | assets (name : String) : Closed s fs known (assetsDeclaration name)
  | placeholder (name : String) : Closed s fs known (ContentSdl.placeholder name)
  | union (name : String) {members : List String} (h : ∀ member ∈ members, known member) :
    Closed s fs known (.union name members)
  | object (name : String) (node : Bool) {g : Field} (occurs : Occurs g fs)
    (h : WrapsOnly s name g.inner (fun n => n ∈ scalarTypes ∨ known n) (fieldMap s name g.inner)) :
    Closed s fs known (.object name node (.fields (fieldMap s name g.inner)))

theorem Emission.Closed.declaration {s : Style} {fs : List Field} {known : String → Prop}
    {e : Emission} (h : e.Closed s fs known) : (e.declaration s).Closed s fs known := by
  cases e with
  | assets => exact .assets _
  | placeholder target => exact .placeholder _
  | union targets =>
    apply Declaration.Closed.union
    intro member hm
    obtain ⟨target, ht, rfl⟩ := List.mem_map.mp hm
    exact h target ht
  | object name node schema =>
    obtain ⟨⟨g, hg, rfl⟩, types⟩ := h
    exact .object name node hg (wrapsOnly_fieldMap types)

/-- What a build for a parent returns relies on known types and on the parent only. -/
structure Built.Closed (s : Style) (fs : List Field) (parent : String) (known : String → Prop)
    (built : Built) : Prop where
  fields : WrapsOnly s parent fs (fun n => n ∈ scalarTypes ∨ known n) built.fields
  declarations : ∀ d ∈ built.declarations, d.Closed s fs known
  references : ∀ r ∈ built.references, r.parent = parent ∨ known r.parent
  files : ∀ f ∈ built.files, f.parent = parent ∨ known f.parent

namespace Run

theorem closed_build (run : Run) (fs : List Field) (parent : String) {known : String → Prop}
    (h : ClosedEvents run.style parent fs known
      (eventsOf run.style parent run.registry.definitions fs)) :
    (run.build fs parent).1.Closed run.style fs parent known := by
  constructor
  · exact wrapsOnly_fieldMap h.types
  · intro d hd
    rw [declarations_build] at hd
    obtain ⟨e, he, rfl⟩ := List.mem_map.mp hd
    exact (h.emissions e ((firstFrom_sublist ..).subset he)).declaration
  · intro r hr
    rw [references_build] at hr
    exact h.references r hr
  · intro f hf
    rw [files_build] at hf
    exact h.files f hf

theorem closed_buildAll_of (run : Run) (calls : List (List Field × String))
    {known : String → Prop}
    (hnames : ∀ e ∈ emissions (eventsOfAll run.style run.registry.definitions calls),
      known (e.name run.style))
    (hused : KnowsUsed run.style known run.registry.definitions) :
    List.Forall₂ (fun call built => built.Closed run.style call.1 call.2 known) calls
      (run.buildAll calls).1 := by
  induction calls generalizing run with
  | nil => exact .nil
  | cons call calls ih =>
    rw [eventsOfAll, emissions_append] at hnames
    have closed := closed_eventsOf call.1 call.2 run.registry.definitions
      (fun e he => hnames e (List.mem_append_left _ he)) hused
    have used : (run.build call.1 call.2).2.registry.definitions = _ :=
      (run.follows_build call.1 call.2).definitions
    apply List.Forall₂.cons
    · exact run.closed_build call.1 call.2 closed
    · apply ih (run.build call.1 call.2).2
      · rw [used]
        exact fun e he => hnames e (List.mem_append_right _ he)
      · rw [used]
        exact closed.knowsUsed hused

/-- The builds of a fresh run declare each name once and exactly the names that its registry holds;
and all types that they rely on are scalars or among those names. -/
theorem closed_buildAll (s : Style) (calls : List (List Field × String)) :
    let (builts, run) := (Run.mk s {}).buildAll calls
    let names := (builts.flatMap Built.declarations).map Declaration.name
    names.Nodup ∧ (∀ n, n ∈ run.registry.declared ↔ n ∈ names) ∧
      List.Forall₂ (fun call built => built.Closed s call.1 call.2 (· ∈ names)) calls builts := by
  have names (n : String) := mem_names_buildAll (Run.mk s {}) calls n
  refine ⟨nodup_names_buildAll _ calls, ?_, closed_buildAll_of (Run.mk s {}) calls ?_ ?_⟩
  · intro n
    rw [names, mem_declared_buildAll]
    simp
  · intro e he
    rw [names]
    exact ⟨List.not_mem_nil, List.mem_map_of_mem he⟩
  · intro _ definition hd
    simp [Registry.definitions] at hd

end Run

end ContentSdl
