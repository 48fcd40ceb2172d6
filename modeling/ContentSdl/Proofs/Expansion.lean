import ContentSdl.Proofs.BuildSequence
import Mathlib.Algebra.BigOperators.Group.Finset.Basic
import Mathlib.Algebra.Order.Group.Multiset
import Mathlib.Data.Set.Finite.Lattice
import Mathlib.Tactic.Abel

/-! # What events consist of where global fields have types of their own

The first use of a definition enters its schema, later ones do not. So events are, up to their order,
those of fields whose definitions are all known, and for each definition that is new what entering it
adds. -/

namespace ContentSdl

open Event

@[simp] theorem not_occurs_nil (f : Field) : ¬Occurs f [] := by
  rintro (h | ⟨h, -⟩)
  · cases h
  · cases h

@[simp] theorem occurs_cons {f g : Field} {fs : List Field} :
    Occurs f (g :: fs) ↔ (f = g ∨ Occurs f g.children) ∨ Occurs f fs := by
  constructor
  · rintro (h | ⟨h, deeper⟩)
    · exact (List.mem_cons.mp h).imp .inl .here
    · rcases List.mem_cons.mp h with rfl | h
      · exact .inl (.inr deeper)
      · exact .inr (.inside h deeper)
  · rintro ((rfl | deeper) | h)
    · exact .here List.mem_cons_self
    · exact .inside List.mem_cons_self deeper
    · exact h.mono (List.subset_cons_self g fs)

theorem finite_occurs_of_each {fs : List Field}
    (each : ∀ f ∈ fs, {g | Occurs g f.children}.Finite) : {g | Occurs g fs}.Finite := by
  induction fs with
  | nil => simp
  | cons f fs ih =>
    obtain ⟨hf, hfs⟩ := List.forall_mem_cons.mp each
    have union : {g | Occurs g (f :: fs)} = ({f} ∪ {g | Occurs g f.children}) ∪ {g | Occurs g fs} := by
      ext g
      exact occurs_cons
    rw [union]
    exact ((Set.finite_singleton f).union hf).union (ih hfs)

theorem Field.finite_occurs (f : Field) : {g | Occurs g f.children}.Finite := by
  induction f using Field.tree_induction with
  | step f ih => exact finite_occurs_of_each ih

/-- Any two global fields of one definition among and below some fields have one schema, if they have
a schema at all. -/
def Consistent (fs : List Field) : Prop :=
  ∀ f g, Occurs f fs → Occurs g fs → ∀ definition schema schema',
    f.kind = .globalField definition schema → g.kind = .globalField definition schema' →
      schema ≠ [] → schema' ≠ [] → schema = schema'

/-- Global field definitions with one schema each. -/
structure Catalog where
  known : Finset String
  schema : String → List Field

namespace Catalog

/-- All global fields among and below some fields that have a schema have that of the catalog. -/
def Covers (c : Catalog) (fs : List Field) : Prop :=
  ∀ f, Occurs f fs → ∀ definition schema, f.kind = .globalField definition schema → schema ≠ [] →
    definition ∈ c.known ∧ c.schema definition = schema

theorem Covers.mono {c : Catalog} {fs gs : List Field} (h : c.Covers gs) (hs : fs ⊆ gs) :
    c.Covers fs :=
  fun f hf => h f (hf.mono hs)

theorem Covers.inside {c : Catalog} {f : Field} {fs : List Field} (h : c.Covers fs) (hf : f ∈ fs) :
    c.Covers f.children :=
  fun g hg => h g (.inside hf hg)

/-- What entering a definition adds to the use itself. -/
def entered (c : Catalog) (s : Style) (definition : String) : List Event :=
  eventsOf s definition c.known (c.schema definition) ++
    [.emit (.object definition true (c.schema definition))]

end Catalog

open Classical in
theorem Consistent.exists_catalog {fs : List Field} (h : Consistent fs) :
    ∃ c : Catalog, c.Covers fs := by
  let definition? : Field → Option String := fun f =>
    match f.kind with
    | .globalField definition _ => some definition
    | _ => none
  let Has (definition : String) (schema : List Field) : Prop :=
    ∃ f, Occurs f fs ∧ f.kind = .globalField definition schema ∧ schema ≠ []
  have finite : {definition | ∃ f, Occurs f fs ∧ definition? f = some definition}.Finite := by
    have occurring : {f | Occurs f fs}.Finite :=
      finite_occurs_of_each fun f _ => f.finite_occurs
    have image := (occurring.image definition?).preimage (Option.some_injective String).injOn
    exact image.subset fun definition ⟨f, hf, hd⟩ => ⟨f, hf, hd⟩
  refine ⟨⟨finite.toFinset, fun definition => if hd : ∃ schema, Has definition schema
    then hd.choose else []⟩, ?_⟩
  intro f hf definition schema kind hne
  constructor
  · rw [Set.Finite.mem_toFinset]
    exact ⟨f, hf, by simp [definition?, kind]⟩
  · have hd : ∃ schema, Has definition schema := ⟨schema, f, hf, kind, hne⟩
    obtain ⟨g, hg, kind', hne'⟩ := hd.choose_spec
    simp only [dif_pos hd]
    exact h g f hg hf definition _ schema kind' kind hne' hne

namespace Event

/-- The definitions that events use. -/
def definitions (evs : List Event) : List String := (uses evs).map (·.1)

theorem mem_definitions {evs : List Event} {definition : String} :
    definition ∈ definitions evs ↔ ∃ user, .use definition user ∈ evs := by
  simp only [definitions, uses, List.mem_map, List.mem_filterMap]
  constructor
  · rintro ⟨u, ⟨ev, hev, hu⟩, rfl⟩
    cases ev with
    | use definition user =>
      cases hu
      exact ⟨user, hev⟩
    | file | emit | reference => cases hu
  · rintro ⟨user, hev⟩
    exact ⟨(definition, user), ⟨_, hev, rfl⟩, rfl⟩

theorem definitions_subset {evs evs' : List Event} (h : evs ⊆ evs') :
    definitions evs ⊆ definitions evs' := by
  intro definition hd
  obtain ⟨user, hev⟩ := mem_definitions.mp hd
  exact mem_definitions.mpr ⟨user, h hev⟩

theorem definitions_append (evs evs' : List Event) :
    definitions (evs ++ evs') = definitions evs ++ definitions evs' := by
  rw [definitions, uses_append, List.map_append]
  rfl

theorem mem_usedAfter {used : Finset String} {evs : List Event} {definition : String} :
    definition ∈ usedAfter used evs ↔ definition ∈ used ∨ definition ∈ definitions evs := by
  rw [usedAfter, Finset.mem_union, List.mem_toFinset]
  rfl

theorem usedAfter_append (used : Finset String) (evs evs' : List Event) :
    usedAfter used (evs ++ evs') = usedAfter (usedAfter used evs) evs' := by
  ext definition
  simp [mem_usedAfter, definitions_append, or_assoc]

theorem subset_usedAfter (used : Finset String) (evs : List Event) :
    used ⊆ usedAfter used evs :=
  Finset.subset_union_left

end Event

/-- A definition is used by some events, or by what entering such a definition adds, and so on. -/
inductive Reached (entered : String → List Event) (evs : List Event) : String → Prop where
  | direct {definition : String} (h : definition ∈ definitions evs) : Reached entered evs definition
  | deeper {definition other : String} (reached : Reached entered evs definition)
    (h : other ∈ definitions (entered definition)) : Reached entered evs other

theorem Reached.mono {entered : String → List Event} {evs evs' : List Event}
    (h : definitions evs ⊆ definitions evs') {definition : String}
    (reached : Reached entered evs definition) : Reached entered evs' definition := by
  induction reached with
  | direct hd => exact .direct (h hd)
  | deeper _ hd ih => exact .deeper ih hd

/-- What the events of an entered definition reach is reached by its use. -/
theorem Reached.through {entered : String → List Event} {evs evs' : List Event}
    {definition other : String} (reached : Reached entered evs definition)
    (h : definitions evs' ⊆ definitions (entered definition))
    (reached' : Reached entered evs' other) : Reached entered evs other := by
  induction reached' with
  | direct hd => exact .deeper reached (h hd)
  | deeper _ hd ih => exact .deeper ih hd

/-- Events are those that come directly and what entering each definition adds that was not used
before. All of these definitions are reached, and those that are used directly are in the catalog. -/
structure Expansion (c : Catalog) (s : Style) (used : Finset String) (direct evs : List Event) :
    Prop where
  known : ∀ definition ∈ definitions direct, definition ∈ c.known
  parts : (evs : Multiset Event) =
    direct + ∑ definition ∈ usedAfter used evs \ used, (c.entered s definition : Multiset Event)
  reached : ∀ definition ∈ usedAfter used evs,
    definition ∈ used ∨ Reached (c.entered s) direct definition

namespace Expansion

variable {c : Catalog} {s : Style} {used : Finset String} {direct direct' evs evs' : List Event}

/-- Events that use nothing new come directly. -/
theorem of_used (known : ∀ definition ∈ definitions evs, definition ∈ c.known)
    (h : ∀ definition ∈ definitions evs, definition ∈ used) : Expansion c s used evs evs := by
  have same : usedAfter used evs = used := by
    ext definition
    rw [mem_usedAfter]
    exact ⟨fun hd => hd.elim id (h definition), .inl⟩
  refine ⟨known, ?_, ?_⟩
  · simp [same]
  · rw [same]
    exact fun definition hd => .inl hd

theorem of_uses_eq_nil (h : uses evs = []) : Expansion c s used evs evs :=
  of_used (by simp [definitions, h]) (by simp [definitions, h])

theorem append (head : Expansion c s used direct evs)
    (tail : Expansion c s (usedAfter used evs) direct' evs') :
    Expansion c s used (direct ++ direct') (evs ++ evs') where
  known := by
    intro definition hd
    rw [definitions_append, List.mem_append] at hd
    exact hd.elim (head.known definition) (tail.known definition)
  parts := by
    have first := subset_usedAfter used evs
    have second := subset_usedAfter (usedAfter used evs) evs'
    have split : (usedAfter (usedAfter used evs) evs' \ used) \ (usedAfter used evs \ used) =
        usedAfter (usedAfter used evs) evs' \ usedAfter used evs := by
      ext definition
      have hfirst := @first definition
      simp only [Finset.mem_sdiff]
      tauto
    rw [usedAfter_append, ← Multiset.coe_add, ← Multiset.coe_add, head.parts, tail.parts,
      ← Finset.sum_sdiff (Finset.sdiff_subset_sdiff second (Finset.Subset.refl used)), split]
    abel
  reached := by
    intro definition hd
    rw [usedAfter_append] at hd
    rcases tail.reached definition hd with hused | reached
    · exact (head.reached definition hused).imp_right
        (.mono (definitions_subset (List.subset_append_left direct direct')))
    · exact .inr (reached.mono (definitions_subset (List.subset_append_right direct direct')))

/-- The first use of a definition enters it. -/
theorem enter {definition : String} (user : String) (e : Emission) (hknown : definition ∈ c.known)
    (hnew : definition ∉ used) (hentered : c.entered s definition = direct ++ [.emit e])
    (h : Expansion c s (insert definition used) direct evs) :
    Expansion c s used [.use definition user] (.use definition user :: evs ++ [.emit e]) := by
  have after : usedAfter used (.use definition user :: evs ++ [.emit e]) =
      usedAfter (insert definition used) evs := by
    ext other
    simp [mem_usedAfter, definitions, uses, or_assoc, or_left_comm]
  have inside : definition ∈ usedAfter (insert definition used) evs :=
    subset_usedAfter _ _ (Finset.mem_insert_self definition used)
  have new : usedAfter (insert definition used) evs \ used =
      insert definition (usedAfter (insert definition used) evs \ insert definition used) := by
    ext other
    simp only [Finset.mem_sdiff, Finset.mem_insert]
    by_cases ho : other = definition
    · simp [ho, inside, hnew]
    · simp [ho]
  refine ⟨?_, ?_, ?_⟩
  · intro other ho
    rw [List.mem_singleton.mp ho]
    exact hknown
  · have whole : (.use definition user :: evs ++ [.emit e] : List Event) =
        [.use definition user] ++ (evs ++ [.emit e]) := rfl
    rw [after, new, Finset.sum_insert (by simp), hentered, whole, ← Multiset.coe_add,
      ← Multiset.coe_add, ← Multiset.coe_add, h.parts]
    abel
  · intro other ho
    rw [after] at ho
    have use : Reached (c.entered s) [.use definition user] definition :=
      .direct (List.mem_singleton_self definition)
    rcases h.reached other ho with hused | reached
    · rcases Finset.mem_insert.mp hused with rfl | hused
      · exact .inr use
      · exact .inl hused
    · refine .inr (use.through ?_ reached)
      rw [hentered]
      exact definitions_subset (List.subset_append_left direct _)

theorem mem_iff (h : Expansion c s used direct evs) (ev : Event) :
    ev ∈ evs ↔
      ev ∈ direct ∨ ∃ definition ∈ usedAfter used evs \ used, ev ∈ c.entered s definition := by
  rw [← Multiset.mem_coe, h.parts, Multiset.mem_add, Multiset.mem_sum]
  rfl

/-- From scratch, exactly the definitions that are reached get used. -/
theorem mem_usedAfter_iff (h : Expansion c s ∅ direct evs) (definition : String) :
    definition ∈ usedAfter ∅ evs ↔ Reached (c.entered s) direct definition := by
  constructor
  · intro hd
    exact (h.reached definition hd).resolve_left (Finset.notMem_empty definition)
  · intro reached
    induction reached with
    | direct hd =>
      obtain ⟨user, hev⟩ := mem_definitions.mp hd
      exact mem_usedAfter.mpr (.inr (mem_definitions.mpr ⟨user, (h.mem_iff _).mpr (.inl hev)⟩))
    | @deeper definition other _ hd ih =>
      obtain ⟨user, hev⟩ := mem_definitions.mp hd
      have hev : .use other user ∈ evs :=
        (h.mem_iff _).mpr (.inr ⟨definition, by simpa using ih, hev⟩)
      exact mem_usedAfter.mpr (.inr (mem_definitions.mpr ⟨user, hev⟩))

/-- Up to order, the events from scratch depend on those that come directly only up to order. -/
theorem perm (h : Expansion c s ∅ direct evs) (h' : Expansion c s ∅ direct' evs')
    (hperm : direct.Perm direct') : evs.Perm evs' := by
  have same : usedAfter ∅ evs = usedAfter ∅ evs' := by
    ext definition
    rw [h.mem_usedAfter_iff, h'.mem_usedAfter_iff]
    exact ⟨.mono (definitions_subset hperm.subset), .mono (definitions_subset hperm.symm.subset)⟩
  rw [← Multiset.coe_eq_coe, h.parts, h'.parts, same, Multiset.coe_eq_coe.mpr hperm]

end Expansion

section

variable {c : Catalog} {s : Style}

private theorem expansion_eventsOf_of_each {parent : String} {fs : List Field}
    (each : ∀ f ∈ fs, ∀ used,
      Expansion c s used (f.events s parent c.known) (f.events s parent used))
    (used : Finset String) :
    Expansion c s used (eventsOf s parent c.known fs) (eventsOf s parent used fs) := by
  induction fs generalizing used with
  | nil =>
    rw [eventsOf_nil, eventsOf_nil]
    exact .of_uses_eq_nil rfl
  | cons f fs ih =>
    obtain ⟨hf, hfs⟩ := List.forall_mem_cons.mp each
    have head := hf used
    have same : usedAfter c.known (f.events s parent c.known) = c.known := by
      ext definition
      rw [mem_usedAfter]
      exact ⟨fun hd => hd.elim id (head.known definition), .inl⟩
    rw [eventsOf_cons, eventsOf_cons, same]
    exact head.append (ih hfs _)

/-- The events of a field are those it has if all definitions are known, and what it enters. -/
theorem expansion_events (shared : s.options.separateGlobals = true) (f : Field)
    (covers : c.Covers [f]) (parent : String) (used : Finset String) :
    Expansion c s used (f.events s parent c.known) (f.events s parent used) := by
  induction f using Field.tree_induction generalizing parent used with
  | step f ih =>
    have below {fs : List Field} (hfs : fs ⊆ f.children) (name : String) (used : Finset String) :
        Expansion c s used (eventsOf s name c.known fs) (eventsOf s name used fs) :=
      expansion_eventsOf_of_each
        (fun g hg used => ih g (hfs hg) ((covers.inside (List.mem_singleton_self f)).mono
          (by simpa using hfs hg)) name used) used
    obtain ⟨uid, displayName, mandatory, multiple, kind⟩ := f
    cases kind with
    | scalar kind =>
      rw [Field.events, Field.events]
      exact .of_uses_eq_nil rfl
    | file =>
      rw [Field.events, Field.events]
      exact .of_uses_eq_nil rfl
    | group schema =>
      rw [Field.events, Field.events]
      by_cases h : schema = []
      · rw [if_pos h, if_pos h]
        exact .of_uses_eq_nil rfl
      · rw [if_neg h, if_neg h]
        exact (below (List.Subset.refl schema) _ used).append (.of_uses_eq_nil rfl)
    | globalField definition schema =>
      rw [Field.events, Field.events]
      by_cases h : schema = []
      · rw [if_pos h, if_pos h]
        exact .of_uses_eq_nil rfl
      · obtain ⟨hknown, hschema⟩ :=
          covers _ (.here (List.mem_singleton_self _)) definition schema rfl h
        rw [if_neg h, if_neg h, if_pos ⟨shared, hknown⟩]
        by_cases hused : definition ∈ used
        · rw [if_pos ⟨shared, hused⟩]
          apply Expansion.of_used
          · exact fun other ho => List.mem_singleton.mp ho ▸ hknown
          · exact fun other ho => List.mem_singleton.mp ho ▸ hused
        · rw [if_neg fun hu => hused hu.2]
          have hname : globalName s.options parent uid definition = definition := by
            rw [globalName, if_pos shared]
          rw [hname]
          apply Expansion.enter parent (.object definition true schema) hknown hused
          · rw [Catalog.entered, hschema]
          · exact below (List.Subset.refl schema) definition (insert definition used)
    | blocks variants =>
      rw [Field.events, Field.events]
      by_cases h : variants = []
      · rw [if_pos h, if_pos h]
        exact .of_uses_eq_nil rfl
      · rw [if_neg h, if_neg h]
        exact (below (mergedSchema_subset variants) _ used).append (.of_uses_eq_nil rfl)
    | reference targets =>
      rw [Field.events, Field.events]
      by_cases h : targets = []
      · rw [if_pos h]
        exact .of_uses_eq_nil rfl
      · rw [if_neg h]
        apply Expansion.of_uses_eq_nil
        rw [uses_append, uses_map_emit]
        rfl
    | unknown tag =>
      rw [Field.events, Field.events]
      exact .of_uses_eq_nil rfl

/-- The events of builds in turn are those that each has if all definitions are known, and what the
builds enter. -/
theorem expansion_eventsOfAll (shared : s.options.separateGlobals = true)
    {calls : List (List Field × String)} (covers : c.Covers (calls.flatMap Prod.fst))
    (used : Finset String) :
    Expansion c s used (calls.flatMap fun call => eventsOf s call.2 c.known call.1)
      (eventsOfAll s used calls) := by
  induction calls generalizing used with
  | nil => exact .of_uses_eq_nil rfl
  | cons call calls ih =>
    rw [List.flatMap_cons] at covers
    have head : Expansion c s used (eventsOf s call.2 c.known call.1)
        (eventsOf s call.2 used call.1) :=
      expansion_eventsOf_of_each (fun f hf used => expansion_events shared f
        (covers.mono (by simp [hf])) call.2 used) used
    rw [List.flatMap_cons, eventsOfAll]
    exact head.append (ih (covers.mono (List.subset_append_right _ _)) _)

end

end ContentSdl
