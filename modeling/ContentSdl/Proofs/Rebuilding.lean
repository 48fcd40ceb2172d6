import ContentSdl.Proofs.BuildOrder

/-! # Fields that are built again

All definitions that the first build of some fields uses are known to the second. So that one enters
none of them anew, and its events are among those of the first. -/

namespace ContentSdl

open Event

private theorem sublist_eventsOf_of_each {s : Style} {parent : String} {fs : List Field}
    (each : ∀ f ∈ fs, ∀ used used', usedAfter used (f.events s parent used) ⊆ used' →
      (f.events s parent used').Sublist (f.events s parent used))
    {used used' : Finset String} (h : usedAfter used (eventsOf s parent used fs) ⊆ used') :
    (eventsOf s parent used' fs).Sublist (eventsOf s parent used fs) := by
  induction fs generalizing used used' with
  | nil => rw [eventsOf_nil, eventsOf_nil]
  | cons f fs ih =>
    obtain ⟨hf, hfs⟩ := List.forall_mem_cons.mp each
    rw [eventsOf_cons, usedAfter_append] at h
    have head := hf used used' ((subset_usedAfter _ _).trans h)
    have tail := ih hfs (h.trans (subset_usedAfter used' (f.events s parent used')))
    rw [eventsOf_cons, eventsOf_cons]
    exact head.append tail

private theorem sublist_events_of_shared {s : Style} (on : s.options.separateGlobals = true)
    (f : Field) (parent : String) {used used' : Finset String}
    (h : usedAfter used (f.events s parent used) ⊆ used') :
    (f.events s parent used').Sublist (f.events s parent used) := by
  induction f using Field.tree_induction generalizing parent used used' with
  | step f ih =>
    have inside {fs : List Field} (hfs : fs ⊆ f.children) (name : String) {evs : List Event}
        (h : usedAfter used (eventsOf s name used fs ++ evs) ⊆ used') :
        (eventsOf s name used' fs ++ evs).Sublist (eventsOf s name used fs ++ evs) := by
      rw [usedAfter_append] at h
      have sublist := sublist_eventsOf_of_each (fun g hg _ _ h => ih g (hfs hg) name h)
        ((subset_usedAfter _ evs).trans h)
      exact sublist.append (.refl evs)
    obtain ⟨uid, displayName, mandatory, multiple, kind⟩ := f
    cases kind with
    | scalar | file | reference | unknown =>
      rw [Field.events, Field.events]
    | group schema =>
      rw [Field.events] at h ⊢
      rw [Field.events]
      by_cases hne : schema = []
      · rw [if_pos hne, if_pos hne]
      · rw [if_neg hne] at h ⊢
        rw [if_neg hne]
        exact inside (List.Subset.refl schema) (objectName parent uid) h
    | globalField definition schema =>
      rw [Field.events] at h ⊢
      rw [Field.events]
      by_cases hne : schema = []
      · rw [if_pos hne, if_pos hne]
      · rw [if_neg hne] at h ⊢
        rw [if_neg hne]
        by_cases known : definition ∈ used
        · have later : definition ∈ used' := h (subset_usedAfter used _ known)
          rw [if_pos ⟨on, later⟩, if_pos ⟨on, known⟩]
        · -- The first time the definition is entered, so it is known the second time.
          rw [if_neg fun hu => known hu.2] at h
          have later : definition ∈ used' := h (mem_usedAfter.mpr (.inr (by simp [definitions, uses])))
          rw [if_pos ⟨on, later⟩, if_neg fun hu => known hu.2]
          exact (List.nil_sublist _).cons_cons _
    | blocks variants =>
      rw [Field.events] at h ⊢
      rw [Field.events]
      by_cases hne : variants = []
      · rw [if_pos hne, if_pos hne]
      · rw [if_neg hne] at h ⊢
        rw [if_neg hne]
        exact inside (mergedSchema_subset variants) (objectName parent uid) h

/-- Where all is known that fields use, their events are among those of the first time. -/
theorem sublist_eventsOf (s : Style) (fs : List Field) (parent : String) {used used' : Finset String}
    (h : usedAfter used (eventsOf s parent used fs) ⊆ used') :
    (eventsOf s parent used' fs).Sublist (eventsOf s parent used fs) := by
  cases hs : s.options.separateGlobals with
  | false =>
    rw [eventsOf_eq_of_off hs, eventsOf_eq_of_off hs]
  | true => exact sublist_eventsOf_of_each (fun f _ _ _ h => sublist_events_of_shared hs f parent h) h

theorem firstFrom_eq_nil {α κ : Type} [DecidableEq κ] {key : α → κ} {seen : List κ} {as : List α}
    (h : ∀ a ∈ as, key a ∈ seen) : firstFrom key seen as = [] := by
  induction as with
  | nil => rfl
  | cons a as ih =>
    obtain ⟨ha, has⟩ := List.forall_mem_cons.mp h
    rw [firstFrom, if_pos ha, ih has]

/-- Uses of definitions that have users add no definition. -/
theorem Registry.keys_recordAll_of_known {r : Registry} {us : List (String × String)}
    (h : ∀ u ∈ us, u.1 ∈ r.definitions) : (r.recordAll us).globals.keys = r.globals.keys := by
  have known : ∀ definition ∈ us.map (·.1), id definition ∈ r.globals.keys :=
    List.forall_mem_map.mpr fun u hu => List.mem_toFinset.mp (h u hu)
  rw [keys_recordAll, firstFrom_eq_nil known, List.append_nil]

/-- A registry knows no more than another one does. -/
structure Registry.Within (r r' : Registry) : Prop where
  declared : r.declared ⊆ r'.declared
  definitions : r.definitions ⊆ r'.definitions

theorem Build.Follows.within {s : Style} {evs : List Event} {b b' : Build} (h : Follows s evs b b') :
    b.registry.Within b'.registry where
  declared n hn := (h.mem_declared n).mpr (.inl hn)
  definitions := h.definitions ▸ subset_usedAfter _ _

namespace Run

theorem style_buildAll (run : Run) (calls : List (List Field × String)) :
    (run.buildAll calls).2.style = run.style := by
  induction calls generalizing run with
  | nil => rfl
  | cons call calls ih => exact ih (run.build call.1 call.2).2

/-- A build on a registry that knows all that an earlier one of the same fields left behind. -/
theorem build_of_within {s : Style} {r r' : Registry} {fs : List Field} {parent : String}
    (known : ((Run.mk s r).build fs parent).2.registry.Within r') :
    let first := (Run.mk s r).build fs parent
    let second := (Run.mk s r').build fs parent
    second.1.declarations = [] ∧
      second.2.registry.declared = r'.declared ∧
      second.2.registry.globals.keys = r'.globals.keys ∧
      second.1.references.Sublist first.1.references ∧
      second.1.files.Sublist first.1.files := by
  intro first second
  have before := (Run.mk s r).follows_build fs parent
  have now := (Run.mk s r').follows_build fs parent
  have used : usedAfter r.definitions (eventsOf s parent r.definitions fs) ⊆ r'.definitions :=
    (show first.2.registry.definitions = _ from before.definitions) ▸ known.definitions
  have sublist := sublist_eventsOf s fs parent used
  have names : ∀ e ∈ emissions (eventsOf s parent r'.definitions fs), e.name s ∈ r'.declared := by
    intro e he
    have due : e ∈ emissions (eventsOf s parent r.definitions fs) := (sublist.filterMap _).subset he
    exact known.declared ((before.mem_declared (e.name s)).mpr (.inr (List.mem_map_of_mem due)))
  have none : made s r'.declared (emissions (eventsOf s parent r'.definitions fs)) = [] :=
    firstFrom_eq_nil names
  have uses : ∀ u ∈ uses (eventsOf s parent r'.definitions fs), u.1 ∈ r'.definitions := by
    intro u hu
    have hu : u ∈ Event.uses (eventsOf s parent r.definitions fs) := (sublist.filterMap _).subset hu
    exact used (mem_usedAfter.mpr (.inr (List.mem_map_of_mem hu)))
  refine ⟨?_, ?_, ?_, ?_, ?_⟩
  · rw [declarations_build, none, List.map_nil]
  · have declared := now.declared
    rw [none] at declared
    exact declared
  · exact (congrArg OrderedMap.keys now.globals).trans (Registry.keys_recordAll_of_known uses)
  · rw [references_build, references_build]
    exact sublist.filterMap _
  · rw [files_build, files_build]
    exact sublist.filterMap _

/-- Building the same fields for the same parent again, whatever has been built meanwhile, returns the
same map and declares nothing; it adds users to definitions that have some. What it finds was found the
first time, and it finds all of that where global fields have no types of their own. -/
theorem rebuild_declares_nothing (run : Run) (fs : List Field) (parent : String)
    (meanwhile : List (List Field × String)) :
    let first := run.build fs parent
    let later := (first.2.buildAll meanwhile).2
    let second := later.build fs parent
    second.1.fields = first.1.fields ∧ second.1.types = [] ∧
      second.2.registry.declared = later.registry.declared ∧
      second.2.registry.globals.keys = later.registry.globals.keys ∧
      second.1.references.Sublist first.1.references ∧
      second.1.files.Sublist first.1.files ∧
      (run.style.options.separateGlobals = false →
        second.1.references = first.1.references ∧ second.1.files = first.1.files) := by
  intro first later second
  have style : later.style = run.style := first.2.style_buildAll meanwhile
  have same : later = ⟨run.style, later.registry⟩ := congrArg (Run.mk · later.registry) style
  have within : first.2.registry.Within later.registry := (first.2.follows_buildAll meanwhile).within
  have again : second = (Run.mk run.style later.registry).build fs parent :=
    congrArg (Run.build · fs parent) same
  obtain ⟨declarations, declared, keys, references, files⟩ := build_of_within within
  rw [← again] at declarations declared keys references files
  refine ⟨?_, ?_, declared, keys, references, files, fun off => ?_⟩
  · rw [again]
    rfl
  · rw [Built.types, declarations, List.map_nil]
  · have events : eventsOf run.style parent later.registry.definitions fs =
        eventsOf run.style parent run.registry.definitions fs := by
      rw [eventsOf_eq_of_off off, eventsOf_eq_of_off off]
    rw [again]
    constructor
    · rw [references_build, references_build]
      exact congrArg Event.references events
    · rw [files_build, files_build]
      exact congrArg Event.files events

theorem rebuild_declares_nothing_seo :
    let run : Run := ⟨⟨"CS", {}⟩, {}⟩
    let seo : Field := .make "seo" (.globalField "seo"
      [.make "image" .file, .make "page" (.reference ["page"])])
    let first := run.build [seo] "CS_page"
    let second := (first.2.buildAll [([seo], "CS_post")]).2.build [seo] "CS_page"
    run.style.options.separateGlobals = false ∧
      second.1.types = [] ∧ second.1.references = first.1.references ∧
      first.1.references = [⟨"CS_page_seo", "page"⟩] ∧
      second.2.registry.users? "seo" = some ["CS_page", "CS_post", "CS_page"] := by
  intro run seo first second
  have again := rebuild_declares_nothing run [seo] "CS_page" [([seo], "CS_post")]
  exact ⟨rfl, again.2.1, (again.2.2.2.2.2.2 rfl).1, by decide, by decide⟩

/-- Where definitions are shared, the second build does not come to what is inside of them. -/
example :
    let run : Run := ⟨⟨"CS", ⟨false, true⟩⟩, {}⟩
    let seo : Field := .make "seo" (.globalField "seo" [.make "page" (.reference ["page"])])
    let first := run.build [seo] "CS_page"
    let second := first.2.build [seo] "CS_page"
    first.1.references = [⟨"seo", "page"⟩] ∧ second.1.references = [] := by
  decide

end Run

end ContentSdl
