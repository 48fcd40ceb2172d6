import ContentSdl.Proofs.InsertionOrder
import ContentSdl.Proofs.UsedBefore

/-! # The order of builds does not matter to what a run produces -/

namespace ContentSdl

open Event

/-- Where global fields have no types of their own, what was used before changes nothing. -/
theorem events_eq_of_off {s : Style} (off : s.options.separateGlobals = false) (f : Field)
    (parent : String) (used : Finset String) : f.events s parent used = f.events s parent ∅ := by
  apply events_congr
  intro on
  rw [off] at on
  cases on

theorem eventsOf_eq_of_off {s : Style} (off : s.options.separateGlobals = false)
    (fs : List Field) (parent : String) (used : Finset String) :
    eventsOf s parent used fs = fs.flatMap fun f => f.events s parent ∅ := by
  induction fs generalizing used with
  | nil => rw [eventsOf_nil, List.flatMap_nil]
  | cons f fs ih => rw [eventsOf_cons, events_eq_of_off off, ih, List.flatMap_cons]

theorem eventsOfAll_eq_of_off {s : Style} (off : s.options.separateGlobals = false)
    (calls : List (List Field × String)) (used : Finset String) :
    eventsOfAll s used calls =
      calls.flatMap fun call => call.1.flatMap fun f => f.events s call.2 ∅ := by
  induction calls generalizing used with
  | nil => rfl
  | cons call calls ih => rw [eventsOfAll, eventsOf_eq_of_off off, ih, List.flatMap_cons]

/-- Builds in another order have the same events in another order. -/
theorem eventsOfAll_perm {s : Style} {calls calls' : List (List Field × String)}
    (h : calls.Perm calls')
    (consistent : s.options.separateGlobals = true → Consistent (calls.flatMap Prod.fst)) :
    (eventsOfAll s ∅ calls).Perm (eventsOfAll s ∅ calls') := by
  cases hs : s.options.separateGlobals with
  | false =>
    rw [eventsOfAll_eq_of_off hs, eventsOfAll_eq_of_off hs]
    exact h.flatMap_right _
  | true =>
    obtain ⟨c, covers⟩ := (consistent hs).exists_catalog
    have covers' : c.Covers (calls'.flatMap Prod.fst) :=
      covers.mono (h.symm.flatMap_right Prod.fst).subset
    exact (expansion_eventsOfAll hs covers ∅).perm (expansion_eventsOfAll hs covers' ∅)
      (h.flatMap_right _)

namespace Run

theorem fields_buildAll (run : Run) (calls : List (List Field × String)) :
    (run.buildAll calls).1.map Built.fields =
      calls.map fun call => fieldMap run.style call.2 call.1 := by
  induction calls generalizing run with
  | nil => rfl
  | cons call calls ih =>
    exact congrArg (fieldMap run.style call.2 call.1 :: ·) (ih (run.build call.1 call.2).2)

theorem references_buildAll (run : Run) (calls : List (List Field × String)) :
    (run.buildAll calls).1.flatMap Built.references =
      references (eventsOfAll run.style run.registry.definitions calls) :=
  (run.follows_buildAll calls).references

theorem files_buildAll (run : Run) (calls : List (List Field × String)) :
    (run.buildAll calls).1.flatMap Built.files =
      files (eventsOfAll run.style run.registry.definitions calls) :=
  (run.follows_buildAll calls).files

theorem definitions_buildAll (run : Run) (calls : List (List Field × String)) :
    (run.buildAll calls).2.registry.definitions =
      usedAfter run.registry.definitions
        (eventsOfAll run.style run.registry.definitions calls) :=
  (run.follows_buildAll calls).definitions

theorem users_buildAll (run : Run) (calls : List (List Field × String)) (definition : String) :
    ((run.buildAll calls).2.registry.users? definition).getD [] =
      (run.registry.users? definition).getD [] ++
        ((uses (eventsOfAll run.style run.registry.definitions calls)).filter
          (·.1 = definition)).map (·.2) := by
  rw [← Registry.users?_recordAll]
  exact congrArg (fun g => (g.get? definition).getD []) (run.follows_buildAll calls).globals

/-- Builds in another order on a fresh run give the same field maps, and in all the same references
and files, declared names and used definitions with the same users. -/
theorem buildAll_perm (s : Style) {calls calls' : List (List Field × String)}
    (h : calls.Perm calls')
    (consistent : s.options.separateGlobals = true → Consistent (calls.flatMap Prod.fst)) :
    let (builts, run) := (Run.mk s {}).buildAll calls
    let (builts', run') := (Run.mk s {}).buildAll calls'
    let fieldsOf : List Field × String → FieldMap := fun call => fieldMap s call.2 call.1
    builts.map Built.fields = calls.map fieldsOf ∧
      builts'.map Built.fields = calls'.map fieldsOf ∧
      (builts.flatMap Built.references).Perm (builts'.flatMap Built.references) ∧
      (builts.flatMap Built.files).Perm (builts'.flatMap Built.files) ∧
      (∀ n, n ∈ run.registry.declared ↔ n ∈ run'.registry.declared) ∧
      run.registry.definitions = run'.registry.definitions ∧
      ∀ definition, ((run.registry.users? definition).getD []).Perm
        ((run'.registry.users? definition).getD []) := by
  have events : (eventsOfAll s ∅ calls).Perm (eventsOfAll s ∅ calls') :=
    eventsOfAll_perm h consistent
  refine ⟨fields_buildAll _ calls, fields_buildAll _ calls', ?_, ?_, ?_, ?_, ?_⟩
  · rw [references_buildAll, references_buildAll]
    exact events.filterMap _
  · rw [files_buildAll, files_buildAll]
    exact events.filterMap _
  · intro n
    have names := ((events.filterMap _ : (emissions _).Perm (emissions _)).map
      (Emission.name s)).mem_iff (a := n)
    rw [mem_declared_buildAll, mem_declared_buildAll]
    exact or_congr_right names
  · rw [definitions_buildAll, definitions_buildAll]
    ext definition
    rw [mem_usedAfter, mem_usedAfter]
    have forth := definitions_subset events.subset
    have back := definitions_subset events.symm.subset
    exact or_congr_right ⟨fun hd => forth hd, fun hd => back hd⟩
  · intro definition
    rw [users_buildAll, users_buildAll]
    have uses : (uses _).Perm (uses _) := events.filterMap _
    exact ((uses.filter _).map _).append_left _

/-- A definition that both of two builds use is entered by the first of them, whichever that is. -/
theorem buildAll_swap_shared :
    let s : Style := ⟨"CS", { separateGlobals := true }⟩
    let card : Field := .make "card" (.globalField "card" [.make "image" .file])
    let seo : Field := .make "seo" (.globalField "seo" [card])
    let calls := [([seo], "CS_page"), ([card], "CS_post")]
    let (builts, run) := (Run.mk s {}).buildAll calls
    let (builts', run') := (Run.mk s {}).buildAll calls.reverse
    Consistent (calls.flatMap Prod.fst) ∧ run.registry ≠ run'.registry ∧
      (builts.flatMap Built.files).Perm (builts'.flatMap Built.files) ∧
      ∀ definition, ((run.registry.users? definition).getD []).Perm
        ((run'.registry.users? definition).getD []) := by
  intro s card seo calls
  have schemas : ∀ f, Occurs f (calls.flatMap Prod.fst) → ∀ definition schema,
      f.kind = .globalField definition schema →
        schema = if definition = "seo" then [card] else [.make "image" .file] := by
    intro f hf definition schema kind
    have among : (f = seo ∨ f = card) ∨ f = .make "image" .file := by
      simp [calls, seo, card, Field.children, Field.make] at hf
      tauto
    rcases among with (rfl | rfl) | rfl
    · cases kind
      rfl
    · cases kind
      rfl
    · cases kind
  have consistent : Consistent (calls.flatMap Prod.fst) := by
    intro f g hf hg definition schema schema' kind kind' _ _
    rw [schemas f hf definition schema kind, schemas g hg definition schema' kind']
  obtain ⟨-, -, -, files, -, -, users⟩ :=
    buildAll_perm s (List.reverse_perm calls).symm (fun _ => consistent)
  exact ⟨consistent, by decide, files, users⟩

end Run

end ContentSdl
