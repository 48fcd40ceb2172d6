import ContentSdl.Proofs.BuildEvents

/-! # Builds one after another on one run -/

namespace ContentSdl

open Event

namespace Run

/-- Builds schemas in turn on the same registry, each for the parent that comes with it. -/
def buildAll (run : Run) : List (List Field × String) → List Built × Run
  | [] => ([], run)
  | call :: calls =>
    let first := run.build call.1 call.2
    let rest := first.2.buildAll calls
    (first.1 :: rest.1, rest.2)

theorem length_buildAll (run : Run) (calls : List (List Field × String)) :
    (run.buildAll calls).1.length = calls.length := by
  induction calls generalizing run with
  | nil => rfl
  | cons call calls ih => exact congrArg (· + 1) (ih (run.build call.1 call.2).2)

end Run

/-- The events of builds in turn; each goes by the definitions that the earlier ones used. -/
def eventsOfAll (s : Style) (used : Finset String) : List (List Field × String) → List Event
  | [] => []
  | call :: calls =>
    let evs := eventsOf s call.2 used call.1
    evs ++ eventsOfAll s (usedAfter used evs) calls

namespace Build

/-- What builds produced in all, on a run that they left with a registry. -/
def total (r : Registry) (builts : List Built) : Build where
  registry := r
  declarations := builts.flatMap Built.declarations
  references := builts.flatMap Built.references
  files := builts.flatMap Built.files

/-- What follows an empty build follows any build on the same registry. -/
theorem Follows.after {s : Style} {evs : List Event} {b b' : Build}
    (h : Follows s evs { registry := b.registry } b') :
    Follows s evs b
      { registry := b'.registry
        declarations := b.declarations ++ b'.declarations
        references := b.references ++ b'.references
        files := b.files ++ b'.files } where
  declared := h.declared
  globals := h.globals
  declarations := congrArg (b.declarations ++ ·) h.declarations
  references := congrArg (b.references ++ ·) h.references
  files := congrArg (b.files ++ ·) h.files

end Build

namespace Run

theorem follows_buildAll (run : Run) (calls : List (List Field × String)) :
    Build.Follows run.style (eventsOfAll run.style run.registry.definitions calls)
      { registry := run.registry }
      (Build.total (run.buildAll calls).2.registry (run.buildAll calls).1) := by
  induction calls generalizing run with
  | nil => exact .refl run.style { registry := run.registry }
  | cons call calls ih =>
    have head := run.follows_build call.1 call.2
    have tail := ih (run.build call.1 call.2).2
    have used : (run.build call.1 call.2).2.registry.definitions = _ := head.definitions
    rw [used] at tail
    exact head.trans tail.after

/-- The declarations of all builds are the first emissions of names that were not declared. -/
theorem declarations_buildAll (run : Run) (calls : List (List Field × String)) :
    (run.buildAll calls).1.flatMap Built.declarations =
      (made run.style run.registry.declared
        (emissions (eventsOfAll run.style run.registry.definitions calls))).map
          (Emission.declaration run.style) :=
  (run.follows_buildAll calls).declarations

/-- No two builds of a run declare the same name, nor does one build twice. -/
theorem nodup_names_buildAll (run : Run) (calls : List (List Field × String)) :
    (((run.buildAll calls).1.flatMap Built.declarations).map Declaration.name).Nodup := by
  rw [declarations_buildAll, List.map_map]
  exact (firstFrom_keys (Emission.name run.style) run.registry.declared _).1

theorem mem_names_buildAll (run : Run) (calls : List (List Field × String)) (n : String) :
    n ∈ ((run.buildAll calls).1.flatMap Built.declarations).map Declaration.name ↔
      n ∉ run.registry.declared ∧
        n ∈ (emissions (eventsOfAll run.style run.registry.definitions calls)).map
          (Emission.name run.style) := by
  rw [declarations_buildAll, List.map_map]
  exact mem_names_made run.style run.registry.declared _ n

theorem mem_declared_buildAll (run : Run) (calls : List (List Field × String)) (n : String) :
    n ∈ (run.buildAll calls).2.registry.declared ↔
      n ∈ run.registry.declared ∨
        n ∈ (emissions (eventsOfAll run.style run.registry.definitions calls)).map
          (Emission.name run.style) :=
  (run.follows_buildAll calls).mem_declared n

end Run

end ContentSdl
