import ContentSdl.Proofs.FieldTree
import ContentSdl.Run
import Mathlib.Data.Finset.Basic
import Mathlib.Data.Finset.Union

/-! # What a build does, as a sequence of events that is told without a registry -/

namespace ContentSdl

/-- A declaration that is due; it is made unless its name is taken. -/
inductive Emission where
  | assets
  | placeholder (target : String)
  | union (targets : List String)
  | object (name : String) (node : Bool) (schema : List Field)

namespace Emission

def declaration (s : Style) : Emission → Declaration
  | .assets => assetsDeclaration (assetsName s.typePrefix)
  | .placeholder target => ContentSdl.placeholder (targetName s.typePrefix target)
  | .union targets =>
    .union (unionName s.typePrefix targets) (targets.map (targetName s.typePrefix))
  | .object name node schema => .object name node (.fields (fieldMap s name schema))

def name (s : Style) (e : Emission) : String := (e.declaration s).name

/-- What a reference to distinct targets needs: their placeholders, and the union of several. -/
def ofTargets (targets : List String) : List Emission :=
  targets.map .placeholder ++ if 1 < targets.length then [.union targets] else []

end Emission

inductive Event where
  | file (f : FileField)
  | use (definition user : String)
  | emit (e : Emission)
  | reference (r : Reference)

namespace Event

def files (evs : List Event) : List FileField :=
  evs.filterMap fun
    | .file f => some f
    | _ => none

/-- The uses of global field definitions, each with its user. -/
def uses (evs : List Event) : List (String × String) :=
  evs.filterMap fun
    | .use definition user => some (definition, user)
    | _ => none

def emissions (evs : List Event) : List Emission :=
  evs.filterMap fun
    | .emit e => some e
    | _ => none

def references (evs : List Event) : List Reference :=
  evs.filterMap fun
    | .reference r => some r
    | _ => none

/-- The definitions that have been used after the events if some had been before. -/
def usedAfter (used : Finset String) (evs : List Event) : Finset String :=
  used ∪ ((uses evs).map (·.1)).toFinset

end Event

private theorem sizeOf_append (fs gs : List Field) :
    sizeOf (fs ++ gs) + 1 = sizeOf fs + sizeOf gs := by
  induction fs with
  | nil => simp; omega
  | cons f fs ih =>
    simp only [List.cons_append, List.cons.sizeOf_spec]
    omega

private theorem sizeOf_le_of_sublist {fs gs : List Field} (h : fs.Sublist gs) :
    sizeOf fs ≤ sizeOf gs := by
  induction h with
  | slnil => exact Nat.le_refl _
  | cons g _ ih =>
    rw [List.cons.sizeOf_spec]
    omega
  | cons_cons g _ ih =>
    simp only [List.cons.sizeOf_spec]
    omega

private theorem sizeOf_schemas_le (variants : List Block) :
    sizeOf (variants.flatMap Block.schema) ≤ sizeOf variants := by
  induction variants with
  | nil => simp
  | cons b variants ih =>
    obtain ⟨uid, title, schema⟩ := b
    have h := sizeOf_append schema (variants.flatMap Block.schema)
    simp only [List.flatMap_cons, List.cons.sizeOf_spec, Block.mk.sizeOf_spec]
    omega

theorem sizeOf_mergedSchema_le (variants : List Block) :
    sizeOf (mergedSchema variants) ≤ sizeOf variants :=
  Nat.le_trans (sizeOf_le_of_sublist (firstBy_sublist Field.uid _)) (sizeOf_schemas_le variants)

mutual
/-- The events of a field under a parent, if some definitions have been used before. -/
def Field.events (s : Style) (parent : String) (used : Finset String) : Field → List Event
  | ⟨_, _, _, _, .scalar _⟩ => []
  | ⟨uid, displayName, mandatory, multiple, .file⟩ =>
    [.file ⟨parent, ⟨uid, displayName, mandatory, multiple, .file⟩⟩, .emit .assets]
  | ⟨uid, _, _, _, .group schema⟩ =>
    if schema = [] then []
    else
      eventsOf s (objectName parent uid) used schema ++
        [.emit (.object (objectName parent uid) true schema)]
  | ⟨uid, _, _, _, .globalField definition schema⟩ =>
    if schema = [] then []
    else if s.options.separateGlobals = true ∧ definition ∈ used then [.use definition parent]
    else
      .use definition parent ::
        eventsOf s (globalName s.options parent uid definition) (insert definition used) schema ++
          [.emit (.object (globalName s.options parent uid definition) true schema)]
  | ⟨uid, _, _, _, .blocks variants⟩ =>
    if variants = [] then []
    else
      eventsOf s (objectName parent uid) used (mergedSchema variants) ++
        [.emit (.object (objectName parent uid) false (mergedSchema variants))]
  | ⟨uid, _, _, _, .reference targets⟩ =>
    if targets = [] then []
    else (Emission.ofTargets (distinct targets)).map .emit ++ [.reference ⟨parent, uid⟩]
  | ⟨_, _, _, _, .unknown _⟩ => []
termination_by f => sizeOf f
decreasing_by
  · simp; omega
  · simp; omega
  · have := sizeOf_mergedSchema_le variants
    simp only [Field.mk.sizeOf_spec, FieldKind.blocks.sizeOf_spec]
    omega

/-- The events of fields in order; each field goes by the definitions that the earlier ones used. -/
def eventsOf (s : Style) (parent : String) (used : Finset String) : List Field → List Event
  | [] => []
  | f :: fs =>
    let evs := f.events s parent used
    evs ++ eventsOf s parent (Event.usedAfter used evs) fs
termination_by fs => sizeOf fs
end

@[simp] theorem eventsOf_nil (s : Style) (parent : String) (used : Finset String) :
    eventsOf s parent used [] = [] := by
  rw [eventsOf]

theorem eventsOf_cons (s : Style) (parent : String) (used : Finset String) (f : Field)
    (fs : List Field) : eventsOf s parent used (f :: fs) =
      f.events s parent used ++
        eventsOf s parent (Event.usedAfter used (f.events s parent used)) fs := by
  rw [eventsOf]

end ContentSdl
