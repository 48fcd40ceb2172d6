import ContentSdl.Typing

/-! # The fields below a field -/

namespace ContentSdl

namespace Field

/-- The fields of the schemas that a field holds, those of all variants in turn. -/
def children (f : Field) : List Field :=
  match f.kind with
  | .group schema => schema
  | .globalField _ schema => schema
  | .blocks variants => variants.flatMap Block.schema
  | .scalar _ | .file | .reference _ | .unknown _ => []

private theorem sizeOf_schema_lt {b : Block} {variants : List Block} (h : b ∈ variants) :
    sizeOf b.schema < sizeOf variants := by
  have hb := List.sizeOf_lt_of_mem h
  obtain ⟨uid, title, schema⟩ := b
  rw [Block.mk.sizeOf_spec] at hb
  dsimp only
  omega

theorem sizeOf_lt_of_mem_children {f g : Field} (h : g ∈ f.children) : sizeOf g < sizeOf f := by
  obtain ⟨uid, displayName, mandatory, multiple, kind⟩ := f
  rw [Field.mk.sizeOf_spec]
  cases kind with
  | group schema =>
    have hg := List.sizeOf_lt_of_mem (show g ∈ schema from h)
    rw [FieldKind.group.sizeOf_spec]
    omega
  | globalField definition schema =>
    have hg := List.sizeOf_lt_of_mem (show g ∈ schema from h)
    rw [FieldKind.globalField.sizeOf_spec]
    omega
  | blocks variants =>
    obtain ⟨b, hb, hg⟩ := List.mem_flatMap.mp (show g ∈ variants.flatMap Block.schema from h)
    have hs := sizeOf_schema_lt hb
    have hg := List.sizeOf_lt_of_mem hg
    rw [FieldKind.blocks.sizeOf_spec]
    omega
  | scalar | file | reference | unknown => cases h

/-- What holds of a field as soon as it holds of the fields right below it holds of all fields. -/
@[elab_as_elim]
theorem tree_induction {P : Field → Prop} (step : ∀ f, (∀ g ∈ f.children, P g) → P f)
    (f : Field) : P f :=
  step f fun g hg =>
    have := sizeOf_lt_of_mem_children hg
    tree_induction step g
termination_by sizeOf f

end Field

/-- A field stands in a list of fields, or in a schema below one of them. -/
inductive Occurs (f : Field) : List Field → Prop where
  | here {fs : List Field} (h : f ∈ fs) : Occurs f fs
  | inside {fs : List Field} {g : Field} (h : g ∈ fs) (deeper : Occurs f g.children) : Occurs f fs

theorem Occurs.mono {f : Field} {fs gs : List Field} (h : Occurs f fs) (hs : fs ⊆ gs) :
    Occurs f gs := by
  cases h with
  | here h => exact .here (hs h)
  | inside h deeper => exact .inside (hs h) deeper

theorem occurs_flatMap {α : Type} {as : List α} {schema : α → List Field} {f : Field} :
    Occurs f (as.flatMap schema) ↔ ∃ a ∈ as, Occurs f (schema a) := by
  constructor
  · intro h
    cases h with
    | here h =>
      obtain ⟨a, ha, hf⟩ := List.mem_flatMap.mp h
      exact ⟨a, ha, .here hf⟩
    | inside h deeper =>
      obtain ⟨a, ha, hg⟩ := List.mem_flatMap.mp h
      exact ⟨a, ha, .inside hg deeper⟩
  · rintro ⟨a, ha, h⟩
    exact h.mono fun g hg => List.mem_flatMap.mpr ⟨a, ha, hg⟩

/-- The merged schema of variants leaves out fields, and adds none. -/
theorem mergedSchema_subset (variants : List Block) :
    mergedSchema variants ⊆ variants.flatMap Block.schema :=
  (firstBy_sublist Field.uid _).subset

end ContentSdl
