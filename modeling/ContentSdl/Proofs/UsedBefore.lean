import ContentSdl.Proofs.Expansion

/-! # What was used before matters to fields only as far as it stands in them -/

namespace ContentSdl

open Event

/-- A global field of a definition stands with a schema among or below some fields. -/
def Embeds (definition : String) (fs : List Field) : Prop :=
  ∃ f schema, Occurs f fs ∧ f.kind = .globalField definition schema ∧ schema ≠ []

theorem Embeds.mono {definition : String} {fs gs : List Field} (h : Embeds definition fs)
    (hs : fs ⊆ gs) : Embeds definition gs := by
  obtain ⟨f, schema, hf, kind, hne⟩ := h
  exact ⟨f, schema, hf.mono hs, kind, hne⟩

theorem Embeds.inside {definition : String} {f : Field} {fs : List Field}
    (h : Embeds definition f.children) (hf : f ∈ fs) : Embeds definition fs := by
  obtain ⟨g, schema, hg, kind, hne⟩ := h
  exact ⟨g, schema, .inside hf hg, kind, hne⟩

@[simp] theorem not_embeds_nil (definition : String) : ¬Embeds definition [] := by
  simp [Embeds]

@[simp] theorem embeds_cons {definition : String} {f : Field} {fs : List Field} :
    Embeds definition (f :: fs) ↔
      ((∃ schema, f.kind = .globalField definition schema ∧ schema ≠ []) ∨
        Embeds definition f.children) ∨ Embeds definition fs := by
  constructor
  · rintro ⟨g, schema, hg, kind, hne⟩
    rcases occurs_cons.mp hg with (rfl | hg) | hg
    · exact .inl (.inl ⟨schema, kind, hne⟩)
    · exact .inl (.inr ⟨g, schema, hg, kind, hne⟩)
    · exact .inr ⟨g, schema, hg, kind, hne⟩
  · rintro ((⟨schema, kind, hne⟩ | h) | h)
    · exact ⟨f, schema, .here List.mem_cons_self, kind, hne⟩
    · exact h.inside List.mem_cons_self
    · exact h.mono (List.subset_cons_self f fs)

/-- Where global fields have types of their own, two sets of definitions agree on those that stand in
some fields. -/
def AgreeOn (s : Style) (fs : List Field) (used used' : Finset String) : Prop :=
  s.options.separateGlobals = true →
    ∀ definition, Embeds definition fs → (definition ∈ used ↔ definition ∈ used')

namespace AgreeOn

variable {s : Style} {fs gs : List Field} {used used' : Finset String}

theorem mono (h : AgreeOn s gs used used') (hs : fs ⊆ gs) : AgreeOn s fs used used' :=
  fun on definition embeds => h on definition (embeds.mono hs)

theorem inside {f : Field} (h : AgreeOn s [f] used used') (hs : fs ⊆ f.children) :
    AgreeOn s fs used used' :=
  fun on definition embeds =>
    h on definition ((embeds.mono hs).inside (List.mem_singleton_self f))

theorem usedAfter (h : AgreeOn s fs used used') (evs : List Event) :
    AgreeOn s fs (usedAfter used evs) (usedAfter used' evs) := by
  intro on definition embeds
  rw [mem_usedAfter, mem_usedAfter, h on definition embeds]

theorem insert (h : AgreeOn s fs used used') (definition : String) :
    AgreeOn s fs (insert definition used) (insert definition used') := by
  intro on other embeds
  rw [Finset.mem_insert, Finset.mem_insert, h on other embeds]

end AgreeOn

section

variable {s : Style}

private theorem eventsOf_congr_of_each {parent : String} {fs : List Field}
    (each : ∀ f ∈ fs, ∀ used used', AgreeOn s [f] used used' →
      f.events s parent used = f.events s parent used')
    {used used' : Finset String} (h : AgreeOn s fs used used') :
    eventsOf s parent used fs = eventsOf s parent used' fs := by
  induction fs generalizing used used' with
  | nil => rw [eventsOf_nil, eventsOf_nil]
  | cons f fs ih =>
    obtain ⟨hf, hfs⟩ := List.forall_mem_cons.mp each
    have head := hf used used' (h.mono (by simp))
    have tail := ih hfs ((h.mono (List.subset_cons_self f fs)).usedAfter (f.events s parent used'))
    rw [eventsOf_cons, eventsOf_cons, head, tail]

theorem events_congr (f : Field) {parent : String} {used used' : Finset String}
    (h : AgreeOn s [f] used used') : f.events s parent used = f.events s parent used' := by
  induction f using Field.tree_induction generalizing parent used used' with
  | step f ih =>
    have below {fs : List Field} (hfs : fs ⊆ f.children) (name : String) {used used' : Finset String}
        (h : AgreeOn s fs used used') : eventsOf s name used fs = eventsOf s name used' fs :=
      eventsOf_congr_of_each (fun g hg _ _ h => ih g (hfs hg) h) h
    have self (definition : String) (schema : List Field)
        (kind : f.kind = .globalField definition schema) (hne : schema ≠ []) :
        s.options.separateGlobals = true → (definition ∈ used ↔ definition ∈ used') :=
      fun on => h on definition ⟨f, schema, .here (List.mem_singleton_self f), kind, hne⟩
    have inner {fs : List Field} (hfs : fs ⊆ f.children) : AgreeOn s fs used used' := h.inside hfs
    obtain ⟨uid, displayName, mandatory, multiple, kind⟩ := f
    cases kind with
    | scalar | file | reference | unknown => rw [Field.events, Field.events]
    | group schema =>
      rw [Field.events, Field.events, below (List.Subset.refl schema) _ (inner (List.Subset.refl _))]
    | globalField definition schema =>
      rw [Field.events, Field.events]
      by_cases hne : schema = []
      · rw [if_pos hne, if_pos hne]
      · have known : s.options.separateGlobals = true ∧ definition ∈ used ↔
            s.options.separateGlobals = true ∧ definition ∈ used' :=
          and_congr_right (self definition schema rfl hne)
        rw [if_neg hne, if_neg hne, below (List.Subset.refl schema) _
          ((inner (List.Subset.refl _)).insert definition)]
        simp only [known]
    | blocks variants =>
      rw [Field.events, Field.events, below (mergedSchema_subset variants) _
        (inner (mergedSchema_subset variants))]

theorem eventsOf_congr {fs : List Field} {parent : String} {used used' : Finset String}
    (h : AgreeOn s fs used used') : eventsOf s parent used fs = eventsOf s parent used' fs :=
  eventsOf_congr_of_each (fun f _ _ _ h => events_congr f h) h

end

end ContentSdl
