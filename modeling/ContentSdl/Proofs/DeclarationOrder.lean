import ContentSdl.Proofs.Closure
import ContentSdl.Proofs.UsedBefore

/-! # Declarations come after what they mention

The types of the fields of an object are emitted before the object itself. Only a global field whose
definition is being walked names a type that is still to come, so definitions that were used before are
either open or declared. -/

namespace ContentSdl

open Event

/-- No global field with a schema stands below another one of the same definition. -/
def Unnested (fs : List Field) : Prop :=
  ∀ f, Occurs f fs → ∀ definition schema, f.kind = .globalField definition schema →
    ¬Embeds definition schema

theorem Unnested.mono {fs gs : List Field} (h : Unnested gs) (hs : fs ⊆ gs) : Unnested fs :=
  fun f hf => h f (hf.mono hs)

@[simp] theorem unnested_nil : Unnested [] := by
  simp [Unnested]

@[simp] theorem unnested_cons {f : Field} {fs : List Field} :
    Unnested (f :: fs) ↔
      ((∀ definition schema, f.kind = .globalField definition schema → ¬Embeds definition schema) ∧
        Unnested f.children) ∧ Unnested fs := by
  constructor
  · intro h
    refine ⟨⟨h f (.here List.mem_cons_self), fun g hg => ?_⟩, h.mono (List.subset_cons_self f fs)⟩
    exact h g (.inside List.mem_cons_self hg)
  · rintro ⟨⟨head, inside⟩, tail⟩ g hg
    rcases occurs_cons.mp hg with (rfl | hg) | hg
    · exact head
    · exact inside g hg
    · exact tail g hg

theorem Emission.Closed.weaken {s : Style} {fs : List Field} {known known' : String → Prop}
    {e : Emission} (h : e.Closed s fs known) (hk : ∀ n, known n → known' n) : e.Closed s fs known' := by
  cases e with
  | assets => trivial
  | placeholder target => trivial
  | union targets => exact fun target ht => hk _ (h target ht)
  | object name node schema => exact ⟨h.1, fun f hf n hn => (h.2 f hf n hn).imp_right (hk n)⟩

/-- The names that are taken after some emissions. -/
def takenAfter (s : Style) (taken : List String) (es : List Emission) : List String :=
  (es.map (Emission.name s)).reverse ++ taken

theorem mem_takenAfter {s : Style} {taken : List String} {es : List Emission} {n : String} :
    n ∈ takenAfter s taken es ↔ n ∈ es.map (Emission.name s) ∨ n ∈ taken := by
  rw [takenAfter, List.mem_append, List.mem_reverse]

theorem takenAfter_append (s : Style) (taken : List String) (es es' : List Emission) :
    takenAfter s taken (es ++ es') = takenAfter s (takenAfter s taken es) es' := by
  simp [takenAfter]

/-- Each emission relies only on names that are taken when its turn comes. -/
inductive InOrder (s : Style) (fs : List Field) : List String → List Emission → Prop where
  | nil (taken : List String) : InOrder s fs taken []
  | cons {taken : List String} {e : Emission} {es : List Emission} (head : e.Closed s fs (· ∈ taken))
    (tail : InOrder s fs (e.name s :: taken) es) : InOrder s fs taken (e :: es)

namespace InOrder

variable {s : Style} {fs gs : List Field} {taken taken' : List String} {es es' : List Emission}

theorem imp (h : InOrder s fs taken es)
    (step : ∀ e known, Emission.Closed s fs known e → e.Closed s gs known) :
    InOrder s gs taken es := by
  induction h with
  | nil taken => exact .nil taken
  | cons head _ ih => exact .cons (step _ _ head) ih

theorem append (h : InOrder s fs taken es) (h' : InOrder s fs (takenAfter s taken es) es') :
    InOrder s fs taken (es ++ es') := by
  induction h with
  | nil taken => exact h'
  | @cons taken e es head _ ih =>
    refine .cons head (ih ?_)
    rwa [← List.singleton_append, takenAfter_append] at h'

/-- What is left out, since its name is taken, is not missed by what follows. -/
theorem made (h : InOrder s fs taken es) (ht : taken ⊆ taken') :
    InOrder s fs taken' (made s taken' es) := by
  induction h generalizing taken' with
  | nil => exact .nil taken'
  | @cons taken e es head _ ih =>
    rw [ContentSdl.made, firstFrom]
    split
    · rename_i he
      exact ih (List.cons_subset.mpr ⟨he, ht⟩)
    · exact .cons (head.weaken fun _ hn => ht hn) (ih (List.cons_subset_cons _ ht))

theorem closed_of_eq_append {before after : List Emission} {e : Emission}
    (h : InOrder s fs taken (before ++ e :: after)) :
    e.Closed s fs (· ∈ takenAfter s taken before) := by
  induction before generalizing taken with
  | nil =>
    cases h with
    | cons head _ => exact head
  | cons b before ih =>
    cases h with
    | cons _ tail =>
      rw [← List.singleton_append, takenAfter_append]
      exact ih tail

theorem ofTargets (targets : List String) : InOrder s fs taken (Emission.ofTargets targets) := by
  have placeholders (targets : List String) (taken : List String) :
      InOrder s fs taken (targets.map .placeholder) := by
    induction targets generalizing taken with
    | nil => exact .nil taken
    | cons target targets ih => exact .cons trivial (ih _)
  rw [Emission.ofTargets]
  apply (placeholders targets taken).append
  split
  · refine .cons (fun target ht => mem_takenAfter.mpr (.inl ?_)) (.nil _)
    rw [List.map_map]
    exact List.mem_map.mpr ⟨target, ht, rfl⟩
  · exact .nil _

end InOrder

/-- Fields may be visited: the definitions used before are open or declared, and none that is open
stands in the fields. -/
structure Ready (s : Style) (fs : List Field) (opened used : Finset String) (taken : List String) :
    Prop where
  settled : s.options.separateGlobals = true →
    ∀ definition ∈ used, definition ∈ opened ∨ definition ∈ taken
  apart : s.options.separateGlobals = true → ∀ definition ∈ opened, ¬Embeds definition fs
  unnested : s.options.separateGlobals = true → Unnested fs

/-- Definitions that events use are declared by them, or were used before. -/
theorem mem_names_of_uses {s : Style} {parent : String} {used : Finset String} {fs : List Field}
    (on : s.options.separateGlobals = true) {definition : String}
    (h : definition ∈ definitions (eventsOf s parent used fs)) :
    definition ∈ (emissions (eventsOf s parent used fs)).map (Emission.name s) ∨
      definition ∈ used := by
  have closed : ClosedEvents s parent fs
      (fun n => n ∈ (emissions (eventsOf s parent used fs)).map (Emission.name s) ∨ n ∈ used) _ :=
    closed_eventsOf fs parent used (fun e he => .inl (List.mem_map_of_mem he)) fun _ _ hd => .inr hd
  obtain ⟨u, hu, rfl⟩ := List.mem_map.mp h
  exact closed.uses on u hu

namespace Ready

variable {s : Style} {fs gs : List Field} {f : Field} {opened used : Finset String}
  {taken : List String}

theorem mono (h : Ready s gs opened used taken) (hs : fs ⊆ gs) : Ready s fs opened used taken where
  settled := h.settled
  apart on definition hd embeds := h.apart on definition hd (embeds.mono hs)
  unnested on := (h.unnested on).mono hs

theorem inside (h : Ready s [f] opened used taken) : Ready s f.inner opened used taken := by
  have hf := List.mem_singleton_self f
  have hs := f.inner_subset_children
  constructor
  · exact h.settled
  · exact fun on definition hd embeds => h.apart on definition hd ((embeds.mono hs).inside hf)
  · exact fun on g hg => h.unnested on g (.inside hf (hg.mono hs))

/-- A definition that is walked is open, and does not stand in its own schema. -/
theorem enter (h : Ready s [f] opened used taken) {definition : String} {schema : List Field}
    (kind : f.kind = .globalField definition schema) :
    Ready s schema (insert definition opened) (insert definition used) taken := by
  have inner : f.inner = schema := by rw [Field.inner, kind]
  have inside := h.inside
  rw [inner] at inside
  constructor
  · intro on other ho
    rcases Finset.mem_insert.mp ho with rfl | ho
    · exact .inl (Finset.mem_insert_self _ _)
    · exact (h.settled on other ho).imp_left (Finset.mem_insert_of_mem ·)
  · intro on other ho
    rcases Finset.mem_insert.mp ho with rfl | ho
    · exact h.unnested on f (.here (List.mem_singleton_self f)) _ schema kind
    · exact inside.apart on other ho
  · exact inside.unnested

/-- After some fields, the definitions that they used are declared. -/
theorem after (h : Ready s (fs ++ gs) opened used taken) (parent : String) :
    Ready s gs opened (usedAfter used (eventsOf s parent used fs))
      (takenAfter s taken (emissions (eventsOf s parent used fs))) := by
  have rest := h.mono (List.subset_append_right fs gs)
  refine ⟨fun on definition hd => ?_, rest.apart, rest.unnested⟩
  have before (hd : definition ∈ used) : definition ∈ opened ∨
      definition ∈ takenAfter s taken (emissions (eventsOf s parent used fs)) :=
    (h.settled on definition hd).imp_right fun ht => mem_takenAfter.mpr (.inr ht)
  rcases mem_usedAfter.mp hd with hd | hd
  · exact before hd
  · exact (mem_names_of_uses on hd).elim (fun hn => .inr (mem_takenAfter.mpr (.inl hn))) before

/-- The types of fields that have been visited are scalars or declared. -/
theorem types (h : Ready s fs opened used taken) (name : String) :
    ∀ f ∈ fs, ∀ n, f.typeName? s name = some n →
      n ∈ scalarTypes ∨ n ∈ takenAfter s taken (emissions (eventsOf s name used fs)) := by
  -- Those that are open do not matter, so they may count as not used.
  have same : eventsOf s name used fs = eventsOf s name (used \ opened) fs := by
    apply eventsOf_congr
    intro on definition embeds
    rw [Finset.mem_sdiff]
    exact ⟨fun hd => ⟨hd, fun ho => h.apart on definition ho embeds⟩, fun hd => hd.1⟩
  have declared : KnowsUsed s (· ∈ takenAfter s taken
      (emissions (eventsOf s name (used \ opened) fs))) (used \ opened) := by
    intro on definition hd
    obtain ⟨hused, hopened⟩ := Finset.mem_sdiff.mp hd
    exact mem_takenAfter.mpr (.inr ((h.settled on definition hused).resolve_left hopened))
  rw [same]
  exact (closed_eventsOf fs name (used \ opened)
    (fun e he => mem_takenAfter.mpr (.inl (List.mem_map_of_mem he))) declared).types

end Ready

section

variable {s : Style}

private theorem inOrder_eventsOf_of_each {parent : String} {fs : List Field}
    (each : ∀ f ∈ fs, ∀ opened used taken, Ready s [f] opened used taken →
      InOrder s [f] taken (emissions (f.events s parent used)))
    {opened used : Finset String} {taken : List String} (h : Ready s fs opened used taken) :
    InOrder s fs taken (emissions (eventsOf s parent used fs)) := by
  induction fs generalizing used taken with
  | nil =>
    rw [eventsOf_nil]
    exact .nil taken
  | cons f fs ih =>
    obtain ⟨hf, hfs⟩ := List.forall_mem_cons.mp each
    have single : eventsOf s parent used [f] = f.events s parent used := by
      rw [eventsOf_cons, eventsOf_nil, List.append_nil]
    have head := hf opened used taken (h.mono (by simp))
    have rest : Ready s ([f] ++ fs) opened used taken := h
    have tail := ih hfs (rest.after parent)
    rw [single] at tail
    rw [eventsOf_cons, emissions_append]
    exact (head.imp fun _ _ hc => hc.mono (by simp)).append
      (tail.imp fun _ _ hc => hc.mono (List.subset_cons_self f fs))

theorem inOrder_events (f : Field) (parent : String) {opened used : Finset String}
    {taken : List String} (h : Ready s [f] opened used taken) :
    InOrder s [f] taken (emissions (f.events s parent used)) := by
  induction f using Field.tree_induction generalizing parent opened used taken with
  | step f ih =>
    have nested {name : String} {opened used : Finset String} (node : Bool)
        (h : Ready s f.inner opened used taken) :
        InOrder s [f] taken (emissions (eventsOf s name used f.inner ++
          [.emit (.object name node f.inner)])) := by
      have inner := inOrder_eventsOf_of_each
        (fun g hg _ _ _ => ih g (f.inner_subset_children hg) name) h
      rw [emissions_append]
      refine (inner.imp fun _ _ hc => hc.inside).append (.cons ?_ (.nil _))
      exact ⟨⟨f, .here (List.mem_singleton_self f), rfl⟩, h.types name⟩
    obtain ⟨uid, displayName, mandatory, multiple, kind⟩ := f
    cases kind with
    | scalar | unknown =>
      rw [Field.events]
      exact .nil taken
    | file =>
      rw [Field.events]
      exact .cons trivial (.nil _)
    | group schema =>
      rw [Field.events]
      split
      · exact .nil taken
      · exact nested true h.inside
    | globalField definition schema =>
      rw [Field.events]
      split
      · exact .nil taken
      · split
        · exact .nil taken
        · exact nested true (h.enter rfl)
    | blocks variants =>
      rw [Field.events]
      split
      · exact .nil taken
      · exact nested false h.inside
    | reference targets =>
      rw [Field.events]
      split
      · exact .nil taken
      · rw [emissions_append, emissions_map_emit]
        exact (InOrder.ofTargets _).append (.nil _)

theorem inOrder_eventsOf {fs : List Field} (parent : String) {opened used : Finset String}
    {taken : List String} (h : Ready s fs opened used taken) :
    InOrder s fs taken (emissions (eventsOf s parent used fs)) :=
  inOrder_eventsOf_of_each (fun f _ _ _ _ h => inOrder_events f parent h) h

theorem inOrder_eventsOfAll {calls : List (List Field × String)} {used : Finset String}
    {taken : List String} (h : Ready s (calls.flatMap Prod.fst) ∅ used taken) :
    InOrder s (calls.flatMap Prod.fst) taken (emissions (eventsOfAll s used calls)) := by
  induction calls generalizing used taken with
  | nil => exact .nil taken
  | cons call calls ih =>
    have head := inOrder_eventsOf call.2
      (h.mono (List.subset_append_left call.1 (calls.flatMap Prod.fst)))
    have tail := ih (h.after call.2)
    rw [eventsOfAll, emissions_append]
    exact (head.imp fun _ _ hc => hc.mono (List.subset_append_left _ _)).append
      (tail.imp fun _ _ hc => hc.mono (List.subset_append_right _ _))

end

namespace Run

/-- The declarations of the builds of a fresh run, in order: each relies only on scalars and on those
that are declared before it, unless a definition that has a type of its own is nested in itself. -/
theorem declared_before_mentioned (s : Style) (calls : List (List Field × String))
    (unnested : s.options.separateGlobals = true → ∀ call ∈ calls, Unnested call.1) :
    let builts := ((Run.mk s {}).buildAll calls).1
    let ds := builts.flatMap Built.declarations
    builts.flatMap Built.types = ds.map Declaration.render ∧
      ∀ before d after, ds = before ++ d :: after →
        d.Closed s (calls.flatMap Prod.fst) (· ∈ before.map Declaration.name) := by
  intro builts ds
  refine ⟨(List.map_flatMap ..).symm, fun before d after hds => ?_⟩
  have ready : Ready s (calls.flatMap Prod.fst) ∅ ∅ [] := by
    refine ⟨by simp, by simp, fun on f hf => ?_⟩
    obtain ⟨call, hcall, hf⟩ := occurs_flatMap.mp hf
    exact unnested on call hcall f hf
  have inOrder := (inOrder_eventsOfAll ready).made (List.Subset.refl [])
  have hmade : ds = (made s [] (emissions (eventsOfAll s ∅ calls))).map (Emission.declaration s) :=
    (Run.mk s {}).declarations_buildAll calls
  rw [hmade] at hds
  obtain ⟨es, rest, hes, rfl, hrest⟩ := List.map_eq_append_iff.mp hds
  obtain ⟨e, es', rfl, rfl, rfl⟩ := List.map_eq_cons_iff.mp hrest
  rw [hes] at inOrder
  refine (inOrder.closed_of_eq_append.weaken fun n hn => ?_).declaration
  rw [List.map_map]
  exact (mem_takenAfter.mp hn).resolve_right List.not_mem_nil

/-- Shared definitions that are nested in one another, and a union. -/
theorem declared_before_mentioned_seo :
    let s : Style := ⟨"CS", { separateGlobals := true }⟩
    let card : Field := .make "card" (.globalField "card" [.make "image" .file])
    let related : Field := .make "related" (.reference ["page", "post"])
    let seo : Field := .make "seo" (.globalField "seo" [card, related])
    let calls := [([seo], "CS_page"), ([.make "hero" (.group [card, seo])], "CS_post")]
    let ds := ((Run.mk s {}).buildAll calls).1.flatMap Built.declarations
    (∀ call ∈ calls, Unnested call.1) ∧
      ds.map Declaration.name = ["CS_assets", "card", "CS_page", "CS_post",
        "CS_pageCS_post_Union", "seo", "CS_post_hero"] ∧
      ∀ before d after, ds = before ++ d :: after →
        d.Closed s (calls.flatMap Prod.fst) (· ∈ before.map Declaration.name) := by
  intro s card related seo calls ds
  have unnested : ∀ call ∈ calls, Unnested call.1 := by
    simp [calls, seo, related, card, Field.make, Field.children]
  exact ⟨unnested, by decide, (declared_before_mentioned s calls fun _ => unnested).2⟩

/-- A definition that stands in itself is mentioned before it is declared. -/
example :
    let s : Style := ⟨"CS", { separateGlobals := true }⟩
    let inside : Field := .make "b" (.globalField "seo" [.make "title" (.scalar .text)])
    let seo : Field := .make "a" (.globalField "seo" [inside])
    ((Run.mk s {}).build [seo] "CS_page").1.types =
      ["type seo implements Node @infer \x7b b:seo \x7d"] := by
  decide

end Run

end ContentSdl
