import ContentSdl.Proofs.ObjectsKept
import ContentSdl.Proofs.SharedDefinitions
import ContentSdl.Proofs.UnionNames

/-! # The members of a union, unless its name is that of another type

The union of a field is among the events of its visit. It is declared unless its name is taken, so
the question is when names of unions are apart and free. -/

namespace ContentSdl

open Event

/-- All events but the declarations of nested object types, which follow those of the fields inside. -/
def Event.immediate (evs : List Event) : List Event :=
  evs.filter fun
    | .emit e => !e.isNested
    | .file _ | .use .. | .reference _ => true

theorem Event.immediate_append (evs evs' : List Event) :
    immediate (evs ++ evs') = immediate evs ++ immediate evs' :=
  List.filter_append ..

theorem Event.immediate_ofTargets (targets : List String) :
    immediate ((Emission.ofTargets targets).map .emit) = (Emission.ofTargets targets).map .emit := by
  have none := filter_isNested_ofTargets targets
  rw [List.filter_eq_nil_iff] at none
  rw [immediate, List.filter_eq_self]
  intro ev hev
  obtain ⟨e, he, rfl⟩ := List.mem_map.mp hev
  simpa using none e he

/-- The events of a field itself, those of the fields inside it left out. -/
def Visit.events (v : Visit) : List Event :=
  match v.field.kind with
  | .file => [.file ⟨v.parent, v.field⟩, .emit .assets]
  | .globalField .. => v.use?.toList.map fun u => .use u.1 u.2
  | .reference targets =>
    if targets = [] then []
    else (Emission.ofTargets (distinct targets)).map .emit ++ [.reference ⟨v.parent, v.field.uid⟩]
  | .scalar _ | .group _ | .blocks _ | .unknown _ => []

section

variable {s : Style}

private theorem immediate_eventsOf_of_each {parent : String} {fs : List Field}
    (each : ∀ f ∈ fs, ∀ b : Build, immediate (f.events s parent b.registry.definitions) =
      (f.trace s parent b).flatMap Visit.events) (b : Build) :
    immediate (eventsOf s parent b.registry.definitions fs) =
      (traceOf s parent fs b).flatMap Visit.events := by
  induction fs generalizing b with
  | nil =>
    rw [eventsOf_nil, traceOf_nil]
    rfl
  | cons f fs ih =>
    obtain ⟨hf, hfs⟩ := List.forall_mem_cons.mp each
    have tail := ih hfs (f.visit s parent b)
    rw [(Build.follows_visit s f parent b).definitions] at tail
    rw [eventsOf_cons, traceOf_cons, immediate_append, List.flatMap_append, hf b, tail]

theorem immediate_events (f : Field) (parent : String) (b : Build) :
    immediate (f.events s parent b.registry.definitions) =
      (f.trace s parent b).flatMap Visit.events := by
  induction f using Field.tree_induction generalizing parent b with
  | step f ih =>
    -- The declaration of an object type is nested, so the events of the fields inside remain.
    have below (name : String) (node : Bool) (b : Build) :
        immediate (eventsOf s name b.registry.definitions f.inner ++
          [.emit (.object name node f.inner)]) =
            (traceOf s name f.inner b).flatMap Visit.events := by
      rw [immediate_append, immediate_eventsOf_of_each
        (fun g hg b => ih g (f.inner_subset_children hg) name b) b]
      exact List.append_nil _
    obtain ⟨uid, displayName, mandatory, multiple, kind⟩ := f
    cases kind with
    | scalar | file | unknown =>
      rw [Field.events, Field.trace, Field.below?]
      rfl
    | group schema =>
      rw [Field.events, Field.trace, Field.below?]
      by_cases h : schema = []
      · simp only [h, if_true]
        rfl
      · simp only [h, if_false]
        exact below (objectName parent uid) true b
    | globalField definition schema =>
      rw [Field.events, Field.trace, Field.below?]
      by_cases h : schema = []
      · simp only [h, if_true, true_or]
        simp [immediate, Visit.events, Visit.use?, Visit.definition?]
      · have known : (s.options.separateGlobals && b.registry.has definition) = true ↔
            s.options.separateGlobals = true ∧ definition ∈ b.registry.definitions := by
          rw [Bool.and_eq_true, Registry.mem_definitions]
        have use : Visit.events ⟨parent, ⟨uid, displayName, mandatory, multiple,
            .globalField definition schema⟩, b⟩ = [.use definition parent] := by
          simp [Visit.events, Visit.use?, Visit.definition?, h]
        simp only [h, if_false, false_or, known]
        by_cases hu : s.options.separateGlobals = true ∧ definition ∈ b.registry.definitions
        · simp only [hu, and_self, if_true]
          rw [List.flatMap_singleton, use]
          rfl
        · simp only [hu, if_false]
          have inside := below (globalName s.options parent uid definition) true
            (b.use definition parent)
          have hd : (b.use definition parent).registry.definitions =
              insert definition b.registry.definitions := Registry.definitions_record ..
          rw [hd] at inside
          rw [List.flatMap_cons, use, ← inside]
          rfl
    | blocks variants =>
      rw [Field.events, Field.trace, Field.below?]
      by_cases h : variants = []
      · simp only [h, if_true]
        rfl
      · simp only [h, if_false]
        exact below (objectName parent uid) false b
    | reference targets =>
      rw [Field.events, Field.trace, Field.below?, List.flatMap_singleton, Visit.events]
      by_cases h : targets = []
      · simp only [h, if_true]
        rfl
      · simp only [h, if_false]
        rw [immediate_append, immediate_ofTargets]
        rfl

theorem immediate_eventsOf (fs : List Field) (parent : String) (b : Build) :
    immediate (eventsOf s parent b.registry.definitions fs) =
      (traceOf s parent fs b).flatMap Visit.events :=
  immediate_eventsOf_of_each (fun f _ b => immediate_events f parent b) b

end

theorem Run.immediate_eventsOfAll (run : Run) (calls : List (List Field × String)) :
    immediate (eventsOfAll run.style run.registry.definitions calls) =
      (run.trace calls).flatMap Visit.events := by
  induction calls generalizing run with
  | nil => rfl
  | cons call calls ih =>
    have tail := ih (run.build call.1 call.2).2
    have used : (run.build call.1 call.2).2.registry.definitions = _ :=
      (run.follows_build call.1 call.2).definitions
    rw [used] at tail
    rw [eventsOfAll, immediate_append, trace, List.flatMap_append, ← tail, ← immediate_eventsOf]
    rfl

/-- The distinct targets of a reference field that has several. -/
def Visit.several? (v : Visit) : Option (List String) :=
  match v.field.kind with
  | .reference targets => if 1 < (distinct targets).length then some (distinct targets) else none
  | _ => none

/-- The union that a reference to distinct targets is to have. -/
def unionOf (typePrefix : String) (targets : List String) : Declaration :=
  .union (unionName typePrefix targets) (targets.map (targetName typePrefix))

theorem mem_emissions {evs : List Event} {e : Emission} : e ∈ emissions evs ↔ .emit e ∈ evs := by
  rw [emissions, List.mem_filterMap]
  constructor
  · rintro ⟨ev, hev, he⟩
    cases ev with
    | emit e' => cases he; exact hev
    | file | use | reference => cases he
  · intro h
    exact ⟨_, h, rfl⟩

theorem union_mem_ofTargets {targets targets' : List String} :
    .union targets' ∈ Emission.ofTargets targets ↔ 1 < targets.length ∧ targets = targets' := by
  rw [Emission.ofTargets, List.mem_append]
  split
  · rename_i h
    simp [h, eq_comm]
  · rename_i h
    simp [h]

theorem Visit.union_mem_events {v : Visit} {targets : List String} :
    .emit (.union targets) ∈ v.events ↔ v.several? = some targets := by
  obtain ⟨parent, ⟨uid, displayName, mandatory, multiple, kind⟩, b⟩ := v
  cases kind with
  | scalar | file | group | globalField | blocks | unknown => simp [events, several?]
  | reference listed =>
    by_cases h : listed = []
    · simp [events, several?, h, distinct, firstBy, firstFrom]
    · simp [events, several?, h, union_mem_ofTargets]

theorem filter_key_eq_singleton {α κ : Type} [DecidableEq κ] {key : α → κ} {as : List α}
    (h : (as.map key).Nodup) {a : α} (ha : a ∈ as) : as.filter (key · = key a) = [a] := by
  induction as with
  | nil => cases ha
  | cons b as ih =>
    obtain ⟨hb, has⟩ := List.nodup_cons.mp h
    rcases List.mem_cons.mp ha with rfl | ha
    · have none : as.filter (key · = key a) = [] := by
        rw [List.filter_eq_nil_iff]
        intro c hc heq
        exact hb (of_decide_eq_true heq ▸ List.mem_map_of_mem hc)
      rw [List.filter_cons_of_pos (by simp), none]
    · have hne : key b ≠ key a := fun heq => hb (heq ▸ List.mem_map_of_mem ha)
      rw [List.filter_cons_of_neg (by simpa using hne), ih has ha]

namespace Run

variable {run : Run} {calls : List (List Field × String)}

/-- Unions are due for the fields that are reached, and only for them. -/
theorem union_mem_emissions {targets : List String} :
    .union targets ∈ emissions (eventsOfAll run.style run.registry.definitions calls) ↔
      ∃ v ∈ run.trace calls, v.several? = some targets := by
  have immediate : .emit (.union targets) ∈
        immediate (eventsOfAll run.style run.registry.definitions calls) ↔
      .emit (.union targets) ∈ eventsOfAll run.style run.registry.definitions calls := by
    simp [immediate, Emission.isNested]
  rw [mem_emissions, ← immediate, immediate_eventsOfAll, List.mem_flatMap]
  exact exists_congr fun v => and_congr_right fun _ => Visit.union_mem_events

/-- A union that is declared is that of a field which is reached. -/
theorem exists_visit_of_union {name : String} {members : List String}
    (h : .union name members ∈ (run.buildAll calls).1.flatMap Built.declarations) :
    ∃ v ∈ run.trace calls, ∃ targets, v.several? = some targets ∧
      .union name members = unionOf run.style.typePrefix targets := by
  rw [declarations_buildAll] at h
  obtain ⟨e, he, heq⟩ := List.mem_map.mp h
  have he := (firstFrom_sublist _ _ _).subset he
  cases e with
  | assets | placeholder | object => cases heq
  | union targets =>
    obtain ⟨v, hv, hseveral⟩ := union_mem_emissions.mp he
    exact ⟨v, hv, targets, hseveral, heq.symm⟩

/-- Of a fresh run exactly one declaration has the name of the union of a field that is reached. -/
theorem exists_declaration (s : Style) {v : Visit} (hv : v ∈ (Run.mk s {}).trace calls)
    {targets : List String} (h : v.several? = some targets) :
    ∃ d, (((Run.mk s {}).buildAll calls).1.flatMap Built.declarations).filter
      (·.name = unionName s.typePrefix targets) = [d] := by
  have due := List.mem_map_of_mem (f := Emission.name s) (union_mem_emissions.mpr ⟨v, hv, h⟩)
  have named := (mem_names_buildAll (Run.mk s {}) calls (unionName s.typePrefix targets)).mpr
    ⟨List.not_mem_nil, due⟩
  obtain ⟨d, hd, hname⟩ := List.mem_map.mp named
  rw [← hname]
  exact ⟨d, filter_key_eq_singleton (nodup_names_buildAll _ calls) hd⟩

end Run

theorem Visit.type?_of_several? (s : Style) {v : Visit} {targets : List String}
    (h : v.several? = some targets) : v.field.type? s v.parent =
      some (.named (s.options.wrap (unionName s.typePrefix targets) true true)) := by
  obtain ⟨parent, ⟨uid, displayName, mandatory, multiple, kind⟩, b⟩ := v
  cases kind with
  | scalar | file | group | globalField | blocks | unknown => cases h
  | reference listed =>
    rw [several?, Option.ite_none_right_eq_some, Option.some_inj] at h
    obtain ⟨hlen, rfl⟩ := h
    have hne : listed ≠ [] := by
      rintro rfl
      exact absurd hlen (by decide)
    have hname : referenceName s.typePrefix (distinct listed) =
        unionName s.typePrefix (distinct listed) := by
      rw [referenceName]
      intro target htarget
      rw [htarget] at hlen
      exact absurd hlen (Nat.lt_irrefl 1)
    simp [Field.type?, hne, hname]

/-- What is declared under the name of the union of a field that is reached is the union of the
targets of that field. -/
def OwnUnions (typePrefix : String) (vs : List Visit) (ds : List Declaration) : Prop :=
  ∀ v ∈ vs, ∀ targets, v.several? = some targets →
    ds.filter (·.name = unionName typePrefix targets) = [unionOf typePrefix targets]

/-- Fields that are reached share the name of a union only if they share their targets. -/
def UnionsApart (typePrefix : String) (vs : List Visit) : Prop :=
  ∀ v ∈ vs, ∀ w ∈ vs, ∀ targets targets', v.several? = some targets → w.several? = some targets' →
    unionName typePrefix targets = unionName typePrefix targets' → targets = targets'

/-- No object type is declared under the name of the union of a field that is reached. -/
def UnionsFree (typePrefix : String) (vs : List Visit) (ds : List Declaration) : Prop :=
  ∀ v ∈ vs, ∀ targets, v.several? = some targets → ∀ name node body,
    .object name node body ∈ ds → name ≠ unionName typePrefix targets

section

variable {typePrefix : String} {vs : List Visit} {ds : List Declaration}

theorem unionOf_injective {targets targets' : List String}
    (h : unionOf typePrefix targets = unionOf typePrefix targets') : targets = targets' :=
  List.map_injective_iff.mpr (fun _ _ => targetName_injective) (Declaration.union.inj h).2

theorem OwnUnions.apart (h : OwnUnions typePrefix vs ds) : UnionsApart typePrefix vs := by
  intro v hv w hw targets targets' hs hs' hname
  have heq := (h v hv targets hs).symm.trans (hname ▸ h w hw targets' hs')
  exact unionOf_injective (List.singleton_inj.mp heq)

theorem OwnUnions.free (h : OwnUnions typePrefix vs ds) : UnionsFree typePrefix vs ds := by
  intro v hv targets hs name node body hmem hname
  have listed : .object name node body ∈ ds.filter (·.name = unionName typePrefix targets) :=
    List.mem_filter.mpr ⟨hmem, decide_eq_true hname⟩
  rw [h v hv targets hs] at listed
  cases List.mem_singleton.mp listed

theorem unionsApart_of_separable (h : ∀ v ∈ vs, ∀ targets, v.several? = some targets →
    ∀ t ∈ targets, Separable typePrefix t) : UnionsApart typePrefix vs :=
  fun v hv w hw targets targets' hs hs' =>
    unionName_injective (h v hv targets hs) (h w hw targets' hs')

end

/-- In builds on a fresh run every reference field that is reached and has several distinct targets
has the type with the name of their union, and one declaration has that name. It is the union of the
field's own targets, for all such fields, if and only if fields with different targets have different
names for their unions, and no object type has taken such a name. The names are different if no
target holds what the names of targets begin with. -/
theorem ownUnions_iff (s : Style) (calls : List (List Field × String)) :
    let vs := (Run.mk s {}).trace calls
    let ds := ((Run.mk s {}).buildAll calls).1.flatMap Built.declarations
    (∀ v ∈ vs, ∀ targets, v.several? = some targets →
      v.field.type? s v.parent =
          some (.named (s.options.wrap (unionName s.typePrefix targets) true true)) ∧
        ∃ d, ds.filter (·.name = unionName s.typePrefix targets) = [d]) ∧
    (OwnUnions s.typePrefix vs ds ↔
      UnionsApart s.typePrefix vs ∧ UnionsFree s.typePrefix vs ds) ∧
    ((∀ v ∈ vs, ∀ targets, v.several? = some targets → ∀ t ∈ targets, Separable s.typePrefix t) →
      UnionsApart s.typePrefix vs) := by
  intro vs ds
  have declared (v : Visit) (hv : v ∈ vs) (targets : List String) (hs : v.several? = some targets) :
      ∃ d, ds.filter (·.name = unionName s.typePrefix targets) = [d] :=
    Run.exists_declaration s hv hs
  refine ⟨fun v hv targets hs => ⟨v.type?_of_several? s hs, declared v hv targets hs⟩, ?_,
    unionsApart_of_separable⟩
  constructor
  · intro own
    exact ⟨own.apart, own.free⟩
  · rintro ⟨apart, free⟩ v hv targets hs
    obtain ⟨d, hd⟩ := declared v hv targets hs
    obtain ⟨hmem, hname⟩ := List.mem_filter.mp (hd ▸ List.mem_singleton_self d)
    have hname := of_decide_eq_true hname
    rw [hd]
    cases d with
    | object name node body => exact (free v hv targets hs name node body hmem hname).elim
    | union name members =>
      obtain ⟨w, hw, targets', hs', heq⟩ := Run.exists_visit_of_union hmem
      rw [heq] at hname ⊢
      rw [apart w hw v hv targets' targets hs' hs hname]

/-- Two references to one pair of targets, of which one lists a target twice. -/
theorem ownUnions_page :
    let s : Style := ⟨"CS", {}⟩
    let fs : List Field := [.make "r" (.reference ["a", "b", "a"]), .make "q" (.reference ["a", "b"])]
    OwnUnions "CS" ((Run.mk s {}).trace [(fs, "CS_page")])
      (((Run.mk s {}).buildAll [(fs, "CS_page")]).1.flatMap Built.declarations) := by
  intro s fs
  obtain ⟨-, own, apart⟩ := ownUnions_iff s [(fs, "CS_page")]
  have several : ∀ v ∈ (Run.mk s {}).trace [(fs, "CS_page")], ∀ targets,
      v.several? = some targets → targets = ["a", "b"] := by
    intro v hv targets hs
    simp only [Run.trace, fs, traceOf_cons, traceOf_nil, Field.trace, Field.below?, Field.make,
      List.append_nil, List.cons_append, List.nil_append, List.mem_cons, List.not_mem_nil,
      or_false] at hv
    rcases hv with rfl | rfl
    · exact (Option.some.inj hs).symm
    · exact (Option.some.inj hs).symm
  refine own.mpr ⟨apart fun v hv targets hs t ht => ?_, ?_⟩
  · rw [several v hv targets hs] at ht
    apply separable_of_not_infix
    · decide
    · revert t
      decide
  · have union : ∀ d ∈ ((Run.mk s {}).buildAll [(fs, "CS_page")]).1.flatMap Built.declarations,
        d.name = unionName "CS" ["a", "b"] → d = unionOf "CS" ["a", "b"] := by decide
    intro v hv targets hs name node body hmem hname
    rw [several v hv targets hs] at hname
    cases union _ hmem hname

/-- The second of two unions with one name is not declared: the targets `a` and `bCS_c` read like
`aCS_b` and `c`. -/
theorem not_ownUnions_shared_name :
    let s : Style := ⟨"CS", {}⟩
    let fs : List Field := [.make "r1" (.reference ["a", "bCS_c"]),
      .make "r2" (.reference ["aCS_b", "c"])]
    let vs := (Run.mk s {}).trace [(fs, "CS_page")]
    ¬ UnionsApart "CS" vs ∧
      ¬ OwnUnions "CS" vs
        (((Run.mk s {}).buildAll [(fs, "CS_page")]).1.flatMap Built.declarations) := by
  intro s fs vs
  have reached : ∃ v ∈ vs, ∃ w ∈ vs, v.several? = some ["a", "bCS_c"] ∧
      w.several? = some ["aCS_b", "c"] := by
    simp only [vs, Run.trace, fs, traceOf_cons, traceOf_nil, Field.trace, Field.below?, Field.make,
      List.append_nil, List.cons_append, List.nil_append]
    exact ⟨_, List.mem_cons_self, _, List.mem_cons_of_mem _ List.mem_cons_self, rfl, rfl⟩
  obtain ⟨v, hv, w, hw, hs, hs'⟩ := reached
  have shared : ¬ UnionsApart "CS" vs := fun h =>
    absurd (h v hv w hw _ _ hs hs' (by decide)) (by decide)
  exact ⟨shared, fun own => shared own.apart⟩

end ContentSdl
