import ContentSdl.Proofs.BuildEvents
import ContentSdl.Proofs.Siblings
import ContentSdl.Proofs.WrappedTypes
import Mathlib.Data.List.Nodup

/-! # The object types of nested fields, by the way that leads to them

A walk comes to all sites in order, and different sites are on different ways. Names join the uids of a
way, which can be told from the name if no uid has an underscore. -/

namespace ContentSdl

open Event

/-- Whether a field has an object type of its own. -/
def Field.nests (f : Field) : Bool :=
  match f.kind with
  | .group schema => schema ≠ []
  | .globalField _ schema => schema ≠ []
  | .blocks variants => variants ≠ []
  | .scalar _ | .file | .reference _ | .unknown _ => false

/-- A field with an object type of its own, and the uids on the way to it, its own the last. -/
structure Site where
  path : List String
  field : Field

namespace Site

def under (uid : String) (x : Site) : Site := ⟨uid :: x.path, x.field⟩

/-- The name of the object type if fields of the parent are at the start of the way. -/
def name (parent : String) (x : Site) : String := x.path.foldl objectName parent

/-- Whether the object type is a node: that of blocks is none. -/
def isNode (x : Site) : Bool :=
  match x.field.kind with
  | .blocks _ => false
  | _ => true

/-- The fields of the object type. -/
def fields (s : Style) (parent : String) (x : Site) : FieldMap :=
  fieldMap s (x.name parent) x.field.inner

def emission (parent : String) (x : Site) : Emission :=
  .object (x.name parent) x.isNode x.field.inner

/-- The declaration of the object type. -/
def declaration (s : Style) (parent : String) (x : Site) : Declaration :=
  .object (x.name parent) x.isNode (.fields (x.fields s parent))

@[simp] theorem declaration_emission (s : Style) (parent : String) (x : Site) :
    (x.emission parent).declaration s = x.declaration s parent := rfl

end Site

/-- The sites at a field and below it, the inner ones first. -/
def Field.sites (f : Field) : List Site :=
  if f.nests then
    (f.inner.attach.flatMap fun g => g.1.sites.map (Site.under f.uid)) ++ [⟨[f.uid], f⟩]
  else []
termination_by sizeOf f
decreasing_by exact Field.sizeOf_lt_of_mem_children (f.inner_subset_children g.2)

def sitesOf (fs : List Field) : List Site := fs.flatMap Field.sites

theorem Field.sites_eq (f : Field) :
    f.sites = if f.nests then (sitesOf f.inner).map (Site.under f.uid) ++ [⟨[f.uid], f⟩] else [] := by
  have hinner : (f.inner.attach.flatMap fun g => g.1.sites.map (Site.under f.uid)) =
      (sitesOf f.inner).map (Site.under f.uid) := by
    rw [sitesOf, List.map_flatMap, ← List.attach_map_subtype_val f.inner, List.flatMap_map]
    simp
  rw [Field.sites, hinner]

theorem Field.sites_of_not_nests {f : Field} (h : f.nests = false) : f.sites = [] := by
  rw [f.sites_eq, h]
  rfl

@[simp] theorem sitesOf_nil : sitesOf [] = [] := rfl

@[simp] theorem sitesOf_cons (f : Field) (fs : List Field) :
    sitesOf (f :: fs) = f.sites ++ sitesOf fs := rfl

/-- Whether an emission is that of a nested object type. -/
def Emission.isNested : Emission → Bool
  | .object .. => true
  | .assets | .placeholder _ | .union _ => false

theorem filter_isNested_ofTargets (targets : List String) :
    (Emission.ofTargets targets).filter Emission.isNested = [] := by
  rw [List.filter_eq_nil_iff]
  intro e he
  rw [Emission.ofTargets] at he
  rcases List.mem_append.mp he with he | he
  · obtain ⟨target, -, rfl⟩ := List.mem_map.mp he
    simp [Emission.isNested]
  · split at he
    · rw [List.mem_singleton.mp he]
      simp [Emission.isNested]
    · cases he

private theorem nested_eventsOf_of_each {s : Style} {parent : String} {fs : List Field}
    (each : ∀ f ∈ fs, ∀ used, (emissions (f.events s parent used)).filter Emission.isNested =
      f.sites.map (Site.emission parent)) (used : Finset String) :
    (emissions (eventsOf s parent used fs)).filter Emission.isNested =
      (sitesOf fs).map (Site.emission parent) := by
  induction fs generalizing used with
  | nil => simp [emissions]
  | cons f fs ih =>
    obtain ⟨hf, hfs⟩ := List.forall_mem_cons.mp each
    rw [eventsOf_cons, emissions_append, List.filter_append, hf, ih hfs, sitesOf_cons,
      List.map_append]

theorem nested_events {s : Style} (off : s.options.separateGlobals = false) (f : Field)
    (parent : String) (used : Finset String) :
    (emissions (f.events s parent used)).filter Emission.isNested =
      f.sites.map (Site.emission parent) := by
  induction f using Field.tree_induction generalizing parent used with
  | step f ih =>
    -- The emission of an object type follows those of the sites inside.
    have nested (node : Bool) (hnode : (Site.mk [f.uid] f).isNode = node)
        (hnests : f.nests = true) (used : Finset String) :
        (emissions (eventsOf s (objectName parent f.uid) used f.inner ++
          [.emit (.object (objectName parent f.uid) node f.inner)])).filter Emission.isNested =
            f.sites.map (Site.emission parent) := by
      have inside := nested_eventsOf_of_each
        (fun g hg used => ih g (f.inner_subset_children hg) (objectName parent f.uid) used) used
      rw [f.sites_eq, if_pos hnests, emissions_append, List.filter_append, inside,
        List.map_append, List.map_map, ← hnode]
      rfl
    obtain ⟨uid, displayName, mandatory, multiple, kind⟩ := f
    cases kind with
    | scalar | file | unknown =>
      rw [Field.events, Field.sites_of_not_nests rfl]
      rfl
    | group schema =>
      rw [Field.events]
      by_cases h : schema = []
      · rw [if_pos h, Field.sites_of_not_nests (by simp [Field.nests, h])]
        rfl
      · rw [if_neg h]
        exact nested true rfl (by simp [Field.nests, h]) used
    | globalField definition schema =>
      rw [Field.events]
      by_cases h : schema = []
      · rw [if_pos h, Field.sites_of_not_nests (by simp [Field.nests, h])]
        rfl
      · have hname : globalName s.options parent uid definition = objectName parent uid := by
          simp [globalName, off]
        rw [if_neg h, if_neg (by simp [off]), hname]
        exact nested true rfl (by simp [Field.nests, h]) (insert definition used)
    | blocks variants =>
      rw [Field.events]
      by_cases h : variants = []
      · rw [if_pos h, Field.sites_of_not_nests (by simp [Field.nests, h])]
        rfl
      · rw [if_neg h]
        exact nested false rfl (by simp [Field.nests, h]) used
    | reference targets =>
      rw [Field.events, Field.sites_of_not_nests rfl]
      by_cases h : targets = []
      · rw [if_pos h]
        rfl
      · rw [if_neg h, emissions_append, emissions_map_emit, List.filter_append,
          filter_isNested_ofTargets]
        rfl

/-- Where global fields have no types of their own, the object types of nested fields are emitted
site by site. -/
theorem nested_eventsOf {s : Style} (off : s.options.separateGlobals = false) (fs : List Field)
    (parent : String) (used : Finset String) :
    (emissions (eventsOf s parent used fs)).filter Emission.isNested =
      (sitesOf fs).map (Site.emission parent) :=
  nested_eventsOf_of_each (fun f _ used => nested_events off f parent used) used

theorem Field.head_path {f : Field} {x : Site} (h : x ∈ f.sites) : x.path.head? = some f.uid := by
  rw [f.sites_eq] at h
  split at h
  · rcases List.mem_append.mp h with h | h
    · obtain ⟨y, -, rfl⟩ := List.mem_map.mp h
      rfl
    · rw [List.mem_singleton.mp h]
      rfl
  · cases h

private theorem nodup_paths_of_each {fs : List Field} (distinct : (fs.map Field.uid).Nodup)
    (each : ∀ f ∈ fs, (f.sites.map Site.path).Nodup) : ((sitesOf fs).map Site.path).Nodup := by
  induction fs with
  | nil => exact List.nodup_nil
  | cons f fs ih =>
    obtain ⟨hf, hfs⟩ := List.forall_mem_cons.mp each
    obtain ⟨hnew, hdistinct⟩ := List.nodup_cons.mp distinct
    rw [sitesOf_cons, List.map_append, List.nodup_append']
    refine ⟨hf, ih hdistinct hfs, ?_⟩
    intro p hp hp'
    obtain ⟨x, hx, rfl⟩ := List.mem_map.mp hp
    obtain ⟨y, hy, hxy⟩ := List.mem_map.mp hp'
    obtain ⟨g, hg, hy⟩ := List.mem_flatMap.mp hy
    have huid : some g.uid = some f.uid := by
      rw [← Field.head_path hy, hxy, Field.head_path hx]
    exact hnew (Option.some.inj huid ▸ List.mem_map_of_mem hg)

theorem Field.distinct_inner {f : Field} (h : ∀ schema ∈ f.schemas, WellNamed schema) :
    (f.inner.map Field.uid).Nodup := by
  obtain ⟨uid, displayName, mandatory, multiple, kind⟩ := f
  cases kind with
  | group schema => exact (h schema (List.mem_singleton_self _)).distinct
  | globalField definition schema => exact (h schema (List.mem_singleton_self _)).distinct
  | blocks variants => exact firstBy_nodup Field.uid _
  | scalar | file | reference | unknown => exact List.nodup_nil

/-- A field inside another one stands in one of its schemas. -/
theorem Field.exists_schema {f g : Field} (h : g ∈ f.inner) : ∃ schema ∈ f.schemas, g ∈ schema := by
  obtain ⟨uid, displayName, mandatory, multiple, kind⟩ := f
  cases kind with
  | group schema => exact ⟨schema, List.mem_singleton_self _, h⟩
  | globalField definition schema => exact ⟨schema, List.mem_singleton_self _, h⟩
  | blocks variants =>
    obtain ⟨b, hb, hg⟩ := List.mem_flatMap.mp (mergedSchema_subset variants h)
    exact ⟨b.schema, List.mem_map_of_mem hb, hg⟩
  | scalar | file | reference | unknown => cases h

theorem Field.nodup_paths {f : Field} (h : ∀ schema ∈ f.schemas, WellNamed schema) :
    (f.sites.map Site.path).Nodup := by
  induction f using Field.tree_induction with
  | step f ih =>
    rw [f.sites_eq]
    split
    · have inside : ((sitesOf f.inner).map Site.path).Nodup := by
        apply nodup_paths_of_each (Field.distinct_inner h)
        intro g hg
        obtain ⟨schema, hs, hgs⟩ := Field.exists_schema hg
        exact ih g (f.inner_subset_children hg) fun _ ht => (h schema hs).inside hgs ht
      have hunder : ((sitesOf f.inner).map (Site.under f.uid)).map Site.path =
          ((sitesOf f.inner).map Site.path).map (f.uid :: ·) := by
        rw [List.map_map, List.map_map]
        rfl
      rw [List.map_append, hunder, List.nodup_append']
      refine ⟨inside.map fun p q h => (List.cons.inj h).2, by simp, ?_⟩
      intro p hp hp'
      rw [List.mem_singleton.mp hp'] at hp
      obtain ⟨q, hq, hnil⟩ := List.mem_map.mp hp
      obtain ⟨x, hx, rfl⟩ := List.mem_map.mp hq
      obtain ⟨g, -, hx⟩ := List.mem_flatMap.mp hx
      have hhead := Field.head_path hx
      rw [(List.cons.inj hnil).2] at hhead
      cases hhead
    · exact List.nodup_nil

theorem nodup_paths {fs : List Field} (h : WellNamed fs) : ((sitesOf fs).map Site.path).Nodup :=
  nodup_paths_of_each h.distinct fun _ hf => Field.nodup_paths fun _ hs => h.inside hf hs

/-- Uids that hold no underscore themselves, joined by underscores. -/
def Plain (path : List String) : Prop := ∀ uid ∈ path, '_' ∉ uid.toList

theorem toList_foldl_objectName (parent : String) (path : List String) :
    (path.foldl objectName parent).toList =
      parent.toList ++ path.flatMap fun uid => '_' :: uid.toList := by
  induction path generalizing parent with
  | nil => simp
  | cons uid path ih => simp [ih, objectName]

private theorem takeWhile_uid {uid : String} (h : '_' ∉ uid.toList) (path : List String) :
    (uid.toList ++ path.flatMap fun uid => '_' :: uid.toList).takeWhile (· ≠ '_') =
      uid.toList := by
  have all : ∀ c ∈ uid.toList, decide (c ≠ '_') = true := by
    intro c hc
    rw [decide_eq_true_eq]
    rintro rfl
    exact h hc
  rw [List.takeWhile_append_of_pos all]
  cases path with
  | nil => simp
  | cons next path => simp

private theorem join_injective {p q : List String} (hp : Plain p) (hq : Plain q)
    (h : (p.flatMap fun uid => '_' :: uid.toList) = q.flatMap fun uid => '_' :: uid.toList) :
    p = q := by
  induction p generalizing q with
  | nil =>
    cases q with
    | nil => rfl
    | cons v q => simp at h
  | cons u p ih =>
    cases q with
    | nil => simp at h
    | cons v q =>
      obtain ⟨hu, hp⟩ := List.forall_mem_cons.mp hp
      obtain ⟨hv, hq⟩ := List.forall_mem_cons.mp hq
      rw [List.flatMap_cons, List.flatMap_cons, List.cons_append, List.cons_append] at h
      have h := (List.cons.inj h).2
      have hchars : u.toList = v.toList := by
        rw [← takeWhile_uid hu p, h, takeWhile_uid hv q]
      rw [hchars, List.append_cancel_left_eq] at h
      rw [String.toList_inj.mp hchars, ih hp hq h]

/-- Ways of plain uids lead to different names. -/
theorem foldl_objectName_injective {parent : String} {p q : List String} (hp : Plain p)
    (hq : Plain q) (h : p.foldl objectName parent = q.foldl objectName parent) : p = q := by
  have h := congrArg String.toList h
  rw [toList_foldl_objectName, toList_foldl_objectName, List.append_cancel_left_eq] at h
  exact join_injective hp hq h

/-- The object types of nested fields have distinct names if their uids are plain. -/
theorem nodup_names_sitesOf {fs : List Field} (h : WellNamed fs) (parent : String)
    (plain : ∀ x ∈ sitesOf fs, Plain x.path) : ((sitesOf fs).map (Site.name parent)).Nodup := by
  have paths := nodup_paths h
  rw [List.Nodup, List.pairwise_map] at paths ⊢
  refine paths.imp_of_mem fun hx hy hne he => hne ?_
  exact foldl_objectName_injective (plain _ hx) (plain _ hy) he

end ContentSdl
