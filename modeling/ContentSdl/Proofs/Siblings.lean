import ContentSdl.Proofs.FieldTree
import ContentSdl.Validation

/-! # Valid fields have uids that tell siblings apart -/

namespace ContentSdl

open Json (bind_ok)

/-- The lists of siblings that stand right below a field. -/
def Field.schemas (f : Field) : List (List Field) :=
  match f.kind with
  | .group schema => [schema]
  | .globalField _ schema => [schema]
  | .blocks variants => variants.map Block.schema
  | .scalar _ | .file | .reference _ | .unknown _ => []

/-- Siblings have non-empty and distinct uids, at every depth. -/
inductive WellNamed : List Field → Prop where
  | intro {fs : List Field} (nonempty : ∀ f ∈ fs, f.uid ≠ "")
      (distinct : (fs.map Field.uid).Nodup)
      (below : ∀ f ∈ fs, ∀ schema ∈ f.schemas, WellNamed schema) : WellNamed fs

theorem WellNamed.inside {fs : List Field} (h : WellNamed fs) {f : Field} (hf : f ∈ fs)
    {schema : List Field} (hs : schema ∈ f.schemas) : WellNamed schema := by
  cases h with
  | intro _ _ below => exact below f hf schema hs

theorem WellNamed.distinct {fs : List Field} (h : WellNamed fs) : (fs.map Field.uid).Nodup := by
  cases h with
  | intro _ distinct _ => exact distinct

theorem checkUid_ok {path : String} {seen : List String} {uid : String} {u : Unit}
    (h : checkUid path seen uid = .ok u) : uid ≠ "" ∧ uid ∉ seen := by
  rw [checkUid] at h
  split at h
  · cases h
  · rename_i hempty
    split at h
    · cases h
    · rename_i hseen
      exact ⟨hempty, hseen⟩

private theorem wellNamed_of_each {fs : List Field}
    (each : ∀ f ∈ fs, ∀ path u, checkKind path f.kind = .ok u →
      ∀ schema ∈ f.schemas, WellNamed schema)
    {path : String} {seen : List String} {u : Unit} (h : checkFields path seen fs = .ok u) :
    WellNamed fs ∧ ∀ f ∈ fs, f.uid ∉ seen := by
  induction fs generalizing seen with
  | nil => exact ⟨.intro (by simp) (by simp) (by simp), by simp⟩
  | cons f fs ih =>
    obtain ⟨hf, hfs⟩ := List.forall_mem_cons.mp each
    obtain ⟨uid, displayName, mandatory, multiple, kind⟩ := f
    rw [checkFields] at h
    obtain ⟨_, huid, h⟩ := bind_ok h
    obtain ⟨_, hkind, h⟩ := bind_ok h
    obtain ⟨hempty, hseen⟩ := checkUid_ok huid
    obtain ⟨named, later⟩ := ih hfs h
    have hnew : uid ∉ fs.map Field.uid := by
      intro hu
      obtain ⟨g, hg, hgu⟩ := List.mem_map.mp hu
      exact later g hg (hgu ▸ List.mem_cons_self)
    cases named with
    | intro nonempty distinct below =>
      refine ⟨.intro ?_ ?_ ?_, ?_⟩
      · exact List.forall_mem_cons.mpr ⟨hempty, nonempty⟩
      · exact List.nodup_cons.mpr ⟨hnew, distinct⟩
      · exact List.forall_mem_cons.mpr ⟨hf _ _ hkind, below⟩
      · exact List.forall_mem_cons.mpr
          ⟨hseen, fun g hg hg' => later g hg (List.mem_cons_of_mem _ hg')⟩

private theorem checkFields_of_checkBlocks {path : String} {variants : List Block} {u : Unit}
    (h : checkBlocks path variants = .ok u) {b : Block} (hb : b ∈ variants) :
    ∃ path', checkFields path' [] b.schema = .ok () := by
  induction variants with
  | nil => cases hb
  | cons c variants ih =>
    obtain ⟨uid, title, schema⟩ := c
    rw [checkBlocks] at h
    obtain ⟨_, hschema, h⟩ := bind_ok h
    rcases List.mem_cons.mp hb with rfl | hb
    · exact ⟨_, hschema⟩
    · exact ih h hb

private theorem wellNamed_of_checkKind (f : Field) : ∀ path u, checkKind path f.kind = .ok u →
    ∀ schema ∈ f.schemas, WellNamed schema := by
  induction f using Field.tree_induction with
  | step f ih =>
    intro path u h schema hs
    obtain ⟨uid, displayName, mandatory, multiple, kind⟩ := f
    cases kind with
    | scalar | file | reference | unknown => cases hs
    | group schema' =>
      cases List.mem_singleton.mp hs
      rw [checkKind] at h
      exact (wellNamed_of_each ih h).1
    | globalField definition schema' =>
      cases List.mem_singleton.mp hs
      rw [checkKind] at h
      exact (wellNamed_of_each ih h).1
    | blocks variants =>
      obtain ⟨b, hb, rfl⟩ := List.mem_map.mp hs
      rw [checkKind] at h
      obtain ⟨path', hschema⟩ := checkFields_of_checkBlocks h hb
      refine (wellNamed_of_each (fun g hg => ih g ?_) hschema).1
      exact List.mem_flatMap.mpr ⟨b, hb, hg⟩

theorem wellNamed_of_checkFields {path : String} {fs : List Field}
    (h : checkFields path [] fs = .ok ()) : WellNamed fs :=
  (wellNamed_of_each (fun f _ => wellNamed_of_checkKind f) h).1

theorem wellNamed_of_valid {fs : List Field} (h : validateFields fs = .ok ()) : WellNamed fs :=
  wellNamed_of_checkFields h

end ContentSdl
