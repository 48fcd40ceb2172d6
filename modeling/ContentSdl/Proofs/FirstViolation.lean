import ContentSdl.Proofs.Siblings

/-! # The violation a validation reports: the first one, depth first

The positions of all uids are listed, those inside a field right behind that of the field. A check reports
the first that offends, and accepts what is well named. -/

namespace ContentSdl

/-- Where a field stands: the uids on the way down to it, those of its earlier siblings, its own. -/
structure Position where
  way : List String
  earlier : List String
  uid : String

namespace Position

def Offends (p : Position) : Prop := p.uid = "" ∨ p.uid ∈ p.earlier

instance (p : Position) : Decidable p.Offends := inferInstanceAs (Decidable (_ ∨ _))

/-- What is wrong at a position that offends. An empty uid comes before a repeated one. -/
def error (p : Position) : SchemaError :=
  let parent := String.intercalate "." p.way
  if p.uid = "" then .emptyUid parent else .duplicateField parent p.uid

end Position

mutual
/-- The positions in a list of fields: a field, then those in its schemas, then its later siblings. -/
def positionsOf (way earlier : List String) : List Field → List Position
  | [] => []
  | ⟨uid, _, _, _, kind⟩ :: fs =>
    ⟨way, earlier, uid⟩ ::
      (positionsOfKind (way ++ [uid]) kind ++ positionsOf way (earlier ++ [uid]) fs)

def positionsOfKind (way : List String) : FieldKind → List Position
  | .group schema => positionsOf way [] schema
  | .globalField _ schema => positionsOf way [] schema
  | .blocks variants => positionsOfBlocks way variants
  | .scalar _ | .file | .reference _ | .unknown _ => []

def positionsOfBlocks (way : List String) : List Block → List Position
  | [] => []
  | ⟨uid, _, schema⟩ :: bs => positionsOf (way ++ [uid]) [] schema ++ positionsOfBlocks way bs
end

theorem positionsOf_append (way earlier : List String) (fs gs : List Field) :
    positionsOf way earlier (fs ++ gs) =
      positionsOf way earlier fs ++ positionsOf way (earlier ++ fs.map Field.uid) gs := by
  induction fs generalizing earlier with
  | nil => simp [positionsOf]
  | cons f fs ih =>
    obtain ⟨uid, displayName, mandatory, multiple, kind⟩ := f
    simp [positionsOf, ih]

def firstViolation (ps : List Position) : Except SchemaError Unit :=
  match ps.find? (·.Offends) with
  | none => .ok ()
  | some p => .error p.error

theorem firstViolation_append (ps qs : List Position) :
    firstViolation (ps ++ qs) = (do firstViolation ps; firstViolation qs) := by
  rw [firstViolation, firstViolation, List.find?_append]
  cases ps.find? (·.Offends) with
  | none => rfl
  | some p => rfl

theorem firstViolation_cons (p : Position) (ps : List Position) :
    firstViolation (p :: ps) = (do firstViolation [p]; firstViolation ps) :=
  firstViolation_append [p] ps

theorem firstViolation_eq_error_iff {ps : List Position} {e : SchemaError} :
    firstViolation ps = .error e ↔
      ∃ before p after, ps = before ++ p :: after ∧ (∀ q ∈ before, ¬ q.Offends) ∧ p.Offends ∧
        e = p.error := by
  rw [firstViolation]
  constructor
  · intro h
    cases hp : ps.find? (·.Offends) with
    | none => rw [hp] at h; cases h
    | some p =>
      rw [hp] at h
      cases h
      obtain ⟨hoff, before, after, rfl, hbefore⟩ := List.find?_eq_some_iff_append.mp hp
      exact ⟨before, p, after, rfl, by simpa using hbefore, by simpa using hoff, rfl⟩
  · rintro ⟨before, p, after, rfl, hbefore, hp, rfl⟩
    have : (before ++ p :: after).find? (·.Offends) = some p :=
      List.find?_eq_some_iff_append.mpr
        ⟨by simpa using hp, before, after, rfl, by simpa using hbefore⟩
    rw [this]

/-- A path is the uids on the way down, joined. It is empty only where there are none. -/
private def Joined (way : List String) (path : String) : Prop :=
  path = String.intercalate "." way ∧ (path = "" → way = [])

private theorem Joined.child {way : List String} {path uid : String} (h : Joined way path)
    (hne : path ≠ "" ∨ uid ≠ "") : Joined (way ++ [uid]) (childPath path uid) := by
  rw [childPath]
  split
  · rename_i hpath
    rw [h.2 hpath]
    exact ⟨by simp, fun huid => (hne.elim (· hpath) (· huid)).elim⟩
  · rename_i hpath
    have hway : way ≠ [] := by
      rintro rfl
      exact hpath h.1
    refine ⟨?_, fun h' => ?_⟩
    · rw [String.intercalate_append_of_ne_nil hway (List.cons_ne_nil _ _), ← h.1]
      simp
    · simp [String.append_eq_empty_iff, hpath] at h'

private theorem checkUid_eq {way earlier : List String} {path : String} {seen : List String}
    (hpath : Joined way path) (hseen : ∀ u, u ∈ seen ↔ u ∈ earlier) (uid : String) :
    checkUid path seen uid = firstViolation [⟨way, earlier, uid⟩] := by
  rw [checkUid, firstViolation, List.find?_singleton]
  by_cases hempty : uid = ""
  · simp [Position.Offends, Position.error, hempty, hpath.1]
  · by_cases hmem : uid ∈ earlier
    · simp [Position.Offends, Position.error, hempty, hseen, hmem, hpath.1]
    · simp [Position.Offends, hempty, hseen, hmem]

mutual
private theorem checkFields_eq {way earlier : List String} {path : String} {seen : List String}
    (hpath : Joined way path) (hseen : ∀ u, u ∈ seen ↔ u ∈ earlier) : (fs : List Field) →
    checkFields path seen fs = firstViolation (positionsOf way earlier fs)
  | [] => rfl
  | ⟨uid, displayName, mandatory, multiple, kind⟩ :: fs => by
    rw [checkFields, positionsOf, firstViolation_cons, firstViolation_append,
      ← checkUid_eq hpath hseen]
    cases huid : checkUid path seen uid with
    | error e => rfl
    | ok =>
      have hchild := hpath.child (.inr (checkUid_ok huid).1)
      have hseen' : ∀ u, u ∈ uid :: seen ↔ u ∈ earlier ++ [uid] := by
        intro u
        rw [List.mem_cons, List.mem_append, List.mem_singleton, hseen, or_comm]
      have hne : childPath path uid ≠ "" := fun h => by simpa using hchild.2 h
      rw [checkKind_eq hchild hne kind, checkFields_eq hpath hseen' fs]

private theorem checkKind_eq {way : List String} {path : String} (hpath : Joined way path)
    (hne : path ≠ "") : (kind : FieldKind) →
    checkKind path kind = firstViolation (positionsOfKind way kind)
  | .scalar _ | .file | .reference _ | .unknown _ => rfl
  | .group schema => by
    rw [checkKind, positionsOfKind, checkFields_eq hpath (fun _ => Iff.rfl) schema]
  | .globalField _ schema => by
    rw [checkKind, positionsOfKind, checkFields_eq hpath (fun _ => Iff.rfl) schema]
  | .blocks variants => by rw [checkKind, positionsOfKind, checkBlocks_eq hpath hne variants]

private theorem checkBlocks_eq {way : List String} {path : String} (hpath : Joined way path)
    (hne : path ≠ "") : (variants : List Block) →
    checkBlocks path variants = firstViolation (positionsOfBlocks way variants)
  | [] => rfl
  | ⟨uid, title, schema⟩ :: bs => by
    rw [checkBlocks, positionsOfBlocks, firstViolation_append,
      checkFields_eq (hpath.child (.inl hne)) (fun _ => Iff.rfl) schema, checkBlocks_eq hpath hne bs]
end

private theorem checkFields_of_each {fs : List Field}
    (each : ∀ f ∈ fs, ∀ path, checkKind path f.kind = .ok ()) (nonempty : ∀ f ∈ fs, f.uid ≠ "")
    (distinct : (fs.map Field.uid).Nodup) {seen : List String} (new : ∀ f ∈ fs, f.uid ∉ seen)
    (path : String) : checkFields path seen fs = .ok () := by
  induction fs generalizing seen with
  | nil => rfl
  | cons f fs ih =>
    obtain ⟨hf, hfs⟩ := List.forall_mem_cons.mp each
    obtain ⟨hempty, hnonempty⟩ := List.forall_mem_cons.mp nonempty
    obtain ⟨hnew, hnews⟩ := List.forall_mem_cons.mp new
    obtain ⟨hnotin, hdistinct⟩ := List.nodup_cons.mp distinct
    have hlater : ∀ g ∈ fs, g.uid ∉ f.uid :: seen := by
      intro g hg hmem
      rcases List.mem_cons.mp hmem with heq | hmem
      · exact hnotin (heq ▸ List.mem_map_of_mem hg)
      · exact hnews g hg hmem
    obtain ⟨uid, displayName, mandatory, multiple, kind⟩ := f
    have huid : checkUid path seen uid = .ok () := by rw [checkUid, if_neg hempty, if_neg hnew]
    have hkind : checkKind (childPath path uid) kind = .ok () := hf _
    have hrest := ih hfs hnonempty hdistinct hlater
    rw [checkFields, huid, hkind, hrest]
    rfl

private theorem checkBlocks_of_each {variants : List Block}
    (each : ∀ b ∈ variants, ∀ path, checkFields path [] b.schema = .ok ()) (path : String) :
    checkBlocks path variants = .ok () := by
  induction variants with
  | nil => rfl
  | cons b variants ih =>
    obtain ⟨hb, hvariants⟩ := List.forall_mem_cons.mp each
    obtain ⟨uid, title, schema⟩ := b
    have hschema : checkFields (childPath path uid) [] schema = .ok () := hb _
    rw [checkBlocks, hschema, ih hvariants]
    rfl

private theorem checkSchema_of_each {schema : List Field} (h : WellNamed schema)
    (each : ∀ f ∈ schema, (∀ s ∈ f.schemas, WellNamed s) → ∀ path, checkKind path f.kind = .ok ())
    (path : String) : checkFields path [] schema = .ok () := by
  cases h with
  | intro nonempty distinct below =>
    exact checkFields_of_each (fun f hf => each f hf (below f hf)) nonempty distinct
      (fun _ _ => List.not_mem_nil) path

private theorem checkKind_of_wellNamed (f : Field) : (∀ schema ∈ f.schemas, WellNamed schema) →
    ∀ path, checkKind path f.kind = .ok () := by
  induction f using Field.tree_induction with
  | step f ih =>
    intro below path
    obtain ⟨uid, displayName, mandatory, multiple, kind⟩ := f
    cases kind with
    | scalar | file | reference | unknown => rfl
    | group schema =>
      rw [checkKind]
      exact checkSchema_of_each (below schema List.mem_cons_self) ih path
    | globalField definition schema =>
      rw [checkKind]
      exact checkSchema_of_each (below schema List.mem_cons_self) ih path
    | blocks variants =>
      rw [checkKind]
      refine checkBlocks_of_each (fun b hb => checkSchema_of_each ?_ fun g hg => ih g ?_) path
      · exact below b.schema (List.mem_map_of_mem hb)
      · exact List.mem_flatMap.mpr ⟨b, hb, hg⟩

theorem checkFields_ok_iff {path : String} {fs : List Field} :
    checkFields path [] fs = .ok () ↔ WellNamed fs :=
  ⟨wellNamed_of_checkFields, fun h => checkSchema_of_each h (fun f _ => checkKind_of_wellNamed f) path⟩

/-- A validation of lists of fields decides whether they are well named, and reports the first
violation; `way` is what the paths to their fields begin with. -/
structure ReportsFirst (way : List String) (validate : List Field → Except SchemaError Unit) :
    Prop where
  accepts : ∀ fs, validate fs = .ok () ↔ WellNamed fs
  rejects : ∀ fs e, validate fs = .error e ↔
    ∃ before p after, positionsOf way [] fs = before ++ p :: after ∧
      (∀ q ∈ before, ¬ q.Offends) ∧ p.Offends ∧ e = p.error
  keeps : ∀ fs gs e, validate fs = .error e → validate (fs ++ gs) = .error e
  initial : ∀ fs gs, validate (fs ++ gs) = .ok () → validate fs = .ok ()

private theorem reportsFirst_checkFields {way : List String} {path : String}
    (hpath : Joined way path) : ReportsFirst way (checkFields path []) := by
  have hcheck : ∀ fs, checkFields path [] fs = firstViolation (positionsOf way [] fs) :=
    checkFields_eq hpath fun _ => Iff.rfl
  have happend : ∀ fs gs, checkFields path [] (fs ++ gs) = (do
      checkFields path [] fs
      firstViolation (positionsOf way (fs.map Field.uid) gs)) := by
    intro fs gs
    rw [hcheck, hcheck, positionsOf_append, firstViolation_append, List.nil_append]
  refine ⟨fun fs => checkFields_ok_iff, fun fs e => ?_, fun fs gs e h => ?_, fun fs gs h => ?_⟩
  · rw [hcheck]
    exact firstViolation_eq_error_iff
  · rw [happend, h]
    rfl
  · rw [happend] at h
    obtain ⟨_, hfs, _⟩ := Json.bind_ok h
    exact hfs

/-- The path of a content type begins with its uid, unless that is empty. -/
theorem validation_reportsFirst :
    ReportsFirst [] validateFields ∧
      ∀ uid title, ReportsFirst (if uid = "" then [] else [uid])
        fun schema => (ContentType.mk uid title schema).validate := by
  refine ⟨reportsFirst_checkFields ⟨rfl, fun _ => rfl⟩, fun uid title => ?_⟩
  have hpath : Joined (if uid = "" then [] else [uid]) uid := by
    split
    · rename_i h
      exact ⟨h, fun _ => rfl⟩
    · rename_i h
      exact ⟨String.intercalate_singleton.symm, fun h' => (h h').elim⟩
  exact reportsFirst_checkFields hpath

/-- The repeated uid in a variant is reported, not the repeated uid after it. -/
theorem validation_reportsFirst_page :
    let hero : Block := ⟨"hero", none, [.make "a" (.scalar .text), .make "a" (.scalar .text)]⟩
    let schema : List Field := [.make "modules" (.blocks [hero])]
    (ContentType.mk "page" "Page" schema).validate =
        .error (.duplicateField "page.modules.hero" "a") ∧
      (ContentType.mk "page" "Page" (schema ++ [.make "modules" .file])).validate =
        .error (.duplicateField "page.modules.hero" "a") := by
  intro hero schema
  have h : (ContentType.mk "page" "Page" schema).validate =
      .error (.duplicateField "page.modules.hero" "a") := rfl
  exact ⟨h, (validation_reportsFirst.2 "page" "Page").keeps schema _ _ h⟩

end ContentSdl
