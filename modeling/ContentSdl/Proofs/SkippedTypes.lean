import ContentSdl.Proofs.Registration

/-! # A content type that is not valid leaves its uid in the report, and nothing else -/

namespace ContentSdl

/-- The content types that are not built: those with an invalid schema. -/
def invalidTypes (cs : List ContentType) : List ContentType := cs.filter fun c => !c.validate.isOk

theorem invalidTypes_of_error {c : ContentType} {e : SchemaError} (h : c.validate = .error e)
    (cs : List ContentType) : invalidTypes (c :: cs) = c :: invalidTypes cs := by
  simp [invalidTypes, h, Except.isOk, Except.toBool]

theorem invalidTypes_of_ok {c : ContentType} (h : c.validate = .ok ()) (cs : List ContentType) :
    invalidTypes (c :: cs) = invalidTypes cs := by
  simp [invalidTypes, h, Except.isOk, Except.toBool]

theorem validTypes_validTypes (cs : List ContentType) :
    validTypes (validTypes cs) = validTypes cs := by
  simp [validTypes]

theorem invalidTypes_validTypes (cs : List ContentType) : invalidTypes (validTypes cs) = [] := by
  simp [invalidTypes, validTypes]

theorem length_validTypes_add (cs : List ContentType) :
    (validTypes cs).length + (invalidTypes cs).length = cs.length := by
  simpa [validTypes, invalidTypes, List.countP_eq_length_filter] using
    (List.length_eq_countP_add_countP (fun c : ContentType => c.validate.isOk) (l := cs)).symm

namespace Plan

theorem skipped_foldl_add (p : Plan) (cs : List ContentType) :
    (cs.foldl add p).report.skipped =
      p.report.skipped ++ (invalidTypes cs).map ContentType.uid := by
  induction cs generalizing p with
  | nil => simp [invalidTypes]
  | cons c cs ih =>
    rw [List.foldl_cons, ih]
    cases h : c.validate with
    | error e => simp [invalidTypes_of_error h, add, h]
    | ok _ => simp [invalidTypes_of_ok h, add, h]

theorem contentTypes_foldl_add (p : Plan) (cs : List ContentType) :
    (cs.foldl add p).report.contentTypes =
      p.report.contentTypes + (validTypes cs).length := by
  induction cs generalizing p with
  | nil => simp [validTypes]
  | cons c cs ih =>
    rw [List.foldl_cons, ih]
    cases h : c.validate with
    | error e => simp [validTypes_of_error h, add, h]
    | ok _ =>
      simp only [validTypes_of_ok h, List.length_cons, add, h]
      omega

/-- Plans that agree but for the skipped uids, and for what was logged. -/
structure SameBuilds (p q : Plan) : Prop where
  run : p.run = q.run
  declarations : p.declarations = q.declarations
  objects : p.objects = q.objects
  report : { p.report with skipped := [] } = { q.report with skipped := [] }

namespace SameBuilds

variable {p q : Plan}

theorem refl (p : Plan) : SameBuilds p p := ⟨rfl, rfl, rfl, rfl⟩

theorem skip (h : SameBuilds p q) {c : ContentType} {e : SchemaError}
    (invalid : c.validate = .error e) : SameBuilds (p.add c) q := by
  obtain ⟨run, declarations, objects⟩ := add_of_invalid (p := p) invalid
  refine ⟨run.trans h.run, declarations.trans h.declarations, objects.trans h.objects, ?_⟩
  rw [← h.report]
  simp [add, invalid]

theorem build (h : SameBuilds p q) {c : ContentType} (valid : c.validate = .ok ()) :
    SameBuilds (p.add c) (q.add c) := by
  obtain ⟨run, declarations, objects⟩ := add_of_valid (p := p) valid
  obtain ⟨run', declarations', objects'⟩ := add_of_valid (p := q) valid
  rw [h.run] at run declarations objects
  refine ⟨run.trans run'.symm, ?_, ?_, ?_⟩
  · rw [declarations, declarations', h.declarations]
  · rw [objects, objects', h.objects]
  · obtain ⟨contentTypes, references, files, globals⟩ : p.report.contentTypes = q.report.contentTypes ∧
        p.report.references = q.report.references ∧ p.report.files = q.report.files ∧
          p.report.globals = q.report.globals := by
      simpa using h.report
    simp [add, valid, h.run, contentTypes, references, files, globals]

theorem foldl_add (h : SameBuilds p q) (cs : List ContentType) :
    SameBuilds (cs.foldl add p) ((validTypes cs).foldl add q) := by
  -- An invalid content type is a step of the first plan alone.
  induction cs generalizing p q with
  | nil => exact h
  | cons c cs ih =>
    cases hc : c.validate with
    | error e =>
      rw [validTypes_of_error hc]
      exact ih (h.skip hc)
    | ok _ =>
      rw [validTypes_of_ok hc]
      exact ih (h.build hc)

theorem fold (h : SameBuilds p q) : SameBuilds p.fold q.fold where
  run := h.run
  declarations := by simp only [Plan.fold, h.declarations, h.objects]
  objects := by simp only [Plan.fold, h.declarations, h.objects]
  report := h.report

theorem definitions (h : SameBuilds p q) : p.definitions = q.definitions := by
  rw [Plan.definitions, Plan.definitions, h.declarations, h.objects]

end SameBuilds

theorem sameBuilds_validTypes (s : Style) (cs : List ContentType) :
    SameBuilds (ofContentTypes s cs).fold (ofContentTypes s (validTypes cs)).fold :=
  ((SameBuilds.refl { run := { style := s } }).foldl_add cs).fold

end Plan

/-- A registration of content types hands over what a registration of the valid ones among them hands
over, and reports the same but for the uids that it has skipped: those of the others, in order. -/
theorem customize_validTypes (config : Config) (source source' : Source) (cs : List ContentType)
    (enabled : config.enabled = true) (fetched : source.fetch = .ok cs)
    (fetched' : source'.fetch = .ok (validTypes cs)) :
    let skipped := (invalidTypes cs).map ContentType.uid
    ∃ definitions report,
      (customize config source).definitions? = some definitions ∧
        (customize config source').definitions? = some definitions ∧
        (customize config source).result = .ok { report with skipped := skipped } ∧
        (customize config source').result = .ok report ∧
        report.skipped = [] ∧
        report.contentTypes + skipped.length = cs.length := by
  intro skipped
  let p := (Plan.ofContentTypes config.style cs).fold
  let q := (Plan.ofContentTypes config.style (validTypes cs)).fold
  have same : p.SameBuilds q := Plan.sameBuilds_validTypes config.style cs
  have skips : p.report.skipped = skipped :=
    Plan.skipped_foldl_add { run := { style := config.style } } cs
  have skips' : q.report.skipped = [] := by
    have h := Plan.skipped_foldl_add { run := { style := config.style } } (validTypes cs)
    rw [invalidTypes_validTypes] at h
    exact h
  have count : q.report.contentTypes = (validTypes cs).length := by
    have h := Plan.contentTypes_foldl_add { run := { style := config.style } } (validTypes cs)
    rw [validTypes_validTypes, Nat.zero_add] at h
    exact h
  have report : p.report = { q.report with skipped := skipped } := by
    rw [← skips]
    exact congrArg (fun r : Report => { r with skipped := p.report.skipped }) same.report
  refine ⟨q.definitions, { q.report with globals := q.run.registry.globals.entries },
    ?_, ?_, ?_, ?_, skips', ?_⟩
  · rw [← same.definitions]
    simp [customize, enabled, fetched, p]
  · simp [customize, enabled, fetched', q]
  · have result : (customize config source).result =
        .ok { p.report with globals := p.run.registry.globals.entries } := by
      simp [customize, enabled, fetched, p]
    rw [result, report, same.run]
  · simp [customize, enabled, fetched', q]
  · rw [List.length_map]
    exact (congrArg (· + _) count).trans (length_validTypes_add cs)

/-- Neither an empty uid nor a repeated one, of fields that would declare types, disturbs a post and its
author. -/
theorem customize_validTypes_post_person :
    let config : Config := { enabled := true, typePrefix := "CS" }
    let post : ContentType := .make "post" [.make "author" (.reference ["person"])]
    let odd : ContentType := .make "odd" [.make "" (.reference ["post"])]
    let person : ContentType := .make "person" [.make "photo" .file]
    let twice : ContentType := .make "twice" [.make "a" .file, .make "a" (.reference ["person"])]
    ∃ definitions report,
      (customize config (.given [odd, post, twice, person, odd])).definitions? = some definitions ∧
        (customize config (.given [post, person])).definitions? = some definitions ∧
        (customize config (.given [odd, post, twice, person, odd])).result =
          .ok { report with skipped := ["odd", "twice", "odd"] } ∧
        (customize config (.given [post, person])).result = .ok report ∧
        report.skipped = [] ∧ report.contentTypes = 2 := by
  intro config post odd person twice
  obtain ⟨definitions, report, handed, handed', result, result', skipped, count⟩ :=
    customize_validTypes config (.given [odd, post, twice, person, odd]) (.given [post, person])
      [odd, post, twice, person, odd] rfl rfl rfl
  exact ⟨definitions, report, handed, handed', result, result', skipped,
    Nat.add_right_cancel (m := 3) count⟩

end ContentSdl
