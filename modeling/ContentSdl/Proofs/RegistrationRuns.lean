import ContentSdl.Proofs.Registration

/-! # Registrations in turn on one document -/

namespace ContentSdl

/-- A call: a configuration, and where content types come from. -/
structure Request where
  config : Config
  source : Source

namespace SchemaDocument

/-- How a call ends, and the document after it. -/
def register (d : SchemaDocument) (r : Request) : Except HostError Report × SchemaDocument :=
  let outcome := customize r.config r.source
  (outcome.result, d.apply outcome)

/-- How calls in turn end, and the document after all of them. -/
def registerAll (d : SchemaDocument) :
    List Request → List (Except HostError Report) × SchemaDocument
  | [] => ([], d)
  | r :: rs =>
    let (result, d) := d.register r
    let (results, d) := d.registerAll rs
    (result :: results, d)

end SchemaDocument

namespace Request

/-- Generation is enabled, and content types are fetched. -/
def registers (r : Request) : Bool := r.config.enabled && r.source.fetch.isOk

/-- What a call registers on a fresh document. -/
def texts (r : Request) : List String := (({} : SchemaDocument).register r).2.types

end Request

theorem Plan.definitions_fold_ofContentTypes (s : Style) (cs : List ContentType) :
    ∃ rest, (Plan.ofContentTypes s cs).fold.definitions.map TypeDefinition.render =
      linkDeclaration.render :: rest := by
  obtain ⟨-, declarations, -⟩ := Plan.foldl_add { run := { style := s } } cs
  have first : ∃ rest, (Plan.ofContentTypes s cs).fold.declarations = linkDeclaration :: rest :=
    ⟨_, (congrArg (fun ds => (foldPlaceholders ds _).1) declarations).trans
      (foldPlaceholders_link _ _)⟩
  obtain ⟨rest, first⟩ := first
  rw [Plan.definitions, first]
  exact ⟨_, rfl⟩

/-- What a call does to a document: nothing, or all of its texts in one handover. -/
structure Gated (d : SchemaDocument) (r : Request) (result : Except HostError Report)
    (d' : SchemaDocument) : Prop where
  disabled : r.config.enabled = false → result = .ok {} ∧ d' = d
  failed : ∀ e, r.config.enabled = true → r.source.fetch = .error e → result = .error e ∧ d' = d
  registered : r.registers = true →
    (∃ report, result = .ok report) ∧ d' = ⟨d.types ++ r.texts, d.calls + 1⟩
  link : r.registers = true → ∃ rest, r.texts = linkDeclaration.render :: rest

namespace SchemaDocument

private theorem register_disabled {r : Request} (h : r.config.enabled = false)
    (d : SchemaDocument) : d.register r = (.ok {}, d) := by
  simp [register, customize, h, apply]

private theorem register_failed {r : Request} {e : HostError} (h : r.config.enabled = true)
    (hf : r.source.fetch = .error e) (d : SchemaDocument) : d.register r = (.error e, d) := by
  simp [register, customize, h, hf, apply]

private theorem register_fetched {r : Request} {cs : List ContentType}
    (h : r.config.enabled = true) (hf : r.source.fetch = .ok cs) (d : SchemaDocument) :
    ∃ report, d.register r =
      (.ok report, d.create (Plan.ofContentTypes r.config.style cs).fold.definitions) := by
  simp [register, customize, h, hf, apply]

private theorem texts_fetched {r : Request} {cs : List ContentType}
    (h : r.config.enabled = true) (hf : r.source.fetch = .ok cs) : r.texts =
      (Plan.ofContentTypes r.config.style cs).fold.definitions.map TypeDefinition.render := by
  obtain ⟨_, hr⟩ := register_fetched h hf {}
  rw [Request.texts, hr, create, List.nil_append]

private theorem exists_fetched {r : Request} (h : r.registers = true) :
    r.config.enabled = true ∧ ∃ cs, r.source.fetch = .ok cs := by
  rw [Request.registers, Bool.and_eq_true] at h
  cases hf : r.source.fetch with
  | ok cs => exact ⟨h.1, cs, rfl⟩
  | error e => rw [hf] at h; cases h.2

theorem gated_register (d : SchemaDocument) (r : Request) :
    Gated d r (d.register r).1 (d.register r).2 where
  disabled h := by rw [register_disabled h]; exact ⟨rfl, rfl⟩
  failed e h hf := by rw [register_failed h hf]; exact ⟨rfl, rfl⟩
  registered h := by
    obtain ⟨henabled, cs, hf⟩ := exists_fetched h
    obtain ⟨report, hr⟩ := register_fetched henabled hf d
    rw [hr, texts_fetched henabled hf]
    exact ⟨⟨report, rfl⟩, rfl⟩
  link h := by
    obtain ⟨henabled, cs, hf⟩ := exists_fetched h
    rw [texts_fetched henabled hf]
    exact Plan.definitions_fold_ofContentTypes _ cs

theorem register_of_not_registers {r : Request} (h : r.registers = false) (d : SchemaDocument) :
    (d.register r).2 = d := by
  have hgated := d.gated_register r
  cases henabled : r.config.enabled with
  | false => exact (hgated.disabled henabled).2
  | true =>
    cases hf : r.source.fetch with
    | error e => exact (hgated.failed e henabled hf).2
    | ok cs => simp [Request.registers, henabled, hf, Except.isOk, Except.toBool] at h

theorem registerAll_append (d : SchemaDocument) (rs rs' : List Request) :
    (d.registerAll (rs ++ rs')).2 = ((d.registerAll rs).2.registerAll rs').2 := by
  induction rs generalizing d with
  | nil => rfl
  | cons r rs ih => exact ih _

theorem results_registerAll (d : SchemaDocument) (rs : List Request) :
    (d.registerAll rs).1 = rs.map fun r => (({} : SchemaDocument).register r).1 := by
  induction rs generalizing d with
  | nil => rfl
  | cons r rs ih => exact congrArg (_ :: ·) (ih _)

theorem document_registerAll (d : SchemaDocument) (rs : List Request) :
    (d.registerAll rs).2 =
      ⟨d.types ++ (rs.filter Request.registers).flatMap Request.texts,
        d.calls + rs.countP Request.registers⟩ := by
  induction rs generalizing d with
  | nil => simp [registerAll]
  | cons r rs ih =>
    change ((d.register r).2.registerAll rs).2 = _
    rw [ih]
    cases h : r.registers with
    | false => rw [register_of_not_registers h, List.filter_cons_of_neg (by simp [h]),
        List.countP_cons_of_neg (by simp [h])]
    | true =>
      rw [((d.gated_register r).registered h).2, List.filter_cons_of_pos h,
        List.countP_cons_of_pos h, List.flatMap_cons, List.append_assoc, Nat.add_assoc,
        Nat.add_comm 1]

/-- After calls in turn on a fresh document it has the texts of those that registered, and nothing
else; each call ends as it does on a fresh document, and at its turn does nothing or everything. -/
theorem registerAll_gated (rs : List Request) :
    let run := ({} : SchemaDocument).registerAll rs
    run.2.calls = rs.countP Request.registers ∧
      run.2.types = (rs.filter Request.registers).flatMap Request.texts ∧
      run.1 = rs.map (fun r => (({} : SchemaDocument).register r).1) ∧
      ∀ before r after, rs = before ++ r :: after →
        ∃ result, run.1[before.length]? = some result ∧
          Gated (({} : SchemaDocument).registerAll before).2 r result
            (({} : SchemaDocument).registerAll (before ++ [r])).2 := by
  intro run
  have document : run.2 = _ := document_registerAll {} rs
  refine ⟨?_, ?_, results_registerAll {} rs, ?_⟩
  · rw [document, Nat.zero_add]
  · rw [document, List.nil_append]
  · rintro before r after hrs
    refine ⟨(({} : SchemaDocument).register r).1, ?_, ?_⟩
    · rw [results_registerAll, hrs]
      simp
    · rw [registerAll_append]
      exact gated_register _ r

/-- Two of four calls register; a source that fails is not asked unless generation is enabled. -/
theorem registerAll_gated_page :
    let page : Request := ⟨{ enabled := true }, .given [.make "page" [.make "title" (.scalar .text)]]⟩
    let off : Request := ⟨{}, .failing "down"⟩
    let down : Request := ⟨{ enabled := true }, .failing "down"⟩
    let empty : Request := ⟨{ enabled := true }, .given []⟩
    let run := ({} : SchemaDocument).registerAll [page, off, down, empty]
    run.2.calls = 2 ∧ run.2.types = page.texts ++ [linkDeclaration.render] ∧
      run.1[1]? = some (.ok {}) ∧ run.1[2]? = some (.error (.source "down")) := by
  intro page off down empty run
  obtain ⟨calls, types, -, turns⟩ := registerAll_gated [page, off, down, empty]
  obtain ⟨atOff, hOff, gatedOff⟩ := turns [page] off [down, empty] rfl
  obtain ⟨atDown, hDown, gatedDown⟩ := turns [page, off] down [empty] rfl
  refine ⟨calls, types, ?_, ?_⟩
  · exact hOff.trans (congrArg some (gatedOff.disabled rfl).1)
  · exact hDown.trans (congrArg some (gatedDown.failed _ rfl rfl).1)

end SchemaDocument

end ContentSdl
