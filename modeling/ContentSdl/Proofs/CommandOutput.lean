import ContentSdl.CommandLine
import ContentSdl.Proofs.RegistrationRuns
import Mathlib.Data.List.Permutation

/-! # The program prints a registration, or nothing

A file is read or refused, the configuration first. Once both are read, the program makes one call on a
fresh document. -/

namespace ContentSdl

namespace FileContent

variable {ε ε' α : Type} {read : String → Except ε α} {content : FileContent}

/-- A file that is there, is UTF-8, and whose text reads as something. -/
inductive Reads (read : String → Except ε α) : FileContent → α → Prop where
  | intro {bs : ByteArray} {text : String} {a : α} (utf8 : String.fromUTF8? bs = some text)
    (accepted : read text = .ok a) : Reads read (.bytes bs) a

/-- A file that is missing, is not UTF-8, or whose text is rejected. -/
inductive Refused (read : String → Except ε α) : FileContent → Prop where
  | missing : Refused read .missing
  | notUtf8 {bs : ByteArray} (invalid : String.fromUTF8? bs = none) : Refused read (.bytes bs)
  | rejected {bs : ByteArray} {text : String} {e : ε} (utf8 : String.fromUTF8? bs = some text)
    (rejected : read text = .error e) : Refused read (.bytes bs)

theorem refused_iff : content.Refused read ↔ ∀ a, ¬ content.Reads read a := by
  constructor
  · rintro refused a ⟨utf8, accepted⟩
    cases refused with
    | notUtf8 invalid => cases utf8.symm.trans invalid
    | rejected utf8' rejected =>
      obtain rfl := Option.some.inj (utf8.symm.trans utf8')
      cases accepted.symm.trans rejected
  · intro unread
    cases content with
    | missing => exact .missing
    | bytes bs =>
      cases utf8 : String.fromUTF8? bs with
      | none => exact .notUtf8 utf8
      | some text =>
        cases accepted : read text with
        | error e => exact .rejected utf8 accepted
        | ok a => exact absurd (.intro utf8 accepted) (unread a)

theorem reads_ofText {text : String} {a : α} (h : read text = .ok a) : (ofText text).Reads read a :=
  .intro (by simpa [String.fromUTF8?] using ⟨text.isValidUTF8, rfl⟩) h

/-- What becomes of a file by a reader of texts, however the errors are passed on. -/
theorem Reads.eq_ok {a : α} (h : content.Reads read a) (file : FileError → ε') (wrap : ε → ε') :
    (content.text.mapError file >>= fun text => (read text).mapError wrap) = .ok a := by
  obtain ⟨utf8, accepted⟩ := h
  simp [text, utf8, accepted, Except.mapError, bind, Except.bind]

theorem Refused.exists_error (h : content.Refused read) (file : FileError → ε') (wrap : ε → ε') :
    ∃ e, (content.text.mapError file >>= fun text => (read text).mapError wrap) = .error e := by
  cases h with
  | missing => exact ⟨_, rfl⟩
  | notUtf8 invalid =>
    simp [text, invalid, Except.mapError, bind, Except.bind]
  | rejected utf8 rejected =>
    simp [text, utf8, rejected, Except.mapError, bind, Except.bind]

end FileContent

/-- What the configuration argument comes to: the default one when there is none. -/
inductive Configures : Option FileContent → Config → Prop where
  | default : Configures none {}
  | file {file : FileContent} {c : Config} (h : file.Reads Config.ofText c) :
    Configures (some file) c

theorem Configures.commandConfig {config? : Option FileContent} {c : Config}
    (h : Configures config? c) : commandConfig config? = .ok c := by
  cases h with
  | default => rfl
  | file h => exact h.eq_ok CommandError.file (CommandError.host ∘ HostError.config)

theorem exists_configures {config? : Option FileContent}
    (h : ¬ ∃ file ∈ config?, file.Refused Config.ofText) : ∃ c, Configures config? c := by
  cases config? with
  | none => exact ⟨{}, .default⟩
  | some file =>
    by_contra unread
    exact h ⟨file, rfl, FileContent.refused_iff.mpr fun c reads => unread ⟨c, .file reads⟩⟩

/-- The configuration file or the content file is refused. -/
def Refuses (content : FileContent) (config? : Option FileContent) : Prop :=
  (∃ file ∈ config?, file.Refused Config.ofText) ∨ content.Refused parseContentTypes

theorem exists_of_not_refuses {content : FileContent} {config? : Option FileContent}
    (h : ¬ Refuses content config?) :
    ∃ c cs, Configures config? c ∧ content.Reads parseContentTypes cs := by
  obtain ⟨config, model⟩ := not_or.mp h
  obtain ⟨c, configured⟩ := exists_configures config
  by_contra unread
  exact model (FileContent.refused_iff.mpr fun cs reads => unread ⟨c, cs, configured, reads⟩)

/-- A registration depends on a source only through what it fetches. -/
theorem customize_of_fetch_eq (config : Config) {source source' : Source}
    (h : source.fetch = source'.fetch) : customize config source = customize config source' := by
  simp [customize, h]

/-- Once configured, the program makes one call on a fresh document. -/
theorem runCommand_of_configures {config? : Option FileContent} {c : Config}
    (h : Configures config? c) (content : FileContent) :
    let call := ({} : SchemaDocument).register ⟨c.enable, .file content⟩
    runCommand (content :: config?.toList) = (do
      let report ← call.1.mapError .host
      return ⟨call.2.text ++ "\n", report.summary⟩) := by
  have head : config?.toList.head? = config? := by cases config? <;> rfl
  intro call
  simp only [runCommand, head, h.commandConfig]
  rfl

theorem runCommand_of_refused_config {file : FileContent} (h : file.Refused Config.ofText) :
    ∃ e, ∀ content, runCommand [content, file] = .error e := by
  obtain ⟨e, failed⟩ := h.exists_error CommandError.file (CommandError.host ∘ HostError.config)
  refine ⟨e, fun content => ?_⟩
  have config : commandConfig (some file) = .error e := failed
  simp only [runCommand, List.head?_cons, config]
  rfl

theorem runCommand_of_refused_content {content : FileContent} {config? : Option FileContent}
    {c : Config} (h : Configures config? c) (refused : content.Refused parseContentTypes) :
    ∃ e, runCommand (content :: config?.toList) = .error e := by
  obtain ⟨e, fetch⟩ := refused.exists_error HostError.file .parse
  have failed := (({} : SchemaDocument).gated_register ⟨c.enable, .file content⟩).failed e rfl fetch
  refine ⟨.host e, ?_⟩
  rw [runCommand_of_configures h content, failed.1]
  rfl

theorem runCommand_of_refuses {content : FileContent} {config? : Option FileContent}
    (h : Refuses content config?) : ∃ e, runCommand (content :: config?.toList) = .error e := by
  -- the content file is looked at only once there is a configuration
  by_cases config : ∃ file ∈ config?, file.Refused Config.ofText
  · obtain ⟨file, ⟨rfl⟩, refused⟩ := config
    obtain ⟨e, failed⟩ := runCommand_of_refused_config refused
    exact ⟨e, failed content⟩
  · obtain ⟨c, configured⟩ := exists_configures config
    exact runCommand_of_refused_content configured (h.resolve_left config)

theorem runCommand_of_reads {content : FileContent} {config? : Option FileContent} {c : Config}
    {cs : List ContentType} (h : Configures config? c)
    (model : content.Reads parseContentTypes cs) :
    ∃ summary, runCommand (content :: config?.toList) =
      .ok ⟨String.intercalate "\n" (Request.texts ⟨c.enable, .given cs⟩) ++ "\n", summary⟩ := by
  have fetch : (Source.file content).fetch = (Source.given cs).fetch :=
    model.eq_ok HostError.file .parse
  have same : ({} : SchemaDocument).register ⟨c.enable, .file content⟩ =
      ({} : SchemaDocument).register ⟨c.enable, .given cs⟩ := by
    simp only [SchemaDocument.register, customize_of_fetch_eq c.enable fetch]
  obtain ⟨⟨report, result⟩, -⟩ :=
    (({} : SchemaDocument).gated_register ⟨c.enable, .given cs⟩).registered rfl
  refine ⟨report.summary, ?_⟩
  rw [runCommand_of_configures h content, same, result]
  rfl

/-- The program fails and prints nothing when a file is refused, the configuration first; else it
prints what one call with generation enabled registers, whether the configuration enables it or not. -/
theorem program_prints_registration (content : FileContent) (config? : Option FileContent) :
    let ending := program (content :: config?.toList)
    (Refuses content config? → ending.code = 1 ∧ ending.stdout = "") ∧
      (¬ Refuses content config? →
        ∃ c cs, Configures config? c ∧ content.Reads parseContentTypes cs) ∧
      (∀ c cs, Configures config? c → content.Reads parseContentTypes cs →
        ending.code = 0 ∧ ending.stdout =
          String.intercalate "\n" (Request.texts ⟨{ c with enabled := true }, .given cs⟩) ++ "\n") ∧
      (∀ file ∈ config?, file.Refused Config.ofText →
        ∀ content', program (content' :: config?.toList) = ending) ∧
      ∀ config?' c enabled, Configures config? c →
        Configures config?' { c with enabled := enabled } →
        program (content :: config?'.toList) = ending := by
  intro ending
  refine ⟨?_, exists_of_not_refuses, ?_, ?_, ?_⟩
  · intro refuses
    obtain ⟨e, failed⟩ := runCommand_of_refuses refuses
    have ended : ending = .of (.error e) := congrArg Ending.of failed
    rw [ended]
    exact ⟨rfl, rfl⟩
  · intro c cs configured model
    obtain ⟨summary, printed⟩ := runCommand_of_reads configured model
    have ended : ending = .of (.ok _) := congrArg Ending.of printed
    rw [ended]
    exact ⟨rfl, rfl⟩
  · rintro file ⟨rfl⟩ refused content'
    obtain ⟨e, failed⟩ := runCommand_of_refused_config refused
    exact congrArg Ending.of ((failed content').trans (failed content).symm)
  · intro config?' c enabled configured configured'
    have same : runCommand (content :: config?'.toList) = runCommand (content :: config?.toList) :=
      (runCommand_of_configures configured' content).trans
        (runCommand_of_configures configured content).symm
    exact congrArg Ending.of same

/-- A content type without fields under a configuration that disables generation, under none, and under
one that is missing. -/
theorem program_prints_registration_post :
    let model := "[\x7b\"uid\":\"post\",\"title\":\"Post\",\"schema\":[]\x7d]"
    let off := "\x7b\"enableSchemaGeneration\":false\x7d"
    let post := "type Contentstack_post implements Node \x7b uid:String!,locale:String," ++
      "created_at:Date,updated_at:Date,created_by:String,updated_by:String \x7d"
    program [.ofText model, .ofText off] = program [.ofText model] ∧
      (program [.ofText model]).stdout = linkDeclaration.render ++ "\n" ++ post ++ "\n" ∧
      program [.missing, .missing] = program [.ofText model, .missing] ∧
      (program [.ofText model, .missing]).code = 1 := by
  intro model off post
  have reads : (FileContent.ofText model).Reads parseContentTypes [⟨"post", "Post", []⟩] :=
    FileContent.reads_ofText (by dsimp only [model]; cbv)
  have configured : Configures (some (.ofText off)) {} :=
    .file (FileContent.reads_ofText (by dsimp only [off]; cbv))
  have texts : Request.texts ⟨{ ({} : Config) with enabled := true },
      .given [⟨"post", "Post", []⟩]⟩ = [linkDeclaration.render, post] := by decide
  obtain ⟨-, -, printed, -, flag⟩ := program_prints_registration (.ofText model) none
  obtain ⟨failed, -, -, first, -⟩ := program_prints_registration (.ofText model) (some .missing)
  have stdout := (printed _ _ .default reads).2
  rw [texts] at stdout
  exact ⟨flag _ _ _ .default configured, stdout, first _ rfl .missing _,
    (failed (.inl ⟨_, rfl, .missing⟩)).1⟩

end ContentSdl
