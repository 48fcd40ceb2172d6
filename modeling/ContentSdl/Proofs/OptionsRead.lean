import ContentSdl.Config
import ContentSdl.Proofs.DecodingPaths

/-! # Options are read the same with the rest of a configuration and without it

The members of the options are members of the configuration, and those that are not can be skipped. -/

namespace ContentSdl

open Json (Node Lexeme Fault Document Decoded Shape bind_ok map_ok)

theorem Json.Shape.member?_eq_some_iff {μ : Type} {shape : Shape μ} (known : shape.Known)
    {key : String} {m : μ} : shape.member? key = some m ↔ shape.name m = key :=
  ⟨Shape.name_of_member?, fun h => h ▸ known m⟩

theorem known_configShape : configShape.Known := by
  intro m
  cases m with
  | enabled | typePrefix => decide
  | option m => cases m <;> decide

theorem known_optionsShape : optionsShape.Known := by
  intro m
  cases m <;> decide

/-- The option that a member of a configuration sets, if it sets one. -/
def ConfigMember.option? : ConfigMember → Option OptionsMember
  | .enabled | .typePrefix => none
  | .option m => some m

theorem ConfigMember.option?_eq_some_iff {k : ConfigMember} {m : OptionsMember} :
    k.option? = some m ↔ k = .option m := by
  cases k <;> simp [option?]

/-- A key names an option by itself if it does so in a configuration. -/
theorem member?_optionsShape (key : String) :
    optionsShape.member? key = (configShape.member? key).bind ConfigMember.option? := by
  ext m
  rw [Shape.member?_eq_some_iff known_optionsShape, Option.bind_eq_some_iff]
  simp only [ConfigMember.option?_eq_some_iff, exists_eq_right]
  exact (Shape.member?_eq_some_iff (m := .option m) known_configShape).symm

/-- The entries for options among those of a configuration. -/
def optionEntries (es : List (ConfigMember × Node)) : List (OptionsMember × Node) :=
  es.filterMap fun e => e.1.option?.map (·, e.2)

theorem given_optionsShape (ms : List (Lexeme String × Node)) :
    optionsShape.given ms = optionEntries (configShape.given ms) := by
  rw [Shape.given, optionEntries, Shape.given, List.filterMap_filterMap]
  congr 1
  funext e
  cases e.1.decoded with
  | error f => rfl
  | ok key =>
    dsimp only
    rw [member?_optionsShape]
    cases configShape.member? key <;> rfl

theorem nodup_optionEntries {es : List (ConfigMember × Node)} (h : (es.map (·.1)).Nodup) :
    ((optionEntries es).map (·.1)).Nodup := by
  have keys : (optionEntries es).map (·.1) = (es.map (·.1)).filterMap ConfigMember.option? := by
    rw [optionEntries, List.map_filterMap, List.filterMap_map]
    congr 1
    funext e
    cases h : e.1.option? <;> simp [h]
  rw [keys]
  refine h.filterMap fun k k' m hk hk' => ?_
  rw [ConfigMember.option?_eq_some_iff.mp hk, ConfigMember.option?_eq_some_iff.mp hk']

namespace Config

/-- The value of a member can be skipped as well. -/
theorem skim_of_put {c d : Config} {m : ConfigMember} {n : Node} (h : c.put m n = .ok d) :
    n.skim = .ok () := by
  have bool {b : Bool} (hb : Json.decodeBool n = .ok b) : n.skim = .ok () := by
    rw [Json.decodeBool_eq_ok_iff.mp hb, Node.skim]
  cases m with
  | enabled =>
    obtain ⟨b, hb, -⟩ := map_ok h
    exact bool hb
  | typePrefix =>
    obtain ⟨s, hs, -⟩ := map_ok h
    obtain ⟨x, rfl, hx⟩ := Json.decodeString_eq_ok_iff.mp hs
    rw [Node.skim]
    exact x.skips s hx
  | option m =>
    obtain ⟨o, ho, -⟩ := map_ok h
    cases m with
    | disableMandatory | separateGlobals =>
      obtain ⟨b, hb, -⟩ := map_ok ho
      exact bool hb

theorem skim_of_foldlM {es : List (ConfigMember × Node)} {c d : Config}
    (h : es.foldlM (fun c e => c.put e.1 e.2) c = .ok d) : ∀ e ∈ es, e.2.skim = .ok () := by
  induction es generalizing c with
  | nil => exact List.forall_mem_nil _
  | cons e es ih =>
    rw [List.foldlM_cons] at h
    obtain ⟨c', hput, h⟩ := bind_ok h
    exact List.forall_mem_cons.mpr ⟨skim_of_put hput, ih h⟩

/-- Other members leave the options as they are. -/
theorem options_foldlM {es : List (ConfigMember × Node)} {c d : Config}
    (h : es.foldlM (fun c e => c.put e.1 e.2) c = .ok d) :
    (optionEntries es).foldlM (fun o e => o.put e.1 e.2) c.options = .ok d.options := by
  induction es generalizing c with
  | nil => exact congrArg (Except.ok ∘ options) (Except.ok.inj h)
  | cons e es ih =>
    obtain ⟨k, n⟩ := e
    rw [List.foldlM_cons] at h
    obtain ⟨c', hput, h⟩ := bind_ok h
    have rest := ih h
    cases k with
    | enabled | typePrefix =>
      obtain ⟨_, -, rfl⟩ := map_ok hput
      exact rest
    | option m =>
      obtain ⟨o, ho, rfl⟩ := map_ok hput
      change ((m, n) :: optionEntries es).foldlM (fun o e => o.put e.1 e.2) c.options = _
      rw [List.foldlM_cons, ho]
      exact rest

end Config

/-- An object that makes up a configuration makes up its options. -/
theorem fill_options_of_config {ms : List (Lexeme String × Node)} {ending : Option Fault} {c : Config}
    (h : (configShape.objectEntries ending [] ms).fill Config.put {} = .ok c) :
    (optionsShape.objectEntries ending [] ms).fill Options.put {} = .ok c.options := by
  rw [Shape.fill_objectEntries_iff_given] at h ⊢
  obtain ⟨rfl, passes, ⟨nodup, -⟩, -, puts⟩ := h
  -- What only the configuration knows is skipped by the options.
  have skims (e) (he : e ∈ ms) : optionsShape.Passes e := by
    obtain ⟨key, hkey, hskim⟩ := passes e he
    refine ⟨key, hkey, fun _ => ?_⟩
    cases hm : configShape.member? key with
    | none => exact hskim hm
    | some m =>
      have given : (m, e.2) ∈ configShape.given ms :=
        List.mem_filterMap.mpr ⟨e, he, by simp [hkey, hm]⟩
      exact Config.skim_of_foldlM puts _ given
  rw [given_optionsShape]
  exact ⟨rfl, skims, ⟨nodup_optionEntries nodup, fun _ _ => List.not_mem_nil⟩, by simp [optionsShape],
    Config.options_foldlM puts⟩

namespace Options

def isOn (o : Options) : OptionsMember → Bool
  | .disableMandatory => o.disableMandatory
  | .separateGlobals => o.separateGlobals

theorem isOn_of_put {o o' : Options} {m : OptionsMember} {n : Node} (h : o.put m n = .ok o') :
    ∃ b, n = .bool b ∧ o'.isOn m = b ∧ ∀ k, k ≠ m → o'.isOn k = o.isOn k := by
  cases m with
  | disableMandatory | separateGlobals =>
    obtain ⟨b, hb, rfl⟩ := map_ok h
    refine ⟨b, Json.decodeBool_eq_ok_iff.mp hb, rfl, fun k hk => ?_⟩
    cases k with
    | disableMandatory | separateGlobals => first | rfl | exact absurd rfl hk

theorem isOn_foldlM_iff {es : List (OptionsMember × Node)} (nodup : (es.map (·.1)).Nodup)
    {o o' : Options} (h : es.foldlM (fun o e => o.put e.1 e.2) o = .ok o') (m : OptionsMember) :
    o'.isOn m = true ↔ (m, .bool true) ∈ es ∨ m ∉ es.map (·.1) ∧ o.isOn m = true := by
  induction es generalizing o with
  | nil =>
    rw [← Except.ok.inj h]
    simp
  | cons e es ih =>
    obtain ⟨k, n⟩ := e
    rw [List.foldlM_cons] at h
    obtain ⟨t, hput, h⟩ := bind_ok h
    rw [List.map_cons, List.nodup_cons] at nodup
    rw [ih nodup.2 h, List.map_cons, List.mem_cons, List.mem_cons]
    obtain ⟨b, rfl, here, others⟩ := isOn_of_put hput
    by_cases hm : m = k
    · subst hm
      have new : m ∉ es.map (·.1) := nodup.1
      have absent : (m, Node.bool true) ∉ es := fun h => new (List.mem_map.mpr ⟨_, h, rfl⟩)
      cases b <;> simp [new, absent, here]
    · simp [hm, others m hm]

end Options

/-- An option is on if and only if the object says so under its key. -/
theorem isOn_iff_of_fill {ms : List (Lexeme String × Node)} {ending : Option Fault} {o : Options}
    (h : (optionsShape.objectEntries ending [] ms).fill Options.put {} = .ok o) (m : OptionsMember) :
    o.isOn m = true ↔ ∃ e ∈ ms, e.1.decoded = .ok m.name ∧ e.2 = .bool true := by
  rw [Shape.fill_objectEntries_iff_given] at h
  obtain ⟨-, -, ⟨nodup, -⟩, -, puts⟩ := h
  have off : Options.isOn {} m = false := by cases m <;> rfl
  rw [Options.isOn_foldlM_iff nodup puts, off, Shape.mem_given known_optionsShape, Json.mem_valuesOf]
  simp only [Bool.false_eq_true, and_false, or_false]
  rfl

/-- If a text with an object is accepted as a configuration, it is accepted as options, and those are
the options of the configuration: on if the object says so under their keys, and off otherwise. -/
theorem Options.ofText_of_config {text : String} {ms : List (Lexeme String × Node)}
    {ending : Option Fault} (object : (Document.ofChars text.toList).root = .object ms ending)
    {c : Config} (accepted : Config.ofText text = .ok c) :
    Options.ofText text = .ok c.options ∧
      ∀ m, c.options.isOn m = true ↔ ∃ e ∈ ms, e.1.decoded = .ok m.name ∧ e.2 = .bool true := by
  obtain ⟨decoded, nothing⟩ := Json.Document.finish_eq_ok_iff.mp accepted
  rw [object] at decoded
  have filled := fill_options_of_config decoded
  refine ⟨Json.Document.finish_eq_ok_iff.mpr ⟨?_, nothing⟩, isOn_iff_of_fill filled⟩
  rw [object]
  exact filled

/-- A key of the host, and an unknown one behind which that of the host has a value of another type. -/
theorem Options.ofText_of_config_note :
    let text := "\x7b\"typePrefix\":\"CS\",\"note\":[null,\x7b\"typePrefix\":[]\x7d]," ++
      "\"disableMandatoryFields\":true\x7d"
    let config : Config := { typePrefix := "CS", options := { disableMandatory := true } }
    Config.ofText text = .ok config ∧ Options.ofText text = .ok config.options ∧
      config.options.isOn .disableMandatory = true := by
  intro text config
  have object : (Document.ofChars text.toList).root =
      .object [(.valid "typePrefix", .string (.valid "CS")),
        (.valid "note", .array [.null, .object [(.valid "typePrefix", .array [] none)] none] none),
        (.valid "disableMandatoryFields", .bool true)] none := by
    dsimp only [text]
    cbv
  have accepted : Config.ofText text = .ok config := by
    dsimp only [text, config]
    cbv
  obtain ⟨read, on⟩ := Options.ofText_of_config object accepted
  exact ⟨accepted, read, (on .disableMandatory).mpr ⟨_, .tail _ (.tail _ (.head _)), rfl, rfl⟩⟩

end ContentSdl
