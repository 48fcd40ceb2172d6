import ContentSdl.Proofs.NodeSimulation
import Mathlib.Data.List.Induction

/-! # The tree of a text and its value decode alike

What can be read as a value can be skipped. A value has of members with one key the last, and its
members are sorted; a decoder that succeeds on the tree of a text takes no notice of either. -/

namespace ContentSdl.Json

namespace Node

/-- The elements of an array or the values of an object. -/
def children : Node → List Node
  | .array ns _ => ns
  | .object ms _ => ms.map (·.2)
  | .broken _ | .null | .bool _ | .number _ | .string _ => []

theorem sizeOf_lt_of_mem_children {n c : Node} (h : c ∈ n.children) : sizeOf c < sizeOf n := by
  cases n with
  | array ns ending =>
    have hc := List.sizeOf_lt_of_mem (show c ∈ ns from h)
    rw [array.sizeOf_spec]
    omega
  | object ms ending =>
    obtain ⟨⟨key, c⟩, hm, rfl⟩ := List.mem_map.mp (show c ∈ ms.map (·.2) from h)
    have hc := List.sizeOf_lt_of_mem hm
    rw [Prod.mk.sizeOf_spec] at hc
    rw [object.sizeOf_spec]
    dsimp only
    omega
  | broken | null | bool | number | string => cases h

/-- What holds of a node as soon as it holds of the nodes right below it holds of all nodes. -/
@[elab_as_elim]
theorem tree_induction {P : Node → Prop} (step : ∀ n, (∀ c ∈ n.children, P c) → P n) (n : Node) :
    P n :=
  step n fun c hc =>
    have := sizeOf_lt_of_mem_children hc
    tree_induction step c
termination_by sizeOf n

end Node

theorem skimElements_eq_ok_iff {ns : List Node} :
    skimElements ns = .ok () ↔ ∀ n ∈ ns, n.skim = .ok () := by
  induction ns with
  | nil => simp [skimElements]
  | cons n ns ih =>
    rw [skimElements, List.forall_mem_cons, ← ih]
    cases n.skim with
    | error f => exact iff_of_false nofun fun h => nomatch h.1
    | ok _ => exact ⟨fun h => ⟨rfl, h⟩, fun h => h.2⟩

theorem skimMembers_eq_ok_iff {ms : List (Lexeme String × Node)} :
    skimMembers ms = .ok () ↔ ∀ m ∈ ms, m.1.skipped = .ok () ∧ m.2.skim = .ok () := by
  induction ms with
  | nil => simp [skimMembers]
  | cons m ms ih =>
    obtain ⟨key, n⟩ := m
    rw [skimMembers, List.forall_mem_cons, ← ih]
    dsimp only
    cases key.skipped with
    | error f => exact iff_of_false nofun fun h => nomatch h.1.1
    | ok _ =>
      cases n.skim with
      | error f => exact iff_of_false nofun fun h => nomatch h.1.2
      | ok _ => exact ⟨fun h => ⟨⟨rfl, rfl⟩, h⟩, fun h => h.2⟩

theorem stop_eq_ok_iff {ending : Option Fault} : stop ending = .ok () ↔ ending = none := by
  cases ending with
  | none => exact iff_of_true rfl rfl
  | some f => exact iff_of_false nofun nofun

theorem skim_array_eq_ok_iff {ns : List Node} {ending : Option Fault} :
    (Node.array ns ending).skim = .ok () ↔ (∀ n ∈ ns, n.skim = .ok ()) ∧ ending = none := by
  rw [Node.skim, ← skimElements_eq_ok_iff, ← stop_eq_ok_iff]
  cases skimElements ns with
  | error f => exact iff_of_false nofun fun h => nomatch h.1
  | ok _ => exact ⟨fun h => ⟨rfl, h⟩, fun h => h.2⟩

theorem skim_object_eq_ok_iff {ms : List (Lexeme String × Node)} {ending : Option Fault} :
    (Node.object ms ending).skim = .ok () ↔
      (∀ m ∈ ms, m.1.skipped = .ok () ∧ m.2.skim = .ok ()) ∧ ending = none := by
  rw [Node.skim, ← skimMembers_eq_ok_iff, ← stop_eq_ok_iff]
  cases skimMembers ms with
  | error f => exact iff_of_false nofun fun h => nomatch h.1
  | ok _ => exact ⟨fun h => ⟨rfl, h⟩, fun h => h.2⟩

theorem exists_related {α β : Type} {R : α → β → Prop} {as : List α} {bs : List β}
    (h : List.Forall₂ R as bs) {a : α} (ha : a ∈ as) : ∃ b ∈ bs, R a b := by
  induction h with
  | nil => cases ha
  | cons hab _ ih =>
    rcases List.mem_cons.mp ha with rfl | ha
    · exact ⟨_, List.mem_cons_self, hab⟩
    · obtain ⟨b, hb, hab⟩ := ih ha
      exact ⟨b, List.mem_cons_of_mem _ hb, hab⟩

theorem forall₂_elementValues {room : Nat} {ns : List Node} {vs : List Value}
    (h : elementValues room ns = .ok vs) :
    List.Forall₂ (fun n v => n.value room = .ok v) ns vs := by
  induction ns generalizing vs with
  | nil =>
    cases h
    exact .nil
  | cons n ns ih =>
    rw [elementValues] at h
    obtain ⟨v, hv, h⟩ := bind_ok h
    obtain ⟨vs, hvs, h⟩ := bind_ok h
    cases h
    exact .cons hv (ih hvs)

theorem forall₂_memberValues {room : Nat} {ms : List (Lexeme String × Node)}
    {es : List (String × Value)} (h : memberValues room ms = .ok es) :
    List.Forall₂ (fun m e => m.1.decoded = .ok e.1 ∧ m.2.value room = .ok e.2) ms es := by
  induction ms generalizing es with
  | nil =>
    cases h
    exact .nil
  | cons m ms ih =>
    rw [memberValues] at h
    obtain ⟨key, hkey, h⟩ := bind_ok h
    obtain ⟨v, hv, h⟩ := bind_ok h
    obtain ⟨es, hes, h⟩ := bind_ok h
    cases h
    exact .cons ⟨hkey, hv⟩ (ih hes)

theorem exists_of_value_array {room : Nat} {ns : List Node} {ending : Option Fault} {v : Value}
    (h : (Node.array ns ending).value room = .ok v) :
    ∃ r vs, room = r + 1 ∧ ending = none ∧ v = .array vs ∧
      List.Forall₂ (fun n v => n.value r = .ok v) ns vs := by
  match room with
  | 0 => cases h
  | r + 1 =>
    rw [Node.value] at h
    obtain ⟨vs, hvs, h⟩ := bind_ok h
    obtain ⟨_, hending, h⟩ := bind_ok h
    exact ⟨r, vs, rfl, stop_eq_ok_iff.mp hending, (Except.ok.inj h).symm, forall₂_elementValues hvs⟩

theorem exists_of_value_object {room : Nat} {ms : List (Lexeme String × Node)}
    {ending : Option Fault} {v : Value} (h : (Node.object ms ending).value room = .ok v) :
    ∃ r es, room = r + 1 ∧ ending = none ∧ v = .object (sortMembers es) ∧
      List.Forall₂ (fun m e => m.1.decoded = .ok e.1 ∧ m.2.value r = .ok e.2) ms es := by
  match room with
  | 0 => cases h
  | r + 1 =>
    rw [Node.value] at h
    obtain ⟨es, hes, h⟩ := bind_ok h
    obtain ⟨_, hending, h⟩ := bind_ok h
    exact ⟨r, es, rfl, stop_eq_ok_iff.mp hending, (Except.ok.inj h).symm, forall₂_memberValues hes⟩

theorem value_array_of_forall₂ {room : Nat} {ns : List Node} {vs : List Value}
    (h : List.Forall₂ (fun n v => n.value room = .ok v) ns vs) :
    (Node.array ns none).value (room + 1) = .ok (.array vs) := by
  have elements : elementValues room ns = .ok vs := by
    induction h with
    | nil => rfl
    | cons hv _ ih =>
      rw [elementValues, hv, ih]
      rfl
  rw [Node.value, elements]
  rfl

theorem value_object_of_forall₂ {room : Nat} {ms : List (Lexeme String × Node)}
    {es : List (String × Value)}
    (h : List.Forall₂ (fun m e => m.1.decoded = .ok e.1 ∧ m.2.value room = .ok e.2) ms es) :
    (Node.object ms none).value (room + 1) = .ok (.object (sortMembers es)) := by
  have members : memberValues room ms = .ok es := by
    induction h with
    | nil => rfl
    | cons hm _ ih =>
      rw [memberValues, hm.1, hm.2, ih]
      rfl
  rw [Node.value, members]
  rfl

/-- What is read can be skipped. -/
theorem Node.skim_of_value {n : Node} {room : Nat} {v : Value} (h : n.value room = .ok v) :
    n.skim = .ok () := by
  induction n using Node.tree_induction generalizing room v with
  | step n ih =>
    cases n with
    | broken f => cases h
    | null | bool => rfl
    | number x =>
      obtain ⟨a, ha, -⟩ := map_ok h
      exact x.skips a ha
    | string x =>
      obtain ⟨a, ha, -⟩ := map_ok h
      exact x.skips a ha
    | array ns ending =>
      obtain ⟨r, vs, -, hending, -, each⟩ := exists_of_value_array h
      refine skim_array_eq_ok_iff.mpr ⟨fun n hn => ?_, hending⟩
      obtain ⟨v, -, hv⟩ := exists_related each hn
      exact ih n hn hv
    | object ms ending =>
      obtain ⟨r, es, -, hending, -, each⟩ := exists_of_value_object h
      refine skim_object_eq_ok_iff.mpr ⟨fun m hm => ?_, hending⟩
      obtain ⟨e, -, hkey, hv⟩ := exists_related each hm
      exact ⟨m.1.skips e.1 hkey, ih m.2 (List.mem_map_of_mem hm) hv⟩

theorem filter_insertMember {α : Type} (key k : String) (a : α) {ms : List (String × α)}
    (h : Ascending ms) : (insertMember key a ms).filter (·.1 = k) =
      if key = k then [(key, a)] else ms.filter (·.1 = k) := by
  induction ms with
  | nil => by_cases hk : key = k <;> simp [insertMember, hk]
  | cons m ms ih =>
    obtain ⟨j, b⟩ := m
    obtain ⟨hj, hms⟩ := List.pairwise_cons.mp h
    have above {l : String} (hl : l ≤ j) : ms.filter (·.1 = l) = [] := by
      rw [List.filter_eq_nil_iff]
      intro m hm he
      have hlt := hj m.1 (List.mem_map_of_mem hm)
      rw [of_decide_eq_true he] at hlt
      exact Std.lt_irrefl (Std.lt_of_lt_of_le hlt hl)
    rw [insertMember]
    split
    · rename_i hlt
      by_cases hk : key = k
      · subst hk
        have hne : j ≠ key := fun he => Std.lt_irrefl (he ▸ hlt)
        simp [hne, above (Std.le_of_lt hlt)]
      · simp [hk]
    · split
      · rename_i he
        subst he
        by_cases hk : key = k
        · subst hk
          simp [above (Std.le_refl key)]
        · simp [hk]
      · rename_i hne
        rw [List.filter_cons, ih hms, List.filter_cons]
        by_cases hk : key = k
        · subst hk
          simp [Ne.symm hne]
        · simp [hk]

theorem filter_sortMembers {α : Type} (k : String) (ms : List (String × α)) :
    (sortMembers ms).filter (·.1 = k) = (ms.filter (·.1 = k)).getLast?.toList := by
  induction ms using List.reverseRecOn with
  | nil => rfl
  | append_singleton ms m ih =>
    obtain ⟨key, a⟩ := m
    have hsort : sortMembers (ms ++ [(key, a)]) = insertMember key a (sortMembers ms) := by
      rw [sortMembers, List.foldl_concat]
      rfl
    rw [hsort, filter_insertMember key k a (ascending_sortMembers ms), ih, List.filter_append]
    by_cases hk : key = k
    · simp [hk]
    · simp [hk]

/-- A key that is not repeated keeps its value. -/
theorem filter_sortMembers_of_single {α : Type} {k : String} {ms : List (String × α)}
    (single : (ms.filter (·.1 = k)).length ≤ 1) :
    (sortMembers ms).filter (·.1 = k) = ms.filter (·.1 = k) := by
  rw [filter_sortMembers]
  generalize ms.filter (·.1 = k) = kept at single
  match kept, single with
  | [], _ => rfl
  | [m], _ => rfl

theorem sortMembers_eq_of_perm {α : Type} {ms ms' : List (String × α)} (h : ms.Perm ms')
    (nodup : (ms.map (·.1)).Nodup) : sortMembers ms = sortMembers ms' := by
  have nodup' : (ms'.map (·.1)).Nodup := (h.map _).nodup_iff.mp nodup
  have hperm : (sortMembers ms).Perm (sortMembers ms') :=
    (sortMembers_perm nodup).trans (h.trans (sortMembers_perm nodup').symm)
  refine hperm.eq_of_pairwise ?_ (List.pairwise_map.mp (ascending_sortMembers ms))
    (List.pairwise_map.mp (ascending_sortMembers ms'))
  intro m m' _ _ hlt hlt'
  exact absurd hlt' (String.lt_asymm hlt)

theorem valuesOf_memberNodes (key : String) (es : List (String × Value)) :
    valuesOf key (memberNodes es) = (es.filter (·.1 = key)).map (·.2.node) := by
  induction es with
  | nil => rfl
  | cons e es ih =>
    obtain ⟨k, v⟩ := e
    rw [memberNodes, valuesOf_cons, ih, List.filter_cons]
    by_cases hk : k = key
    · simp [hk, Lexeme.valid]
    · simp [hk, Lexeme.valid]

theorem forall₂_valuesOf {room : Nat} {ms : List (Lexeme String × Node)} {es : List (String × Value)}
    (h : List.Forall₂ (fun m e => m.1.decoded = .ok e.1 ∧ m.2.value room = .ok e.2) ms es)
    (key : String) : List.Forall₂ (fun n e => n.value room = .ok e.2) (valuesOf key ms)
      (es.filter (·.1 = key)) := by
  induction h with
  | nil => exact .nil
  | @cons m e ms es hme _ ih =>
    rw [valuesOf_cons, hme.1, List.filter_cons]
    by_cases hk : e.1 = key
    · rw [if_pos (congrArg _ hk), if_pos (decide_eq_true hk)]
      exact .cons hme.2 ih
    · rw [if_neg fun h => hk (Except.ok.inj h), if_neg (by simpa using hk)]
      exact ih

/-- No object in a node repeats a key. -/
inductive Node.Distinct : Node → Prop where
  | broken (f : Fault) : Distinct (.broken f)
  | null : Distinct .null
  | bool (b : Bool) : Distinct (.bool b)
  | number (x : Lexeme Number) : Distinct (.number x)
  | string (x : Lexeme String) : Distinct (.string x)
  | array {ns : List Node} (ending : Option Fault) (each : ∀ n ∈ ns, n.Distinct) :
    Distinct (.array ns ending)
  | object {ms : List (Lexeme String × Node)} (ending : Option Fault)
    (keys : (ms.map (·.1.decoded)).Nodup) (each : ∀ m ∈ ms, m.2.Distinct) :
    Distinct (.object ms ending)

theorem length_valuesOf_le_one {ms : List (Lexeme String × Node)}
    (keys : (ms.map (·.1.decoded)).Nodup) (key : String) : (valuesOf key ms).length ≤ 1 := by
  have hcount := List.nodup_iff_count_le_one.mp keys (.ok key)
  rw [List.count, List.countP_map, List.countP_eq_length_filter] at hcount
  rw [valuesOf, List.length_map]
  have same : ms.filter (·.1.decoded = .ok key) =
      ms.filter ((· == Except.ok key) ∘ (·.1.decoded)) :=
    List.filter_congr fun m _ => (Bool.beq_eq_decide_eq ..).symm
  rwa [same]

/-- The second node is that of the value read of the first. -/
def TextThenValue (room room' : Nat) (n n' : Node) : Prop :=
  ∃ v, n.value room = .ok v ∧ v.height ≤ room' ∧ n' = v.node

/-- The first node is that of the value read of the second, in which no object repeats a key. -/
def ValueThenText (_room room' : Nat) (n n' : Node) : Prop :=
  ∃ v, n = v.node ∧ n'.value room' = .ok v ∧ n'.Distinct

theorem readable_memberNodes (es : List (String × Value)) :
    ∀ m ∈ memberNodes es, ∃ key, m.1.decoded = .ok key := by
  rw [memberNodes_eq_map]
  intro m hm
  obtain ⟨e, -, rfl⟩ := List.mem_map.mp hm
  exact ⟨e.1, rfl⟩

theorem skim_node {v : Value} (h : v.Sorted) : v.node.skim = .ok () :=
  Node.skim_of_value (Node.value_node h (Nat.le_refl _))

theorem simulation_textThenValue : Simulation TextThenValue := by
  rintro room room' n _ ⟨v, hv, hroom, rfl⟩
  cases n with
  | broken f => cases hv
  | null =>
    cases hv
    exact .null
  | bool b =>
    cases hv
    exact .bool b
  | number x =>
    obtain ⟨a, ha, rfl⟩ := map_ok hv
    exact .number ha.symm
  | string x =>
    obtain ⟨a, ha, rfl⟩ := map_ok hv
    exact .string ha.symm
  | array ns ending =>
    obtain ⟨r, vs, rfl, rfl, rfl, each⟩ := exists_of_value_array hv
    rw [Value.height_array] at hroom
    obtain ⟨r', rfl⟩ : ∃ r', room' = r' + 1 := ⟨room' - 1, by omega⟩
    have heights := Value.heights_le_iff.mp (Nat.le_of_succ_le_succ hroom)
    rw [Value.node, elementNodes_eq_map]
    refine .array none fun r₀ h => ⟨r', rfl, ?_⟩
    obtain rfl := Nat.succ.inj h
    rw [List.forall₂_map_right_iff]
    have fits := ((List.forall₂_and_left _ _).mpr ⟨heights, each.flip⟩).flip
    exact fits.imp fun n v h => ⟨v, h.2, h.1, rfl⟩
  | object ms ending =>
    obtain ⟨r, es, rfl, rfl, rfl, each⟩ := exists_of_value_object hv
    rw [Value.height_object] at hroom
    obtain ⟨r', rfl⟩ : ∃ r', room' = r' + 1 := ⟨room' - 1, by omega⟩
    have heights := Value.memberHeights_le_iff.mp (Nat.le_of_succ_le_succ hroom)
    rw [Value.node]
    refine .object none fun r₀ h => ⟨r', rfl, ?_⟩
    obtain rfl := Nat.succ.inj h
    constructor
    · exact fun _ => readable_memberNodes _
    · intro key _ n hn
      rw [valuesOf_memberNodes] at hn
      obtain ⟨e, he, rfl⟩ := List.mem_map.mp hn
      have hmem := mem_of_mem_sortMembers (List.mem_of_mem_filter he)
      obtain ⟨m, -, -, hvalue⟩ := exists_related each.flip hmem
      exact skim_node (Node.value_fits hvalue).1
    · intro key single
      have values := forall₂_valuesOf each key
      have kept := filter_sortMembers_of_single (values.length_eq ▸ single)
      have heights : ∀ e ∈ es.filter (·.1 = key), e.2.height ≤ r' :=
        fun e he => heights e (List.mem_of_mem_filter (kept ▸ he))
      rw [valuesOf_memberNodes, kept, List.forall₂_map_right_iff]
      have fits := ((List.forall₂_and_left _ _).mpr ⟨heights, values.flip⟩).flip
      exact fits.imp fun n e h => ⟨e.2, h.2, h.1, rfl⟩

theorem simulation_valueThenText : Simulation ValueThenText := by
  rintro room room' _ n ⟨v, rfl, hv, distinct⟩
  cases distinct with
  | broken f => cases hv
  | null =>
    cases hv
    exact .null
  | bool b =>
    cases hv
    exact .bool b
  | number x =>
    obtain ⟨a, ha, rfl⟩ := map_ok hv
    exact .number ha
  | string x =>
    obtain ⟨a, ha, rfl⟩ := map_ok hv
    exact .string ha
  | array ending distinct =>
    obtain ⟨r', vs, rfl, rfl, rfl, each⟩ := exists_of_value_array hv
    rw [Value.node, elementNodes_eq_map]
    refine .array none fun r _ => ⟨r', rfl, ?_⟩
    rw [List.forall₂_map_left_iff]
    have apart := ((List.forall₂_and_left _ _).mpr ⟨distinct, each⟩).flip
    exact apart.imp fun v n h => ⟨v, rfl, h.2, h.1⟩
  | @object ms ending keys distinct =>
    obtain ⟨r', es, rfl, rfl, rfl, each⟩ := exists_of_value_object hv
    rw [Value.node]
    refine .object none fun r _ => ⟨r', rfl, ?_⟩
    constructor
    · intro _ m hm
      obtain ⟨e, -, hkey, -⟩ := exists_related each hm
      exact ⟨e.1, hkey⟩
    · intro key _ n hn
      obtain ⟨m, hm, -, rfl⟩ := mem_valuesOf.mp hn
      obtain ⟨e, -, -, he⟩ := exists_related each hm
      exact Node.skim_of_value he
    · intro key _
      have values := forall₂_valuesOf each key
      have single := length_valuesOf_le_one keys key
      have kept := filter_sortMembers_of_single (values.length_eq ▸ single)
      have distinct : ∀ n ∈ valuesOf key ms, n.Distinct := by
        intro n hn
        obtain ⟨m, hm, -, rfl⟩ := mem_valuesOf.mp hn
        exact distinct m hm
      rw [valuesOf_memberNodes, kept, List.forall₂_map_left_iff]
      have apart := ((List.forall₂_and_left _ _).mpr ⟨distinct, values⟩).flip
      exact apart.imp fun e n h => ⟨e.2, rfl, h.2, h.1⟩

/-- A node with the members of objects in it in another order. -/
inductive Node.Reordered : Node → Node → Prop where
  | broken (f : Fault) : Reordered (.broken f) (.broken f)
  | null : Reordered .null .null
  | bool (b : Bool) : Reordered (.bool b) (.bool b)
  | number (x : Lexeme Number) : Reordered (.number x) (.number x)
  | string (x : Lexeme String) : Reordered (.string x) (.string x)
  | array {ns ns' : List Node} (ending : Option Fault) (each : List.Forall₂ Reordered ns ns') :
    Reordered (.array ns ending) (.array ns' ending)
  | object {ms ms' ms'' : List (Lexeme String × Node)} (ending : Option Fault)
    (keys : ms.map (·.1) = ms'.map (·.1))
    (each : List.Forall₂ Reordered (ms.map (·.2)) (ms'.map (·.2))) (order : ms'.Perm ms'') :
    Reordered (.object ms ending) (.object ms'' ending)

theorem forall₂_members {R : Node → Node → Prop} {ms ms' : List (Lexeme String × Node)}
    (keys : ms.map (·.1) = ms'.map (·.1)) (each : List.Forall₂ R (ms.map (·.2)) (ms'.map (·.2))) :
    List.Forall₂ (fun m m' => m.1 = m'.1 ∧ R m.2 m'.2) ms ms' := by
  induction ms generalizing ms' with
  | nil =>
    cases ms' with
    | nil => exact .nil
    | cons m' ms' => cases keys
  | cons m ms ih =>
    cases ms' with
    | nil => cases keys
    | cons m' ms' =>
      obtain ⟨hkey, hkeys⟩ := List.cons.inj keys
      obtain ⟨hm, hms⟩ := List.forall₂_cons.mp each
      exact .cons ⟨hkey, hm⟩ (ih hkeys hms)

theorem forall₂_valuesOf_of_keys {R : Node → Node → Prop} {ms ms' : List (Lexeme String × Node)}
    (h : List.Forall₂ (fun m m' => m.1 = m'.1 ∧ R m.2 m'.2) ms ms') (key : String) :
    List.Forall₂ R (valuesOf key ms) (valuesOf key ms') := by
  induction h with
  | nil => exact .nil
  | @cons m m' ms ms' hm _ ih =>
    rw [valuesOf_cons, valuesOf_cons, hm.1]
    by_cases hk : m'.1.decoded = .ok key
    · rw [if_pos hk, if_pos hk]
      exact .cons hm.2 ih
    · rw [if_neg hk, if_neg hk]
      exact ih

theorem Node.Reordered.skim {n n' : Node} (h : n.Reordered n') (hn : n.skim = .ok ()) :
    n'.skim = .ok () := by
  induction n using Node.tree_induction generalizing n' with
  | step n ih =>
    cases h with
    | broken | null | bool | number | string => exact hn
    | array ending each =>
      obtain ⟨hns, hending⟩ := skim_array_eq_ok_iff.mp hn
      refine skim_array_eq_ok_iff.mpr ⟨fun c' hc' => ?_, hending⟩
      obtain ⟨c, hc, hcc⟩ := exists_related each.flip hc'
      exact ih c hc hcc (hns c hc)
    | @object ms ms' ms'' ending keys each order =>
      obtain ⟨hms, hending⟩ := skim_object_eq_ok_iff.mp hn
      refine skim_object_eq_ok_iff.mpr ⟨fun m' hm' => ?_, hending⟩
      obtain ⟨m, hm, hkey, hmm⟩ :=
        exists_related (forall₂_members keys each).flip (order.mem_iff.mpr hm')
      rw [← hkey]
      exact ⟨(hms m hm).1, ih m.2 (List.mem_map_of_mem hm) hmm (hms m hm).2⟩

theorem nodup_keys_of_values {room : Nat} {ms : List (Lexeme String × Node)}
    {es : List (String × Value)}
    (h : List.Forall₂ (fun m e => m.1.decoded = .ok e.1 ∧ m.2.value room = .ok e.2) ms es)
    (nodup : (ms.map (·.1.decoded)).Nodup) : (es.map (·.1)).Nodup := by
  have keys : ms.map (·.1.decoded) = (es.map (·.1)).map .ok := by
    rw [List.map_map, ← List.forall₂_eq_eq_eq, List.forall₂_map_left_iff,
      List.forall₂_map_right_iff]
    exact h.imp fun _ _ h => h.1
  rw [keys] at nodup
  exact nodup.of_map

theorem exists_forall₂ {α β : Type} {R : α → β → Prop} {as : List α}
    (h : ∀ a ∈ as, ∃ b, R a b) : ∃ bs, List.Forall₂ R as bs := by
  induction as with
  | nil => exact ⟨[], .nil⟩
  | cons a as ih =>
    obtain ⟨⟨b, hb⟩, h⟩ := List.forall_mem_cons.mp h
    obtain ⟨bs, hbs⟩ := ih h
    exact ⟨b :: bs, .cons hb hbs⟩

/-- A value is read in any order of members, though of repeated ones another may stay. -/
theorem Node.Reordered.exists_value {n n' : Node} (h : n.Reordered n') {room : Nat} {v : Value}
    (hv : n.value room = .ok v) : ∃ v', n'.value room = .ok v' := by
  induction n using Node.tree_induction generalizing n' room v with
  | step n ih =>
    cases h with
    | broken | null | bool | number | string => exact ⟨v, hv⟩
    | @array ns ns' ending each =>
      obtain ⟨r, vs, rfl, rfl, rfl, values⟩ := exists_of_value_array hv
      have readable : ∀ c' ∈ ns', ∃ v', c'.value r = .ok v' := by
        intro c' hc'
        obtain ⟨c, hc, hcc⟩ := exists_related each.flip hc'
        obtain ⟨v, -, hv⟩ := exists_related values hc
        exact ih c hc hcc hv
      obtain ⟨vs', values'⟩ := exists_forall₂ readable
      exact ⟨_, value_array_of_forall₂ values'⟩
    | @object ms ms' ms'' ending keys each order =>
      obtain ⟨r, es, rfl, rfl, rfl, values⟩ := exists_of_value_object hv
      have readable : ∀ m' ∈ ms'', ∃ e : String × Value,
          m'.1.decoded = .ok e.1 ∧ m'.2.value r = .ok e.2 := by
        intro m' hm'
        obtain ⟨m, hm, hkey, hmm⟩ :=
          exists_related (forall₂_members keys each).flip (order.mem_iff.mpr hm')
        obtain ⟨e, -, hdecoded, hv⟩ := exists_related values hm
        obtain ⟨v', hv'⟩ := ih m.2 (List.mem_map_of_mem hm) hmm hv
        exact ⟨(e.1, v'), hkey ▸ hdecoded, hv'⟩
      obtain ⟨es', values'⟩ := exists_forall₂ readable
      exact ⟨_, value_object_of_forall₂ values'⟩

/-- Without repeated keys the order of members makes no difference to what is read. -/
theorem Node.Reordered.value {n n' : Node} (h : n.Reordered n') (distinct : n.Distinct) {room : Nat}
    {v : Value} (hv : n.value room = .ok v) : n'.value room = .ok v := by
  induction n using Node.tree_induction generalizing n' room v with
  | step n ih =>
    cases h with
    | broken | null | bool | number | string => exact hv
    | @array ns ns' ending each =>
      cases distinct with
      | array _ distinct =>
        obtain ⟨r, vs, rfl, rfl, rfl, values⟩ := exists_of_value_array hv
        have carries : ∀ c ∈ ns, ∀ c' v, c.Reordered c' → c.value r = .ok v → c'.value r = .ok v :=
          fun c hc c' v h hv => ih c hc h (distinct c hc) hv
        have each := (List.forall₂_and_left _ _).mpr ⟨carries, each⟩
        exact value_array_of_forall₂
          (forall₂_through (fun c c' v h hv => h.1 c' v h.2 hv) each values)
    | @object ms ms' ms'' ending keys each order =>
      cases distinct with
      | object _ nodup distinct =>
        obtain ⟨r, es, rfl, rfl, rfl, values⟩ := exists_of_value_object hv
        have carries : ∀ m ∈ ms, ∀ c' v, m.2.Reordered c' → m.2.value r = .ok v →
            c'.value r = .ok v :=
          fun m hm c' v h hv => ih m.2 (List.mem_map_of_mem hm) h (distinct m hm) hv
        have each := (List.forall₂_and_left _ _).mpr ⟨carries, forall₂_members keys each⟩
        have values' : List.Forall₂
            (fun m e => m.1.decoded = .ok e.1 ∧ m.2.value r = .ok e.2) ms' es :=
          forall₂_through (fun m m' e h he => ⟨h.2.1 ▸ he.1, h.1 m'.2 e.2 h.2.2 he.2⟩) each values
        obtain ⟨es', values'', hperm⟩ := List.perm_comp_forall₂ order.symm values'
        rw [sortMembers_eq_of_perm hperm.symm (nodup_keys_of_values values nodup)]
        exact value_object_of_forall₂ values''

/-- The second node is the first with members of objects in another order. -/
def TextThenReordered (room room' : Nat) (n n' : Node) : Prop := room = room' ∧ n.Reordered n'

theorem simulation_textThenReordered : Simulation TextThenReordered := by
  rintro room _ n n' ⟨rfl, h⟩
  cases h with
  | broken f => exact .broken f
  | null => exact .null
  | bool b => exact .bool b
  | number x => exact .number rfl
  | string x => exact .string rfl
  | array ending each =>
    exact .array ending fun r hr => ⟨r, hr, each.imp fun _ _ h => ⟨rfl, h⟩⟩
  | @object ms ms' ms'' ending keys each order =>
    refine .object ending fun r hr => ⟨r, hr, ?_⟩
    have members := forall₂_members keys each
    have values (key : String) := forall₂_valuesOf_of_keys members key
    have perm (key : String) := valuesOf_perm order key
    constructor
    · intro readable m' hm'
      obtain ⟨m, hm, hkey, -⟩ := exists_related members.flip (order.mem_iff.mpr hm')
      rw [← hkey]
      exact readable m hm
    · intro key skimmed n' hn'
      obtain ⟨n, hn, hnn⟩ := exists_related (values key).flip ((perm key).mem_iff.mpr hn')
      exact hnn.skim (skimmed n hn)
    · intro key single
      have single' : (valuesOf key ms').length ≤ 1 := (values key).length_eq ▸ single
      have same : valuesOf key ms' = valuesOf key ms'' := by
        have hperm := perm key
        match valuesOf key ms', single', hperm with
        | [], _, hperm => exact (List.nil_perm.mp hperm).symm
        | [n], _, hperm => exact List.singleton_perm.mp hperm
      rw [← same]
      exact (values key).imp fun _ _ h => ⟨rfl, h⟩

end ContentSdl.Json
