import ContentSdl.Json.Document

/-! # Reading JSON values

Skipping a node checks no more than that it is JSON. Reading it keeps count of the containers that may
still be opened. What is read is sorted and fits into the room for them, and such a value is read as
itself. -/

namespace ContentSdl.Json

def stop : Option Fault → Except Fault Unit
  | none => .ok ()
  | some f => .error f

mutual
def Node.skim : Node → Except Fault Unit
  | .broken f => .error f
  | .null | .bool _ => .ok ()
  | .number n => n.skipped
  | .string s => s.skipped
  | .array ns ending => do skimElements ns; stop ending
  | .object ms ending => do skimMembers ms; stop ending

def skimElements : List Node → Except Fault Unit
  | [] => .ok ()
  | n :: ns => do n.skim; skimElements ns

def skimMembers : List (Lexeme String × Node) → Except Fault Unit
  | [] => .ok ()
  | (k, n) :: ms => do k.skipped; n.skim; skimMembers ms
end

mutual
/-- The value of a node in which at most `room` containers are nested. -/
def Node.value (room : Nat) : Node → Except Fault Value
  | .broken f => .error f
  | .null => .ok .null
  | .bool b => .ok (.bool b)
  | .number n => n.decoded.map .number
  | .string s => s.decoded.map .string
  | .array ns ending => match room with
    | 0 => .error .malformed
    | room + 1 => do
      let vs ← elementValues room ns
      stop ending
      return .array vs
  | .object ms ending => match room with
    | 0 => .error .malformed
    | room + 1 => do
      let ms ← memberValues room ms
      stop ending
      return .object (sortMembers ms)

def elementValues (room : Nat) : List Node → Except Fault (List Value)
  | [] => .ok []
  | n :: ns => do
    let v ← n.value room
    let vs ← elementValues room ns
    return v :: vs

def memberValues (room : Nat) : List (Lexeme String × Node) → Except Fault (List (String × Value))
  | [] => .ok []
  | (k, n) :: ms => do
    let k ← k.decoded
    let v ← n.value room
    let ms ← memberValues room ms
    return (k, v) :: ms
end

theorem bind_ok {ε α β : Type} {r : Except ε α} {f : α → Except ε β} {b : β}
    (h : (r >>= f) = .ok b) : ∃ a, r = .ok a ∧ f a = .ok b := by
  cases r with
  | error e => cases h
  | ok a => exact ⟨a, rfl, h⟩

theorem map_ok {ε α β : Type} {r : Except ε α} {f : α → β} {b : β}
    (h : r.map f = .ok b) : ∃ a, r = .ok a ∧ f a = b := by
  cases r with
  | error e => cases h
  | ok a => exact ⟨a, rfl, by injection h⟩

mutual
theorem Node.value_fits {room : Nat} {n : Node} {v : Value} (h : n.value room = .ok v) :
    v.Sorted ∧ v.height ≤ room := by
  match n, room with
  | .broken f, _ => rw [Node.value] at h; cases h
  | .null, _ => rw [Node.value] at h; cases h; exact ⟨.null, Nat.zero_le _⟩
  | .bool b, _ => rw [Node.value] at h; cases h; exact ⟨.bool b, Nat.zero_le _⟩
  | .number n, _ =>
    rw [Node.value] at h
    obtain ⟨n, -, rfl⟩ := map_ok h
    exact ⟨.number n, Nat.zero_le _⟩
  | .string s, _ =>
    rw [Node.value] at h
    obtain ⟨s, -, rfl⟩ := map_ok h
    exact ⟨.string s, Nat.zero_le _⟩
  | .array ns ending, 0 => rw [Node.value] at h; cases h
  | .object ms ending, 0 => rw [Node.value] at h; cases h
  | .array ns ending, room + 1 =>
    rw [Node.value] at h
    obtain ⟨vs, hvs, h⟩ := bind_ok h
    obtain ⟨-, -, h⟩ := bind_ok h
    cases h
    have fit := elementValues_fit hvs
    refine ⟨.array fun v hv => (fit v hv).1, ?_⟩
    rw [Value.height_array]
    exact Nat.succ_le_succ (Value.heights_le_iff.mpr fun v hv => (fit v hv).2)
  | .object ms ending, room + 1 =>
    rw [Node.value] at h
    obtain ⟨vs, hvs, h⟩ := bind_ok h
    obtain ⟨-, -, h⟩ := bind_ok h
    cases h
    have fit := memberValues_fit hvs
    refine ⟨.object (ascending_sortMembers vs) fun m hm => (fit m (mem_of_mem_sortMembers hm)).1, ?_⟩
    rw [Value.height_object]
    exact Nat.succ_le_succ
      (Value.memberHeights_le_iff.mpr fun m hm => (fit m (mem_of_mem_sortMembers hm)).2)

theorem elementValues_fit {room : Nat} {ns : List Node} {vs : List Value}
    (h : elementValues room ns = .ok vs) : ∀ v ∈ vs, v.Sorted ∧ v.height ≤ room := by
  match ns with
  | [] => rw [elementValues] at h; cases h; simp
  | n :: ns =>
    rw [elementValues] at h
    obtain ⟨v, hv, h⟩ := bind_ok h
    obtain ⟨vs, hvs, h⟩ := bind_ok h
    cases h
    exact List.forall_mem_cons.mpr ⟨Node.value_fits hv, elementValues_fit hvs⟩

theorem memberValues_fit {room : Nat} {ms : List (Lexeme String × Node)}
    {vs : List (String × Value)} (h : memberValues room ms = .ok vs) :
    ∀ m ∈ vs, m.2.Sorted ∧ m.2.height ≤ room := by
  match ms with
  | [] => rw [memberValues] at h; cases h; simp
  | (key, n) :: ms =>
    rw [memberValues] at h
    obtain ⟨key, -, h⟩ := bind_ok h
    obtain ⟨v, hv, h⟩ := bind_ok h
    obtain ⟨vs, hvs, h⟩ := bind_ok h
    cases h
    exact List.forall_mem_cons.mpr ⟨Node.value_fits hv, memberValues_fit hvs⟩
end

theorem elementValues_nodes {room : Nat} {vs : List Value} {g : Value → Value}
    (h : ∀ v ∈ vs, v.node.value room = .ok (g v)) :
    elementValues room (elementNodes vs) = .ok (vs.map g) := by
  induction vs with
  | nil => rfl
  | cons v vs ih =>
    obtain ⟨hv, hvs⟩ := List.forall_mem_cons.mp h
    rw [elementNodes, elementValues, hv, ih hvs]
    rfl

theorem memberValues_nodes {room : Nat} {ms : List (String × Value)} {g : Value → Value}
    (h : ∀ m ∈ ms, m.2.node.value room = .ok (g m.2)) :
    memberValues room (memberNodes ms) = .ok (ms.map fun m => (m.1, g m.2)) := by
  induction ms with
  | nil => rfl
  | cons m ms ih =>
    obtain ⟨k, v⟩ := m
    obtain ⟨hv, hms⟩ := List.forall_mem_cons.mp h
    rw [memberNodes, memberValues, hv, ih hms]
    rfl

theorem Node.value_node {v : Value} (hs : v.Sorted) {room : Nat} (hr : v.height ≤ room) :
    v.node.value room = .ok v := by
  induction hs generalizing room with
  | null => rfl
  | bool b => rfl
  | number n => rfl
  | string s => rfl
  | @array vs _ ih =>
    rw [Value.height_array] at hr
    match room, hr with
    | room + 1, hr =>
      have fit := Value.heights_le_iff.mp (Nat.le_of_succ_le_succ hr)
      rw [Value.node, Node.value, elementValues_nodes (g := id) fun v hv => ih v hv (fit v hv),
        List.map_id]
      rfl
  | @object ms keys _ ih =>
    rw [Value.height_object] at hr
    match room, hr with
    | room + 1, hr =>
      have fit := Value.memberHeights_le_iff.mp (Nat.le_of_succ_le_succ hr)
      rw [Value.node, Node.value, memberValues_nodes (g := id) fun m hm => ih m hm (fit m hm)]
      change Except.ok (Value.object (sortMembers (ms.map id))) = _
      rw [List.map_id, sortMembers_of_ascending keys]

/-- How many containers of a text may be nested. -/
def nestingLimit : Nat := 127

/-- Nothing may follow what has been read of a document. -/
def Document.finish {ε α : Type} (d : Document) (malformed : ε) (r : Except ε α) : Except ε α := do
  let a ← r
  if d.trailing then .error malformed else .ok a

/-- The value that a text spells, in which at most `room` containers are nested. -/
def Value.ofText (room : Nat) (text : String) : Except Fault Value :=
  let d := Document.ofChars text.toList
  d.finish .malformed (d.root.value room)

end ContentSdl.Json
