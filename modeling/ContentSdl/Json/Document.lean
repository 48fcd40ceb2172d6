import ContentSdl.Json.Token

/-! # A JSON text as a tree, as far as it reads -/

namespace ContentSdl.Json

/-- What stands at one place of a text. A container lists what it holds up to its closing bracket or up
to a fault; members keep the order of the text and may repeat a key. -/
inductive Node where
  | broken (f : Fault)
  | null
  | bool (b : Bool)
  | number (n : Lexeme Number)
  | string (s : Lexeme String)
  | array (elements : List Node) (ending : Option Fault)
  | object (members : List (Lexeme String × Node)) (ending : Option Fault)
  deriving Inhabited

/-- The tree of a text, and whether anything but blanks follows it. -/
structure Document where
  root : Node
  trailing : Bool

/-- The containers that are open around a value, the innermost first; what each holds so far is listed
last first. -/
inductive Context where
  | root
  | element (before : List Node) (outer : Context)
  | member (before : List (Lexeme String × Node)) (key : Lexeme String) (outer : Context)

/-- The tree of a text that ends at a fault behind a value. -/
def Context.halt (f : Fault) : Context → Node → Node
  | .root, n => n
  | .element before outer, n => outer.halt f (.array (n :: before).reverse (some f))
  | .member before key outer, n => outer.halt f (.object ((key, n) :: before).reverse (some f))

/-- Where the next token stands. -/
inductive Place where
  | value (around : Context)
  | firstElement (around : Context)
  | firstKey (around : Context)
  | key (before : List (Lexeme String × Node)) (around : Context)
  | colon (before : List (Lexeme String × Node)) (key : Lexeme String) (around : Context)
  | behind (n : Node) (around : Context)

/-- The document of a text that has a fault at the place. -/
def Place.halt (f : Fault) : Place → Document
  | .value around => ⟨around.halt f (.broken f), false⟩
  | .firstElement around => ⟨around.halt f (.array [] (some f)), false⟩
  | .firstKey around => ⟨around.halt f (.object [] (some f)), false⟩
  | .key before around => ⟨around.halt f (.object before.reverse (some f)), false⟩
  | .colon before k around => ⟨(Context.member before k around).halt f (.broken f), false⟩
  | .behind n around => ⟨around.halt f n, false⟩

/-- The place behind a token that stands where a value must, or the document if it cannot. -/
def Context.begin (around : Context) : Token → Except Document Place
  | .openArray => .ok (.firstElement around)
  | .openObject => .ok (.firstKey around)
  | .null => .ok (.behind .null around)
  | .bool b => .ok (.behind (.bool b) around)
  | .number n => .ok (.behind (.number n) around)
  | .string s => .ok (.behind (.string s) around)
  | .stray f => .error ((Place.value around).halt f)
  | .closeArray | .closeObject | .comma | .colon => .error ((Place.value around).halt .malformed)

/-- The place behind a token that stands behind a value, or the document if it cannot. -/
def Context.go (n : Node) : Context → Token → Except Document Place
  | .element before outer, .comma => .ok (.value (.element (n :: before) outer))
  | .element before outer, .closeArray => .ok (.behind (.array (n :: before).reverse none) outer)
  | .member before key outer, .comma => .ok (.key ((key, n) :: before) outer)
  | .member before key outer, .closeObject =>
    .ok (.behind (.object ((key, n) :: before).reverse none) outer)
  | .root, _ => .error ⟨n, true⟩
  | around, _ => .error ((Place.behind n around).halt .malformed)

def Place.step : Place → Token → Except Document Place
  | .value around, t => around.begin t
  | .firstElement around, .closeArray => .ok (.behind (.array [] none) around)
  | .firstElement around, t => (Context.element [] around).begin t
  | .firstKey around, .closeObject => .ok (.behind (.object [] none) around)
  | .firstKey around, .string s => .ok (.colon [] s around)
  | .key before around, .string s => .ok (.colon before s around)
  | .colon before k around, .colon => .ok (.value (.member before k around))
  | .behind n around, t => around.go n t
  | p, _ => .error (p.halt .malformed)

/-- The document of a text that ends at the place. -/
def Place.finish : Place → Document
  | .behind n .root => ⟨n, false⟩
  | p => p.halt .truncated

/-- The document of a text of which the characters from a place on are given. -/
def Place.read (p : Place) : List Char → Document
  | [] => p.finish
  | c :: cs =>
    if isBlank c then p.read cs
    else
      let next := nextToken c cs
      match p.step next.1 with
      | .ok q => q.read next.2
      | .error d => d
termination_by cs => cs.length
decreasing_by
  · simp
  · have := nextToken_rest c cs
    simp only [List.length_cons]; omega

def Document.ofChars (cs : List Char) : Document := (Place.value .root).read cs

theorem Place.read_token (p : Place) {c : Char} (h : isBlank c = false) (cs : List Char) :
    p.read (c :: cs) = match p.step (nextToken c cs).1 with
      | .ok q => q.read (nextToken c cs).2
      | .error d => d := by
  rw [Place.read, if_neg (by simp [h])]

mutual
def Value.node : Value → Node
  | .null => .null
  | .bool b => .bool b
  | .number n => .number (.valid n)
  | .string s => .string (.valid s)
  | .array vs => .array (elementNodes vs) none
  | .object ms => .object (memberNodes ms) none

def elementNodes : List Value → List Node
  | [] => []
  | v :: vs => v.node :: elementNodes vs

def memberNodes : List (String × Value) → List (Lexeme String × Node)
  | [] => []
  | (k, v) :: ms => (.valid k, v.node) :: memberNodes ms
end

theorem elementNodes_eq_map (vs : List Value) : elementNodes vs = vs.map Value.node := by
  induction vs with
  | nil => rfl
  | cons v vs ih => rw [elementNodes, ih, List.map_cons]

theorem memberNodes_eq_map (ms : List (String × Value)) :
    memberNodes ms = ms.map fun m => (.valid m.1, m.2.node) := by
  induction ms with
  | nil => rfl
  | cons m ms ih => obtain ⟨k, v⟩ := m; rw [memberNodes, ih, List.map_cons]

end ContentSdl.Json
