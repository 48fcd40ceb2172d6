import ContentSdl.Json.Lexeme

/-! # Strings of a JSON text -/

namespace ContentSdl.Json

/-- A character, or a 16-bit unit given by its code. -/
inductive Piece where
  | char (c : Char)
  | unit (u : Nat)
  deriving DecidableEq, Repr

def hexValue? (c : Char) : Option Nat :=
  if c.isDigit then some (c.toNat - '0'.toNat)
  else if 'a' ≤ c ∧ c ≤ 'f' then some (c.toNat - 'a'.toNat + 10)
  else if 'A' ≤ c ∧ c ≤ 'F' then some (c.toNat - 'A'.toNat + 10)
  else none

def hexUnit? (a b c d : Char) : Option Nat :=
  match hexValue? a, hexValue? b, hexValue? c, hexValue? d with
  | some a, some b, some c, some d => some (((a * 16 + b) * 16 + c) * 16 + d)
  | _, _, _, _ => none

def escape? (c : Char) : Option Char :=
  if c = '"' then some '"'
  else if c = '\\' then some '\\'
  else if c = '/' then some '/'
  else if c = 'b' then some '\x08'
  else if c = 'f' then some '\x0c'
  else if c = 'n' then some '\n'
  else if c = 'r' then some '\r'
  else if c = 't' then some '\t'
  else none

/-- The pieces of a string up to its closing quote or to a fault, and what follows the quote. -/
structure StringScan where
  pieces : List Piece
  rest : Except Fault (List Char)

def StringScan.cons (p : Piece) (s : StringScan) : StringScan := ⟨p :: s.pieces, s.rest⟩

/-- A code of a unit is cut short if fewer than four bytes of the text are left. -/
def shortCode (rest : List Char) : Fault :=
  if (String.ofList rest).utf8ByteSize < 4 then .truncated else .malformed

/-- Scans from behind the opening quote. -/
def scanString : List Char → StringScan
  | [] => ⟨[], .error .truncated⟩
  | '"' :: rest => ⟨[], .ok rest⟩
  | ['\\'] => ⟨[], .error .truncated⟩
  | '\\' :: 'u' :: a :: b :: c :: d :: rest =>
    match hexUnit? a b c d with
    | some u => (scanString rest).cons (.unit u)
    | none => ⟨[], .error .malformed⟩
  | '\\' :: 'u' :: rest => ⟨[], .error (shortCode rest)⟩
  | '\\' :: c :: rest =>
    match escape? c with
    | some e => (scanString rest).cons (.char e)
    | none => ⟨[], .error .malformed⟩
  | c :: rest =>
    if c.toNat < 0x20 then ⟨[], .error .malformed⟩ else (scanString rest).cons (.char c)

def isLeading (u : Nat) : Bool := 0xd800 ≤ u && u ≤ 0xdbff

def isTrailing (u : Nat) : Bool := 0xdc00 ≤ u && u ≤ 0xdfff

/-- The character of a leading and a trailing unit. -/
def joinUnits (u v : Nat) : Char := Char.ofNat (0x10000 + (u - 0xd800) * 0x400 + (v - 0xdc00))

/-- The characters of the pieces; `fault` is what ended the string if it was not a quote. -/
def decodePieces (fault : Option Fault) : List Piece → Except Fault (List Char)
  | [] => match fault with
    | none => .ok []
    | some f => .error f
  | .char c :: ps => (decodePieces fault ps).map (c :: ·)
  | .unit u :: ps =>
    if isTrailing u then .error .malformed
    else if isLeading u then
      match ps with
      | [] => .error (fault.getD .malformed)
      | .char _ :: _ => .error .malformed
      | .unit v :: ps =>
        if isTrailing v then (decodePieces fault ps).map (joinUnits u v :: ·)
        else .error .malformed
    else (decodePieces fault ps).map (Char.ofNat u :: ·)

theorem decodePieces_fault (f : Fault) (ps : List Piece) :
    ∃ g, decodePieces (some f) ps = .error g := by
  have map {r : Except Fault (List Char)} (c : Char) (h : ∃ g, r = .error g) :
      ∃ g, r.map (c :: ·) = .error g := by
    obtain ⟨g, rfl⟩ := h
    exact ⟨g, rfl⟩
  fun_induction decodePieces (some f) ps with
  | case1 h => cases h
  | case2 g => exact ⟨g, rfl⟩
  | case3 c ps ih => exact map c ih
  | case4 | case5 | case6 | case8 => exact ⟨_, rfl⟩
  | case7 u _ _ v ps _ ih => exact map (joinUnits u v) ih
  | case9 u ps _ _ ih => exact map (Char.ofNat u) ih

/-- A string that a fault ends is not decoded. -/
theorem map_decodePieces_fault (f : Fault) (ps : List Piece) (s : String) :
    (decodePieces (some f) ps).map String.ofList ≠ .ok s := by
  obtain ⟨g, hg⟩ := decodePieces_fault f ps
  rw [hg]
  exact nofun

/-- The string behind an opening quote, and what follows it. -/
def stringLexeme (cs : List Char) : Lexeme String × List Char :=
  let scan := scanString cs
  match scan.rest with
  | .ok rest => (⟨(decodePieces none scan.pieces).map String.ofList, .ok (), fun _ _ => rfl⟩, rest)
  | .error f => (⟨(decodePieces (some f) scan.pieces).map String.ofList, .error f,
      fun s h => absurd h (map_decodePieces_fault f scan.pieces s)⟩, [])

theorem scanString_rest (cs : List Char) :
    ∀ rest, (scanString cs).rest = .ok rest → rest.length ≤ cs.length := by
  fun_induction scanString cs with
  | case1 => simp
  | case2 rest => simp
  | case3 => simp
  | case4 a b c d rest u _ ih =>
    intro r h
    have := ih r h
    simp only [List.length_cons]; omega
  | case5 => simp
  | case6 => simp
  | case7 c rest _ _ e _ ih =>
    intro r h
    have := ih r h
    simp only [List.length_cons]; omega
  | case8 => simp
  | case9 => simp
  | case10 c rest _ _ _ _ _ _ ih =>
    intro r h
    have := ih r h
    simp only [List.length_cons]; omega

theorem stringLexeme_rest (cs : List Char) : (stringLexeme cs).2.length ≤ cs.length := by
  have h := scanString_rest cs
  unfold stringLexeme
  cases hs : (scanString cs).rest with
  | ok rest => simpa [hs] using h rest hs
  | error f => simp [hs]

end ContentSdl.Json
