import ContentSdl.Json.Reader
import ContentSdl.Json.Writer
import Mathlib.Tactic.SplitIfs

/-! # A JSON text that has been written reads as the value that was written -/

namespace ContentSdl.Json

/-- How a character is written: with a letter behind a backslash, by its code, or raw. -/
private theorem escapedChar_cases (c : Char) :
    (∃ e, escape? e = some c ∧ escapedChar c = ['\\', e]) ∨
      (c.toNat < 0x20 ∧ escapedChar c =
        ['\\', 'u', '0', '0', hexDigit (c.toNat / 16), hexDigit (c.toNat % 16)]) ∨
      (c ≠ '"' ∧ c ≠ '\\' ∧ ¬c.toNat < 0x20 ∧ escapedChar c = [c]) := by
  unfold escapedChar
  split_ifs with hquote hbackslash hb ht hn hf hr hcontrol
  · exact .inl ⟨'"', by rw [hquote]; rfl, rfl⟩
  · exact .inl ⟨'\\', by rw [hbackslash]; rfl, rfl⟩
  · exact .inl ⟨'b', by rw [hb]; rfl, rfl⟩
  · exact .inl ⟨'t', by rw [ht]; rfl, rfl⟩
  · exact .inl ⟨'n', by rw [hn]; rfl, rfl⟩
  · exact .inl ⟨'f', by rw [hf]; rfl, rfl⟩
  · exact .inl ⟨'r', by rw [hr]; rfl, rfl⟩
  · exact .inr (.inl ⟨hcontrol, rfl⟩)
  · exact .inr (.inr ⟨hquote, hbackslash, hcontrol, rfl⟩)

private theorem hexUnit?_control : ∀ n < 0x20,
    hexUnit? '0' '0' (hexDigit (n / 16)) (hexDigit (n % 16)) = some n := by
  decide

/-- A written character is scanned as one piece, which says the character. -/
private theorem scanString_escapedChar (c : Char) (cs : List Char) :
    ∃ p, scanString (escapedChar c ++ cs) = (scanString cs).cons p ∧
      ∀ ps, decodePieces none (p :: ps) = (decodePieces none ps).map (c :: ·) := by
  rcases escapedChar_cases c with
    ⟨e, he, hchars⟩ | ⟨hcontrol, hchars⟩ | ⟨hquote, hslash, hraw, hchars⟩
  · have hu : e ≠ 'u' := by
      rintro rfl
      cases he
    refine ⟨.char c, ?_, fun ps => rfl⟩
    simp [hchars, scanString, hu, he]
  · have htrailing : isTrailing c.toNat = false := by simp [isTrailing]; omega
    have hleading : isLeading c.toNat = false := by simp [isLeading]; omega
    refine ⟨.unit c.toNat, ?_, fun ps => ?_⟩
    · simp [hchars, scanString, hexUnit?_control c.toNat hcontrol]
    · rw [decodePieces.eq_def]
      simp [htrailing, hleading]
  · refine ⟨.char c, ?_, fun ps => rfl⟩
    simp [hchars, scanString, hslash, hraw]

private theorem scanString_escaped (s rest : List Char) :
    ∃ ps, scanString (s.flatMap escapedChar ++ '"' :: rest) = ⟨ps, .ok rest⟩ ∧
      decodePieces none ps = .ok s := by
  induction s with
  | nil => exact ⟨[], by simp [scanString], rfl⟩
  | cons c s ih =>
    obtain ⟨ps, hscan, hpieces⟩ := ih
    obtain ⟨p, hchar, hpiece⟩ :=
      scanString_escapedChar c (s.flatMap escapedChar ++ '"' :: rest)
    refine ⟨p :: ps, ?_, ?_⟩
    · rw [List.flatMap_cons, List.append_assoc, hchar, hscan]
      rfl
    · rw [hpiece, hpieces]
      rfl

theorem stringLexeme_escaped (s : String) (rest : List Char) :
    stringLexeme (s.toList.flatMap escapedChar ++ '"' :: rest) = (.valid s, rest) := by
  obtain ⟨ps, hscan, hpieces⟩ := scanString_escaped s.toList rest
  simp [stringLexeme, hscan, hpieces, Except.map, Lexeme.valid]

theorem nextToken_stringChars (s : String) (rest : List Char) :
    nextToken '"' (s.toList.flatMap escapedChar ++ '"' :: rest) = (.string (.valid s), rest) := by
  have h := stringLexeme_escaped s rest
  simp [nextToken, h]

/-- No number stands anywhere in a value. -/
inductive Value.NumberFree : Value → Prop where
  | null : NumberFree .null
  | bool (b : Bool) : NumberFree (.bool b)
  | string (s : String) : NumberFree (.string s)
  | array {vs : List Value} (each : ∀ v ∈ vs, v.NumberFree) : NumberFree (.array vs)
  | object {ms : List (String × Value)} (each : ∀ m ∈ ms, m.2.NumberFree) : NumberFree (.object ms)

namespace Place

/-- A place reads on behind the token that stands there. -/
theorem read_of_step {p q : Place} {c : Char} {cs rest : List Char} {t : Token}
    (hblank : isBlank c = false) (htoken : nextToken c cs = (t, rest)) (hstep : p.step t = .ok q) :
    p.read (c :: cs) = q.read rest := by
  rw [read_token p hblank, htoken]
  simp only [hstep]

theorem read_string {p q : Place} {s : String} {rest : List Char}
    (hstep : p.step (.string (.valid s)) = .ok q) :
    p.read (stringChars s ++ rest) = q.read rest := by
  rw [stringChars, List.append_assoc]
  exact read_of_step rfl (nextToken_stringChars s rest) hstep

/-- The characters of a value lead from the place of a value to the place behind it. -/
def Passes (v : Value) : Prop :=
  ∀ (around : Context) (rest : List Char),
    (Place.value around).read (v.chars ++ rest) = (Place.behind v.node around).read rest

/-- Behind an element of an array: the others follow, then the bracket. -/
private theorem read_elementsChars {vs : List Value} (h : ∀ v ∈ vs, Passes v) (n : Node)
    (before : List Node) (around : Context) (rest : List Char) :
    (Place.behind n (.element before around)).read (elementsChars vs ++ rest) =
      (Place.behind (.array (before.reverse ++ n :: elementNodes vs) none) around).read rest := by
  induction vs generalizing n before with
  | nil =>
    rw [elementsChars, elementNodes, ← List.reverse_cons]
    exact read_of_step rfl rfl rfl
  | cons v vs ih =>
    obtain ⟨hv, hvs⟩ := List.forall_mem_cons.mp h
    have hcomma : (Place.behind n (.element before around)).read
          (elementsChars (v :: vs) ++ rest) =
        (Place.value (.element (n :: before) around)).read (v.chars ++ (elementsChars vs ++ rest)) := by
      rw [elementsChars, List.cons_append, List.append_assoc]
      exact read_of_step rfl rfl rfl
    rw [hcomma, hv, ih hvs, elementNodes, List.reverse_cons, List.append_assoc]
    rfl

/-- Behind a member of an object: the others follow, then the brace. -/
private theorem read_membersChars {ms : List (String × Value)} (h : ∀ m ∈ ms, Passes m.2) (n : Node)
    (before : List (Lexeme String × Node)) (key : Lexeme String) (around : Context)
    (rest : List Char) :
    (Place.behind n (.member before key around)).read (membersChars ms ++ rest) =
      (Place.behind (.object (before.reverse ++ (key, n) :: memberNodes ms) none) around).read
        rest := by
  induction ms generalizing n before key with
  | nil =>
    rw [membersChars, memberNodes, ← List.reverse_cons]
    exact read_of_step rfl rfl rfl
  | cons m ms ih =>
    obtain ⟨k, v⟩ := m
    obtain ⟨hv, hms⟩ := List.forall_mem_cons.mp h
    have hcomma : (Place.behind n (.member before key around)).read
          (membersChars ((k, v) :: ms) ++ rest) =
        (Place.key ((key, n) :: before) around).read
          (stringChars k ++ ':' :: (v.chars ++ (membersChars ms ++ rest))) := by
      rw [membersChars, List.cons_append, List.append_assoc, List.cons_append, List.append_assoc]
      exact read_of_step rfl rfl rfl
    have hcolon (cs : List Char) :
        (Place.colon ((key, n) :: before) (.valid k) around).read (':' :: cs) =
          (Place.value (.member ((key, n) :: before) (.valid k) around)).read cs :=
      read_of_step rfl rfl rfl
    rw [hcomma, read_string rfl, hcolon, hv, ih hms, memberNodes, List.reverse_cons,
      List.append_assoc]
    rfl

private theorem read_eq_of_step {p q : Place} {c : Char} {cs rest : List Char} {t : Token}
    (hblank : isBlank c = false) (htoken : nextToken c cs = (t, rest)) (hstep : p.step t = q.step t) :
    p.read (c :: cs) = q.read (c :: cs) := by
  rw [read_token p hblank, read_token q hblank, htoken]
  simp only [hstep]

/-- The first element of an array may stand where any value may. -/
private theorem read_firstElement {v : Value} (h : v.NumberFree) (around : Context)
    (cs : List Char) :
    (Place.firstElement around).read (v.chars ++ cs) =
      (Place.value (.element [] around)).read (v.chars ++ cs) := by
  cases h with
  | null => exact read_eq_of_step rfl rfl rfl
  | bool b =>
    cases b with
    | false => exact read_eq_of_step rfl rfl rfl
    | true => exact read_eq_of_step rfl rfl rfl
  | string s =>
    rw [Value.chars, stringChars, List.append_assoc]
    exact read_eq_of_step rfl (nextToken_stringChars s cs) rfl
  | @array vs _ =>
    cases vs with
    | nil => exact read_eq_of_step rfl rfl rfl
    | cons v vs => exact read_eq_of_step rfl rfl rfl
  | @object ms _ =>
    cases ms with
    | nil => exact read_eq_of_step rfl rfl rfl
    | cons m ms => exact read_eq_of_step rfl rfl rfl

theorem passes_of_numberFree {v : Value} (h : v.NumberFree) : Passes v := by
  induction h with
  | null => exact fun around rest => read_of_step rfl rfl rfl
  | bool b =>
    intro around rest
    cases b with
    | false => exact read_of_step rfl rfl rfl
    | true => exact read_of_step rfl rfl rfl
  | string s => exact fun around rest => read_string rfl
  | @array vs each ih =>
    intro around rest
    match vs with
    | [] =>
      have hopen : (Place.value around).read ((Value.array []).chars ++ rest) =
          (Place.firstElement around).read (']' :: rest) := read_of_step rfl rfl rfl
      rw [hopen]
      exact read_of_step rfl rfl rfl
    | v :: vs =>
      have hopen : (Place.value around).read ((Value.array (v :: vs)).chars ++ rest) =
          (Place.firstElement around).read (v.chars ++ (elementsChars vs ++ rest)) := by
        rw [Value.chars, List.cons_append, List.append_assoc]
        exact read_of_step rfl rfl rfl
      obtain ⟨hv, hvs⟩ := List.forall_mem_cons.mp ih
      rw [hopen, read_firstElement (each v List.mem_cons_self), hv, read_elementsChars hvs]
      rfl
  | @object ms each ih =>
    intro around rest
    match ms with
    | [] =>
      have hopen : (Place.value around).read ((Value.object []).chars ++ rest) =
          (Place.firstKey around).read ('\x7d' :: rest) := read_of_step rfl rfl rfl
      rw [hopen]
      exact read_of_step rfl rfl rfl
    | (k, v) :: ms =>
      have hopen : (Place.value around).read ((Value.object ((k, v) :: ms)).chars ++ rest) =
          (Place.firstKey around).read
            (stringChars k ++ ':' :: (v.chars ++ (membersChars ms ++ rest))) := by
        rw [Value.chars, List.cons_append, List.append_assoc, List.cons_append, List.append_assoc]
        exact read_of_step rfl rfl rfl
      have hcolon (cs : List Char) : (Place.colon [] (.valid k) around).read (':' :: cs) =
          (Place.value (.member [] (.valid k) around)).read cs := read_of_step rfl rfl rfl
      obtain ⟨hv, hms⟩ := List.forall_mem_cons.mp ih
      rw [hopen, read_string rfl, hcolon, hv, read_membersChars hms]
      rfl

end Place

/-- The text of a value is read as the tree of the value. -/
theorem Document.ofChars_chars {v : Value} (h : v.NumberFree) :
    Document.ofChars v.chars = ⟨v.node, false⟩ := by
  have hpass := Place.passes_of_numberFree h .root []
  rw [List.append_nil] at hpass
  rw [Document.ofChars, hpass, Place.read]
  rfl

end ContentSdl.Json
