import ContentSdl.Json.Lexeme
import ContentSdl.Json.Value

/-! # Numbers of a JSON text -/

namespace ContentSdl.Json

/-- The digits of a numeral by their places. -/
structure Numeral where
  negative : Bool
  whole : List Char
  fraction : List Char
  exponent : Int
  /-- Whether it has neither fraction nor exponent. -/
  isInteger : Bool

def digitValue (c : Char) : Nat := c.toNat - '0'.toNat

/-- Takes in digits as long as the count stays below `2 ^ 64`; what is left comes with it. -/
def absorb : Nat → List Char → Nat × List Char
  | n, [] => (n, [])
  | n, d :: ds =>
    if n * 10 + digitValue d < UInt64.size then absorb (n * 10 + digitValue d) ds else (n, d :: ds)

/-- The double of a numeral: the digits that fit, scaled by a power of ten. -/
def Numeral.real? (n : Numeral) (count : Nat) (exponent : Int) : Option Number :=
  ((Double.Binary64.ofRatio? n.negative count 1).bind (·.scaleTen? exponent)).map .real

/-- Integers of 64 bits keep their value, negative zero and all else become doubles. -/
def Numeral.value? (n : Numeral) : Option Number :=
  let (whole, dropped) := absorb 0 n.whole
  if n.isInteger && dropped.isEmpty then
    if !n.negative then some (.int whole)
    else if 1 ≤ whole && whole ≤ UInt64.size / 2 then some (.int (-whole))
    else n.real? whole 0
  else
    let (count, ignored) := absorb whole n.fraction
    n.real? count (n.exponent + dropped.length - (n.fraction.length - ignored.length))

def Numeral.lexeme (n : Numeral) : Lexeme Number :=
  ⟨match n.value? with
    | some v => .ok v
    | none => .error .malformed, .ok (), fun _ _ => rfl⟩

def natOfDigits (ds : List Char) : Nat := ds.foldl (fun n d => n * 10 + digitValue d) 0

def minusSign : List Char → Bool × List Char
  | '-' :: cs => (true, cs)
  | cs => (false, cs)

def exponentSign : List Char → Bool × List Char
  | '+' :: cs => (false, cs)
  | cs => minusSign cs

/-- Reads an exponent, if there is one. -/
def exponentLexeme (n : Numeral) : List Char → Lexeme Number × List Char
  | [] => (n.lexeme, [])
  | c :: cs =>
    if c = 'e' ∨ c = 'E' then
      let (negative, cs) := exponentSign cs
      let digits := cs.takeWhile Char.isDigit
      let rest := cs.dropWhile Char.isDigit
      if digits.isEmpty then (.unfinished rest, [])
      else
        let e : Int := natOfDigits digits
        ({ n with exponent := if negative then -e else e, isInteger := false }.lexeme, rest)
    else (n.lexeme, c :: cs)

/-- Reads a fraction and an exponent, if there are any. -/
def fractionLexeme (n : Numeral) : List Char → Lexeme Number × List Char
  | '.' :: cs =>
    let fraction := cs.takeWhile Char.isDigit
    let rest := cs.dropWhile Char.isDigit
    if fraction.isEmpty then (.unfinished rest, [])
    else exponentLexeme { n with fraction := fraction, isInteger := false } rest
  | cs => exponentLexeme n cs

/-- The number at the head of a text that starts with a digit or a minus sign, and what follows it. -/
def numberLexeme (cs : List Char) : Lexeme Number × List Char :=
  let (negative, cs) := minusSign cs
  let whole := cs.takeWhile Char.isDigit
  let rest := cs.dropWhile Char.isDigit
  if whole.isEmpty then (.unfinished rest, [])
  else if whole.head? = some '0' ∧ 1 < whole.length then (.faulty .malformed, [])
  else fractionLexeme ⟨negative, whole, [], 0, true⟩ rest

private theorem minusSign_rest (cs : List Char) : (minusSign cs).2.length ≤ cs.length := by
  unfold minusSign; split <;> simp

private theorem exponentSign_rest (cs : List Char) : (exponentSign cs).2.length ≤ cs.length := by
  unfold exponentSign; split
  · simp
  · exact minusSign_rest _

private theorem exponentLexeme_rest (n : Numeral) (cs : List Char) :
    (exponentLexeme n cs).2.length ≤ cs.length := by
  unfold exponentLexeme; split
  · simp
  · rename_i c cs
    have hs := exponentSign_rest cs
    have hd := (List.dropWhile_sublist Char.isDigit (l := (exponentSign cs).2)).length_le
    split
    · dsimp only
      split
      · simp
      · simp only [List.length_cons]; omega
    · simp

private theorem fractionLexeme_rest (n : Numeral) (cs : List Char) :
    (fractionLexeme n cs).2.length ≤ cs.length := by
  unfold fractionLexeme; split
  · rename_i cs
    have hd := (List.dropWhile_sublist Char.isDigit (l := cs)).length_le
    dsimp only
    split
    · simp
    · refine Nat.le_trans (exponentLexeme_rest ..) ?_
      simp only [List.length_cons]; omega
  · exact exponentLexeme_rest ..

private theorem dropWhile_digit (c : Char) (cs : List Char) (h : c.isDigit) :
    ((c :: cs).dropWhile Char.isDigit).length ≤ cs.length := by
  rw [List.dropWhile_cons, if_pos h]
  exact (List.dropWhile_sublist _).length_le

theorem numberLexeme_rest (c : Char) (cs : List Char) (h : c = '-' ∨ c.isDigit) :
    (numberLexeme (c :: cs)).2.length ≤ cs.length := by
  have hd : ((minusSign (c :: cs)).2.dropWhile Char.isDigit).length ≤ cs.length := by
    by_cases hm : c = '-'
    · subst hm; exact (List.dropWhile_sublist _).length_le
    · have : minusSign (c :: cs) = (false, c :: cs) := by
        unfold minusSign; split
        · simp_all
        · rfl
      rw [this]
      exact dropWhile_digit c cs (h.resolve_left hm)
  unfold numberLexeme
  dsimp only
  split
  · simp
  split
  · simp
  exact Nat.le_trans (fractionLexeme_rest ..) hd

end ContentSdl.Json
