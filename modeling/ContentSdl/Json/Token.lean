import ContentSdl.Json.Numeral
import ContentSdl.Json.StringLexeme

/-! # The tokens of a JSON text -/

namespace ContentSdl.Json

/-- A stray token is no token of JSON; nothing is read behind it. -/
inductive Token where
  | openArray
  | closeArray
  | openObject
  | closeObject
  | comma
  | colon
  | null
  | bool (b : Bool)
  | number (n : Lexeme Number)
  | string (s : Lexeme String)
  | stray (f : Fault)

def isBlank (c : Char) : Bool := c = ' ' || c = '\n' || c = '\t' || c = '\r'

/-- Reads on in a word of which the first letter has been read. -/
def wordToken (t : Token) : List Char → List Char → Token × List Char
  | [], rest => (t, rest)
  | _ :: _, [] => (.stray .truncated, [])
  | c :: cs, d :: rest => if c = d then wordToken t cs rest else (.stray .malformed, [])

/-- The token that starts with a character which is not blank, and what follows it. -/
def nextToken (c : Char) (rest : List Char) : Token × List Char :=
  if c = '[' then (.openArray, rest)
  else if c = ']' then (.closeArray, rest)
  else if c = '\x7b' then (.openObject, rest)
  else if c = '\x7d' then (.closeObject, rest)
  else if c = ',' then (.comma, rest)
  else if c = ':' then (.colon, rest)
  else if c = '"' then (stringLexeme rest).map .string id
  else if c = 'n' then wordToken .null ['u', 'l', 'l'] rest
  else if c = 't' then wordToken (.bool true) ['r', 'u', 'e'] rest
  else if c = 'f' then wordToken (.bool false) ['a', 'l', 's', 'e'] rest
  else if c = '-' ∨ c.isDigit then (numberLexeme (c :: rest)).map .number id
  else (.stray .malformed, [])

private theorem wordToken_rest (t : Token) (cs rest : List Char) :
    (wordToken t cs rest).2.length ≤ rest.length := by
  fun_induction wordToken t cs rest with
  | case1 => simp
  | case2 => simp
  | case3 => simp only [List.length_cons]; omega
  | case4 => simp

private theorem choice_rest {p : Prop} [Decidable p] {a b : Token × List Char} {n : Nat}
    (ha : p → a.2.length ≤ n) (hb : b.2.length ≤ n) : (if p then a else b).2.length ≤ n := by
  split
  · exact ha ‹_›
  · exact hb

theorem nextToken_rest (c : Char) (rest : List Char) :
    (nextToken c rest).2.length ≤ rest.length := by
  have same (t : Token) : (t, rest).2.length ≤ rest.length := Nat.le_refl _
  unfold nextToken
  refine choice_rest (fun _ => same _) <| choice_rest (fun _ => same _) <|
    choice_rest (fun _ => same _) <| choice_rest (fun _ => same _) <|
    choice_rest (fun _ => same _) <| choice_rest (fun _ => same _) <|
    choice_rest (fun _ => stringLexeme_rest rest) <| choice_rest (fun _ => wordToken_rest ..) <|
    choice_rest (fun _ => wordToken_rest ..) <| choice_rest (fun _ => wordToken_rest ..) <|
    choice_rest (numberLexeme_rest c rest) (Nat.zero_le _)

end ContentSdl.Json
