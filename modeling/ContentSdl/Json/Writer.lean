import ContentSdl.Json.Value
import ContentSdl.Double.Layout

/-! # The compact text of a JSON value -/

namespace ContentSdl.Json

def hexDigit (n : Nat) : Char := Nat.digitChar n

/-- Control characters, the quote and the backslash are escaped; all else is written raw. -/
def escapedChar (c : Char) : List Char :=
  if c = '"' then ['\\', '"']
  else if c = '\\' then ['\\', '\\']
  else if c = '\x08' then ['\\', 'b']
  else if c = '\t' then ['\\', 't']
  else if c = '\n' then ['\\', 'n']
  else if c = '\x0c' then ['\\', 'f']
  else if c = '\r' then ['\\', 'r']
  else if c.toNat < 0x20 then
    ['\\', 'u', '0', '0', hexDigit (c.toNat / 16), hexDigit (c.toNat % 16)]
  else [c]

def stringChars (s : String) : List Char :=
  '"' :: s.toList.flatMap escapedChar ++ ['"']

def Number.chars : Number → List Char
  | .int (.ofNat n) => Nat.toDigits 10 n
  | .int (.negSucc n) => '-' :: Nat.toDigits 10 (n + 1)
  | .real x => x.chars

mutual
def Value.chars : Value → List Char
  | .null => ['n', 'u', 'l', 'l']
  | .bool true => ['t', 'r', 'u', 'e']
  | .bool false => ['f', 'a', 'l', 's', 'e']
  | .number n => n.chars
  | .string s => stringChars s
  | .array [] => ['[', ']']
  | .array (v :: vs) => '[' :: (v.chars ++ elementsChars vs)
  | .object [] => ['\x7b', '\x7d']
  | .object ((k, v) :: ms) => '\x7b' :: (stringChars k ++ ':' :: (v.chars ++ membersChars ms))

/-- The elements after the first, up to the closing bracket. -/
def elementsChars : List Value → List Char
  | [] => [']']
  | v :: vs => ',' :: (v.chars ++ elementsChars vs)

/-- The members after the first, up to the closing brace. -/
def membersChars : List (String × Value) → List Char
  | [] => ['\x7d']
  | (k, v) :: ms => ',' :: (stringChars k ++ ':' :: (v.chars ++ membersChars ms))
end

def Value.text (v : Value) : String := String.ofList v.chars

end ContentSdl.Json
