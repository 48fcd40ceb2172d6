import ContentSdl.Double.Shortest

/-! # How a double is written -/

namespace ContentSdl.Double

/-- Digits are written out with a point between these exponents of the leading digit, and before a
power of ten outside of them. -/
structure Layout where
  least : Int
  most : Int

/-- A digit stands on either side of the point, and an exponent has its sign. -/
def Layout.write (l : Layout) (digits : List Char) (lead : Int) : List Char :=
  if l.least ≤ lead ∧ lead ≤ l.most then
    if 0 ≤ lead then
      let whole := digits.take (lead.toNat + 1)
      let fraction := digits.drop (lead.toNat + 1)
      whole ++ List.replicate (lead.toNat + 1 - whole.length) '0' ++
        '.' :: (if fraction.isEmpty then ['0'] else fraction)
    else '0' :: '.' :: List.replicate (-lead - 1).toNat '0' ++ digits
  else
    let point := if 1 < digits.length then ['.'] else []
    let sign := if 0 ≤ lead then '+' else '-'
    digits.take 1 ++ point ++ digits.drop 1 ++ 'e' :: sign :: Nat.toDigits 10 lead.natAbs

/-- The text of a double in JSON. -/
def Binary64.chars (x : Binary64) : List Char :=
  (if x.negative then ['-'] else []) ++
    if x.digits = 0 then ['0', '.', '0']
    else
      let (digits, lead) := x.shortest.digits
      Layout.write ⟨-5, 15⟩ digits lead

end ContentSdl.Double
