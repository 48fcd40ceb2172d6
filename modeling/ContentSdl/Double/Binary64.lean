/-! # Double-precision numbers, computed exactly -/

namespace ContentSdl.Double

/-- The number `± digits * 2 ^ exponent`, where `digits < 2 ^ 53`, `-1074 ≤ exponent ≤ 971`, and
`2 ^ 52 ≤ digits` unless the exponent is the least. -/
structure Binary64 where
  negative : Bool
  digits : Nat
  exponent : Int
  deriving DecidableEq, Repr, Inhabited

/-- The integer nearest to `num / den`; a half goes to the even neighbour. -/
def nearestEven (num den : Nat) : Nat :=
  let floor := num / den
  let rest := 2 * (num % den)
  if rest < den ∨ (rest = den ∧ floor % 2 = 0) then floor else floor + 1

/-- `(num / den) / 2 ^ e` as a fraction. -/
def dividePower (num den : Nat) (e : Int) : Nat × Nat :=
  if 0 ≤ e then (num, den * Nat.pow 2 e.toNat) else (num * Nat.pow 2 (-e).toNat, den)

/-- The exponent at which the digits of `num / den` have 53 bits, or the least there is. -/
def leadingExponent (num den : Nat) : Int :=
  let e : Int := (num.log2 : Int) - den.log2 - 53
  let (n, d) := dividePower num den e
  max (-1074) (if Nat.pow 2 53 ≤ n / d then e + 1 else e)

namespace Binary64

def zero (negative : Bool) : Binary64 := ⟨negative, 0, -1074⟩

/-- The double nearest to `± num / den`, if it is in range. -/
def ofRatio? (negative : Bool) (num den : Nat) : Option Binary64 :=
  if num = 0 then some (zero negative) else
    let e := leadingExponent num den
    let (n, d) := dividePower num den e
    let q := nearestEven n d
    let (q, e) := if q = Nat.pow 2 53 then (Nat.pow 2 52, e + 1) else (q, e)
    if 971 < e then none else some ⟨negative, q, e⟩

/-- The magnitude as a fraction. -/
def ratio (x : Binary64) : Nat × Nat :=
  if 0 ≤ x.exponent then (x.digits * Nat.pow 2 x.exponent.toNat, 1)
  else (x.digits, Nat.pow 2 (-x.exponent).toNat)

def mul? (x y : Binary64) : Option Binary64 :=
  ofRatio? (x.negative != y.negative) (x.ratio.1 * y.ratio.1) (x.ratio.2 * y.ratio.2)

def div? (x y : Binary64) : Option Binary64 :=
  ofRatio? (x.negative != y.negative) (x.ratio.1 * y.ratio.2) (x.ratio.2 * y.ratio.1)

/-- The double nearest to a power of ten. -/
def powTen (k : Nat) : Binary64 := (ofRatio? false (Nat.pow 10 k) 1).getD (zero false)

/-- `x * 10 ^ e` by one rounded product or quotient, after as many rounded quotients by `10 ^ 308` as
bring the exponent into the range of the powers of ten. -/
def scaleTen? (x : Binary64) (e : Int) : Option Binary64 :=
  if e.natAbs ≤ 308 then
    if 0 ≤ e then x.mul? (powTen e.natAbs) else x.div? (powTen e.natAbs)
  else if x.digits = 0 then some x
  else if h : 0 < e then none
  else (x.div? (powTen 308)).bind (·.scaleTen? (e + 308))
termination_by e.natAbs

end Binary64

end ContentSdl.Double
