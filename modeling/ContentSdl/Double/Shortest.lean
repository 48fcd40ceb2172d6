import ContentSdl.Double.Binary64

/-! # The shortest decimal that reads back as a given double -/

namespace ContentSdl.Double

/-- A decimal point `count * 10 ^ place`. -/
structure Decimal where
  count : Nat
  place : Int
  deriving DecidableEq, Repr

/-- `num / den` as a fraction of `10 ^ place`. -/
def divideTen (num den : Nat) (place : Int) : Nat × Nat :=
  if 0 ≤ place then (num, den * Nat.pow 10 place.toNat) else (num * Nat.pow 10 (-place).toNat, den)

/-- The numerators, over one denominator, of a positive double and of the ends of the interval that
rounds to it; the lower neighbour of a power of two is half as far. -/
structure Surround where
  low : Nat
  mid : Nat
  high : Nat
  den : Nat
  closed : Bool

def Binary64.surround (x : Binary64) : Surround :=
  let below := if x.digits = Nat.pow 2 52 ∧ -1074 < x.exponent then 1 else 2
  let (scale, den) := if 2 ≤ x.exponent then (Nat.pow 2 (x.exponent - 2).toNat, 1)
    else (1, Nat.pow 2 (2 - x.exponent).toNat)
  { low := (4 * x.digits - below) * scale
    mid := 4 * x.digits * scale
    high := (4 * x.digits + 2) * scale
    den := den
    closed := x.digits % 2 = 0 }

/-- Whether `count * 10 ^ place` rounds to the double. -/
def Surround.holds (s : Surround) (d : Decimal) : Bool :=
  let (low, den) := divideTen s.low s.den d.place
  let (high, _) := divideTen s.high s.den d.place
  let n := d.count * den
  if s.closed then low ≤ n && n ≤ high else low < n && n < high

/-- The nearer of the two neighbours on one decimal grid that round to the double; of two equally near
ones the even. -/
def Surround.onGrid? (s : Surround) (place : Int) : Option Decimal :=
  let (n, d) := divideTen s.mid s.den place
  let below : Decimal := ⟨n / d, place⟩
  let above : Decimal := ⟨n / d + 1, place⟩
  match s.holds below, s.holds above with
  | true, false => some below
  | false, true => some above
  | false, false => none
  | true, true =>
    let rest := 2 * (n % d)
    if rest < d ∨ (rest = d ∧ n / d % 2 = 0) then some below else some above

/-- The exponent of the leading decimal digit of `num / den`, if the fraction is at least `10 ^ -400`. -/
def leadingPlace (num den : Nat) : Int :=
  (Nat.toDigits 10 (num * Nat.pow 10 400 / den)).length - 401

/-- Of the decimals with the fewest digits that read back, the nearest. -/
def Binary64.shortest (x : Binary64) : Decimal :=
  let s := x.surround
  let lead := leadingPlace s.mid s.den
  ((List.range 17).findSome? fun n : Nat => s.onGrid? (lead - n)).getD ⟨0, 0⟩

/-- The digits without closing zeros, and the exponent of the first of them. -/
def Decimal.digits (d : Decimal) : List Char × Int :=
  let ds := Nat.toDigits 10 d.count
  ((ds.reverse.dropWhile (· = '0')).reverse, ds.length - 1 + d.place)

end ContentSdl.Double
