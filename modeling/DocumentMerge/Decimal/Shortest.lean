import DocumentMerge.Decimal.Binary

/-!
# The fewest digits that read back

Between a double and its neighbours lies an interval of numbers that are read as this double.
Its shortest decimal is the one with the fewest digits in that interval, the nearest to the
double when there are several, and the even one when two are equally near.

For `n` digits the candidates are the two decimals with `n` digits around the double, so the
digit counts 1, 2, 3, … are tried in turn; seventeen digits always suffice.
-/

namespace DocumentMerge.Decimal

/-- The number of decimal digits of a number. -/
def digitCount (n : Nat) : Nat :=
  (Nat.toDigits 10 n).length

/-- The power `k` with `10 ^ (k - 1) ≤ num / den < 10 ^ k`, for a positive quotient. -/
def magnitude (num den : Nat) : Int :=
  if den ≤ num then digitCount (num / den) else 1 - digitCount ((den - 1) / num)

/-- A double as a quotient, with the ends of the interval that is read as it. -/
structure Interval where
  low : Nat
  value : Nat
  high : Nat
  /-- The denominator of all three. -/
  den : Nat
  /-- Whether the ends are read as the double too. -/
  closed : Bool

/-- The interval of a positive double.  It reaches halfway to both neighbours, and the lower one
is only half as far away where the exponent changes. -/
def Interval.of (mantissa : Nat) (exponent : Int) : Interval :=
  let below := if mantissa = leadingBit ∧ leastExponent < exponent then 1 else 2
  let quarter n := (scaleByTwo n (exponent - 2)).1
  { low := quarter (4 * mantissa - below)
    value := quarter (4 * mantissa)
    high := quarter (4 * mantissa + 2)
    den := (scaleByTwo 1 (exponent - 2)).2
    closed := mantissa % 2 == 0 }

/-- Whether `digits · 10 ^ exponent` lies in the interval. -/
def Interval.holds (i : Interval) (digits : Nat) (exponent : Int) : Bool :=
  let (num, den) := scaleByTen digits 1 exponent
  let below := i.low * den
  let above := i.high * den
  let here := num * i.den
  if i.closed then below ≤ here && here ≤ above else below < here && here < above

/-- The decimal in the interval with digits at `10 ^ exponent` and above, if there is one. -/
def Interval.onGrid (i : Interval) (exponent : Int) : Option Nat :=
  let (num, den) := scaleByTen i.value i.den (-exponent)
  let floor := num / den
  let nearest := roundHalfEven num den
  let other := if nearest = floor then floor + 1 else floor
  if i.holds nearest exponent then some nearest
  else if i.holds other exponent then some other
  else none

/-- Drops the zeros at the end of the digits. -/
def dropZeros (digits : Nat) (exponent : Int) : Nat × Int :=
  if h : 0 < digits ∧ digits % 10 = 0 then dropZeros (digits / 10) (exponent + 1)
  else (digits, exponent)
termination_by digits
decreasing_by omega

/-- The shortest decimal `digits · 10 ^ exponent` that is read as the positive double
`mantissa · 2 ^ exponent`. -/
def shortest (mantissa : Nat) (exponent : Int) : Nat × Int :=
  let i := Interval.of mantissa exponent
  let top := magnitude i.value i.den
  let grids := (List.range 17).map fun n => top - (n + 1 : Nat)
  match grids.findSome? fun e => (i.onGrid e).map fun digits => (digits, e) with
  | some (digits, e) => dropZeros digits e
  | none => (i.value / i.den, 0)

end DocumentMerge.Decimal
