import DocumentMerge.Decimal.Shortest
import DocumentMerge.Json.Syntax

/-!
# Numbers in JSON texts

A number without point and exponent that fits a signed or an unsigned 64-bit integer stays an
integer, except for minus zero; every other number becomes a double, and one beyond the range of
doubles is refused.

A double is read in two steps.  As many digits as fit in 64 bits are gathered into a significand,
and the significand is then multiplied or divided by a power of ten, each step rounded once.  It
is written with the fewest digits that read back, and positionally from `10 ^ (-5)` up to, but
not including, `10 ^ 16`.
-/

namespace DocumentMerge.Json

/-- A number as data. -/
inductive Number where
  | integer (n : Int)
  | double (x : Float)

/-- The largest significand. -/
def maxSignificand : Nat := 0xFFFFFFFFFFFFFFFF

/-- The largest power of ten that is a double. -/
def maxPower : Nat := 308

/-- Gathers digits into a significand until one does not fit; the digits from there on are left
over. -/
def gather (significand : Nat) : Text → Nat × Text
  | [] => (significand, [])
  | d :: ds =>
    let next := significand * 10 + (d.toNat - '0'.toNat)
    if next ≤ maxSignificand then gather next ds else (significand, d :: ds)

/-- Multiplies a double by a power of ten; too large a result is refused. -/
def timesTenTo (x : Float) (exponent : Int) : Option Float :=
  if exponent.natAbs ≤ maxPower then
    let power := Float.ofScientific 1 false exponent.natAbs
    if exponent < 0 then some (x / power)
    else if (x * power).isInf then none
    else some (x * power)
  else if x == 0 then some x
  else if _below : exponent < 0 then
    timesTenTo (x / Float.ofScientific 1 false maxPower) (exponent + maxPower)
  else none
termination_by (-exponent).toNat
decreasing_by simp only [maxPower]; omega

/-- The number that digits name. -/
def natOfDigits (ds : Text) : Nat :=
  ds.foldl (fun n d => n * 10 + (d.toNat - '0'.toNat)) 0

/-- The double that a literal names. -/
def Literal.double? (n : Literal) : Option Float :=
  let (significand, overflowing) := gather 0 n.whole
  let (significand', unread) := gather significand n.fraction
  let power : Int :=
    match n.exponent with
    | some (true, ds) => -natOfDigits ds
    | some (false, ds) => natOfDigits ds
    | none => 0
  let exponent : Int := power + overflowing.length - (n.fraction.length - unread.length : Nat)
  (timesTenTo significand'.toUInt64.toFloat exponent).map fun x => if n.negative then -x else x

/-- The number that a literal names, when it is in range. -/
def Literal.number? (n : Literal) : Option Number :=
  let (significand, overflowing) := gather 0 n.whole
  if n.fraction.isEmpty ∧ n.exponent.isNone ∧ overflowing.isEmpty then
    if ¬n.negative then some (.integer significand)
    else if 0 < significand ∧ significand ≤ 0x8000000000000000 then some (.integer (-significand))
    else some (.double (-significand.toUInt64.toFloat))
  else n.double?.map .double

/-- The double nearest to a number. -/
def Number.toFloat : Number → Float
  | .integer n => if n < 0 then -(-n).toNat.toUInt64.toFloat else n.toNat.toUInt64.toFloat
  | .double x => x

/-- Where positional notation begins and ends, as exponents of the first digit. -/
def positional (exponent : Int) : Bool :=
  -5 ≤ exponent && exponent < 16

/-- Writes `digits · 10 ^ exponent`. -/
def renderDecimal (digits : Nat) (exponent : Int) : Text :=
  let ds := Text.ofNat digits
  let leading : Int := exponent + ds.length - 1
  if positional leading then
    if leading < 0 then "0.".toList ++ List.replicate (-leading - 1).toNat '0' ++ ds
    else if 0 ≤ exponent then ds ++ List.replicate exponent.toNat '0' ++ ".0".toList
    else
      let whole := (leading + 1).toNat
      ds.take whole ++ '.' :: ds.drop whole
  else
    let mantissa := if ds.length = 1 then ds else ds.take 1 ++ '.' :: ds.drop 1
    let sign := if leading < 0 then '-' else '+'
    mantissa ++ 'e' :: sign :: Text.ofNat leading.natAbs

/-- Writes a double; what is not finite has no number in JSON. -/
def renderDouble (x : Float) : Text :=
  match Decimal.Binary.ofFloat x with
  | .finite negative mantissa exponent =>
    let sign := if negative then ['-'] else []
    if mantissa = 0 then sign ++ "0.0".toList
    else
      let (digits, power) := Decimal.shortest mantissa exponent
      sign ++ renderDecimal digits power
  | .infinite _ | .notANumber => "null".toList

/-- Writes a number. -/
def Number.render : Number → Text
  | .integer n => if n < 0 then '-' :: Text.ofNat n.natAbs else Text.ofNat n.natAbs
  | .double x => renderDouble x

end DocumentMerge.Json
