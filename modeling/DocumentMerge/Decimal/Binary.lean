import DocumentMerge.Text.Basic

/-!
# Doubles as exact numbers

A finite double is a sign and a number `mantissa · 2 ^ exponent`.  Lengths and data values are
written in decimal, and what is written depends on that exact number and on nothing else, so both
writers begin by taking a double apart here and go on in natural numbers.
-/

namespace DocumentMerge.Decimal

/-- What the bits of a double say. -/
inductive Binary where
  /-- `mantissa · 2 ^ exponent`, with a sign that zero has too. -/
  | finite (negative : Bool) (mantissa : Nat) (exponent : Int)
  | infinite (negative : Bool)
  | notANumber
  deriving DecidableEq, Repr

/-- The exponent of the smallest doubles, which have no leading mantissa bit. -/
def leastExponent : Int := -1074

/-- The mantissa bit that is not stored. -/
def leadingBit : Nat := 0x10000000000000

/-- Takes the bits of a double apart. -/
def Binary.ofFloat (x : Float) : Binary :=
  let bits := x.toBits.toNat
  let negative := bits / 0x8000000000000000 == 1
  let fraction := bits % leadingBit
  match bits / leadingBit % 2048 with
  | 0 => .finite negative fraction leastExponent
  | 2047 => if fraction == 0 then .infinite negative else .notANumber
  | e + 1 => .finite negative (leadingBit + fraction) (leastExponent + e)

/-- The numerator and denominator of `n · 2 ^ exponent`. -/
def scaleByTwo (n : Nat) (exponent : Int) : Nat × Nat :=
  if exponent < 0 then (n, Nat.pow 2 (-exponent).toNat) else (n * Nat.pow 2 exponent.toNat, 1)

/-- The numerator and denominator of `num / den · 10 ^ exponent`. -/
def scaleByTen (num den : Nat) (exponent : Int) : Nat × Nat :=
  if exponent < 0 then (num, den * Nat.pow 10 (-exponent).toNat)
  else (num * Nat.pow 10 exponent.toNat, den)

/-- The integer nearest to a quotient; of two equally near ones the even one. -/
def roundHalfEven (num den : Nat) : Nat :=
  let q := num / den
  let r := num % den
  if den < 2 * r ∨ (2 * r = den ∧ q % 2 = 1) then q + 1 else q

/-! ## A fixed number of places

The exact value is rounded to a number of decimal places, a half to the even side, and written with
all of these places.  The sign of the double is kept, also where nothing but zeros remains.
-/

/-- The digits of a number with zeros in front up to a width. -/
def padded (width n : Nat) : Text :=
  let digits := Text.ofNat n
  List.replicate (width - digits.length) '0' ++ digits

/-- Writes `n / 10 ^ places` with all its places. -/
def pointed (places n : Nat) : Text :=
  match places with
  | 0 => Text.ofNat n
  | _ => Text.ofNat (n / Nat.pow 10 places) ++ '.' :: padded places (n % Nat.pow 10 places)

/-- Puts the sign in front. -/
def signed (negative : Bool) (t : Text) : Text :=
  if negative then '-' :: t else t

/-- Writes a double with a fixed number of decimal places. -/
def fixed (places : Nat) (x : Float) : Text :=
  match Binary.ofFloat x with
  | .finite negative mantissa exponent =>
    let (num, den) := scaleByTwo mantissa exponent
    signed negative (pointed places (roundHalfEven (num * Nat.pow 10 places) den))
  | .infinite negative => signed negative "inf".toList
  | .notANumber => "NaN".toList

end DocumentMerge.Decimal
