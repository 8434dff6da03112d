import DocumentMerge.Text.Basic

/-!
# UTF-8 and UTF-16 with replacement

Bytes that come from outside need not be well formed.  Decoding never fails: where the bytes do
not continue a character, what was begun is replaced by one U+FFFD, and decoding goes on with the
byte that did not fit.
-/

namespace DocumentMerge.Charset

/-- The character that takes the place of malformed bytes. -/
def replacement : Char := '\ufffd'

/-! ## UTF-8 -/

/-- What the first byte of a character of several bytes demands: how many bytes follow, the range
of the second byte, and the bits that the first byte contributes. -/
structure Lead where
  following : Nat
  low : UInt8
  high : UInt8
  bits : Nat

/-- Reads the first byte of a character of several bytes.  The second byte has a narrower range
where more would be an overlong form, a surrogate, or a number beyond the last character. -/
def Lead.of? (b : UInt8) : Option Lead :=
  let n := b.toNat
  if n < 0xC2 then none
  else if n ≤ 0xDF then some ⟨1, 0x80, 0xBF, n % 0x20⟩
  else if n ≤ 0xEF then
    some ⟨2, if n = 0xE0 then 0xA0 else 0x80, if n = 0xED then 0x9F else 0xBF, n % 0x10⟩
  else if n ≤ 0xF4 then
    some ⟨3, if n = 0xF0 then 0x90 else 0x80, if n = 0xF4 then 0x8F else 0xBF, n % 0x08⟩
  else none

/-- Reads the bytes that follow the first one. -/
def follow (low high : UInt8) (value : Nat) : (missing : Nat) → List UInt8 → Char × List UInt8
  | 0, bytes => (Char.ofNat value, bytes)
  | _ + 1, [] => (replacement, [])
  | missing + 1, b :: bytes =>
    if low ≤ b ∧ b ≤ high then
      follow 0x80 0xBF (value * 0x40 + b.toNat % 0x40) missing bytes
    else (replacement, b :: bytes)

theorem length_follow_le (low high : UInt8) (value missing : Nat) (bytes : List UInt8) :
    (follow low high value missing bytes).2.length ≤ bytes.length := by
  fun_induction follow low high value missing bytes with
  | case1 => exact Nat.le_refl _
  | case2 => exact Nat.le_refl _
  | case3 => next ih => simp only [List.length_cons]; omega
  | case4 => exact Nat.le_refl _

/-- Decodes UTF-8 behind the characters already `read`, which are kept last one first. -/
def decodeUtf8 (read : Text) : List UInt8 → Text
  | [] => read.reverse
  | b :: bytes =>
    if b < 0x80 then decodeUtf8 (Char.ofNat b.toNat :: read) bytes
    else
      match Lead.of? b with
      | none => decodeUtf8 (replacement :: read) bytes
      | some lead =>
        let next := follow lead.low lead.high lead.bits lead.following bytes
        decodeUtf8 (next.1 :: read) next.2
termination_by bytes => bytes.length
decreasing_by
  · simp
  · simp
  · exact Nat.lt_succ_of_le (length_follow_le ..)

/-! ## UTF-16 -/

/-- The 16-bit units of a text, and whether a byte is left over. -/
def units (bigEndian : Bool) (read : List Nat) : List UInt8 → List Nat × Bool
  | a :: b :: bytes =>
    let unit := if bigEndian then a.toNat * 256 + b.toNat else b.toNat * 256 + a.toNat
    units bigEndian (unit :: read) bytes
  | [_] => (read.reverse, true)
  | [] => (read.reverse, false)

/-- Decodes units; a half of a surrogate pair that stands alone is malformed, and so is a byte
left over, but both together at the end are one malformed character. -/
def ofUnits (odd : Bool) (read : Text) : List Nat → Text
  | [] => (if odd then replacement :: read else read).reverse
  | h :: us =>
    if 0xD800 ≤ h ∧ h ≤ 0xDBFF then
      match us with
      | [] => (replacement :: read).reverse
      | l :: vs =>
        if 0xDC00 ≤ l ∧ l ≤ 0xDFFF then
          ofUnits odd (Char.ofNat (0x10000 + (h - 0xD800) * 0x400 + (l - 0xDC00)) :: read) vs
        else ofUnits odd (replacement :: read) (l :: vs)
    else if 0xDC00 ≤ h ∧ h ≤ 0xDFFF then ofUnits odd (replacement :: read) us
    else ofUnits odd (Char.ofNat h :: read) us

/-- Decodes UTF-16. -/
def decodeUtf16 (bigEndian : Bool) (bytes : List UInt8) : Text :=
  let (us, odd) := units bigEndian [] bytes
  ofUnits odd [] us

end DocumentMerge.Charset
