import DocumentMerge.Markup.Error

/-!
# References in attribute values

An attribute value names its special characters by references: the five entities that XML
declares, and the number of a character in decimal or hexadecimal digits.  `Markup.unescape`
puts the characters in their places, or says which reference cannot be read.
-/

namespace DocumentMerge.Markup

/-- The character of an entity. -/
def entity? (name : Text) : Option Char :=
  if name = "lt".toList then some '<'
  else if name = "gt".toList then some '>'
  else if name = "amp".toList then some '&'
  else if name = "apos".toList then some '\''
  else if name = "quot".toList then some '"'
  else none

/-- The value of a digit in a base up to sixteen. -/
def digit? (base : Nat) (c : Char) : Option Nat :=
  let value :=
    if c.isDigit then some (c.toNat - '0'.toNat)
    else if 'a' ≤ c ∧ c ≤ 'f' then some (c.toNat - 'a'.toNat + 10)
    else if 'A' ≤ c ∧ c ≤ 'F' then some (c.toNat - 'A'.toNat + 10)
    else none
  value.filter fun n => n < base

/-- Reads digits from left to right; the number must fit 32 bits at every digit. -/
def digits (base : Nat) (read : Nat) : Text → Except DigitError Nat
  | [] => .ok read
  | c :: cs =>
    match digit? base c with
    | none => .error .invalidDigit
    | some d =>
      let next := read * base + d
      if next < 0x100000000 then digits base next cs else .error .tooLarge

/-- The number that digits without a sign name. -/
def unsigned (base : Nat) (ds : Text) : Except CharacterError Nat :=
  match ds with
  | [] => .error (.digits .noDigits)
  | c :: _ =>
    if c = '+' ∨ c = '-' then .error .sign
    else
      match digits base 0 ds with
      | .ok n => .ok n
      | .error cause => .error (.digits cause)

/-- The character with a number written behind `#`. -/
def character (number : Text) : Except CharacterError Char := do
  let n ←
    match number with
    | 'x' :: ds => unsigned 16 ds
    | ds => unsigned 10 ds
  if n = 0 then .error .zero
  else if n < 0xD800 ∨ (0xDFFF < n ∧ n < 0x110000) then .ok (Char.ofNat n)
  else .error (.notACharacter n)

/-- What a reference stands for, given the text between `&` and `;` and its byte offset. -/
def resolve (start : Nat) (name : Text) : Except ReferenceError Char :=
  match name with
  | '#' :: number =>
    match character number with
    | .ok c => .ok c
    | .error cause => .error (.character cause)
  | _ =>
    match entity? name with
    | some c => .ok c
    | none => .error (.unknownEntity start (start + Text.byteSize name) name)

/-- Replaces references behind the characters already `read`, which are kept last one first;
`position` is the byte offset of the rest.  A reference ends at the next `;`, with no `&` before
it. -/
def unescapeFrom (read : Text) (position : Nat) (s : Text) : Except ReferenceError Text :=
  match s with
  | [] => .ok read.reverse
  | '&' :: s =>
    let name := s.takeWhile fun c => c != '&' && c != ';'
    match _next : s.dropWhile fun c => c != '&' && c != ';' with
    | ';' :: rest =>
      have : rest.length < s.length + 1 := by
        have := (List.dropWhile_sublist (l := s) fun c => c != '&' && c != ';').length_le
        rw [_next] at this
        simp only [List.length_cons] at this
        omega
      match resolve (position + 1) name with
      | .ok c => unescapeFrom (c :: read) (position + 2 + Text.byteSize name) rest
      | .error cause => .error cause
    | _ => .error (.notTerminated position (position + 1 + Text.byteSize s))
  | c :: s => unescapeFrom (c :: read) (position + c.utf8Size) s
termination_by s.length

/-- The text of an attribute value. -/
def unescape (value : Text) : Except Error Text :=
  match unescapeFrom [] 0 value with
  | .ok t => .ok t
  | .error cause => .error (.reference cause)

end DocumentMerge.Markup
