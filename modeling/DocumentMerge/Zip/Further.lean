import DocumentMerge.Zip.Entry

/-!
# Further fields of a directory record

A directory record carries further fields, each with a number that tells its kind and the length of
its content.  Some of them override what the record says: wider sizes and places, a name or a
comment in Unicode, the cipher.  Others only have to have their form, and unknown ones are passed
over.

The fields are read one behind the other and a field is not held to its length while it is read.
Where the bytes end inside a field, reading ends and what was changed so far holds; a field that
contradicts its form or the record makes the whole record invalid.
-/

namespace DocumentMerge.Zip

/-- A record under change, and the bytes that are still to be read. -/
structure Reading where
  entry : Entry
  rest : List UInt8

/-- Why reading ends. -/
inductive Stop where
  /-- The bytes end. -/
  | short
  /-- A field contradicts its form or the record. -/
  | wrong
  deriving DecidableEq, Repr

/-- A step of reading.  What it changed holds also when it ends reading. -/
abbrev Step (α : Type) := ExceptT Stop (StateM Reading) α

namespace Step

/-- Takes a number of bytes. -/
def bytes (count : Nat) : Step (List UInt8) := do
  let r ← get
  if count ≤ r.rest.length then
    set { r with rest := r.rest.drop count }
    return r.rest.take count
  else throw .short

/-- The number that bytes stand for, lowest byte first. -/
def numberOf (bytes : List UInt8) : Nat :=
  bytes.foldr (fun b high => b.toNat + 256 * high) 0

/-- Takes a number of `width` bytes. -/
def value (width : Nat) : Step Nat :=
  numberOf <$> bytes width

/-- Goes on only if a condition holds. -/
def require (condition : Bool) : Step Unit :=
  if condition then pure () else throw .wrong

/-- Changes the record. -/
def change (f : Entry → Entry) : Step Unit :=
  modify fun r => { r with entry := f r.entry }

end Step

open Step

/-- The number that stands for one that is too wide. -/
def tooWide : Nat := 0xFFFFFFFF

/-- Takes a wide number in the place of `current`, if that one is too wide or all numbers are given,
and says how many bytes were taken. -/
def wideNumber (all : Bool) (current : Entry → Nat) (put : Nat → Entry → Entry) : Step Nat := do
  if all || current (← get).entry == tooWide then
    let n ← value 8
    change (put n)
    return 8
  else return 0

/-- Wide numbers in the order of the record.  A field that has room for all three holds them all,
and otherwise those that are too wide for the record. -/
def wideNumbers (length : Nat) : Step Unit := do
  let all := decide (24 ≤ length)
  let a ← wideNumber all Entry.fullSize fun n e => { e with fullSize := n }
  let b ← wideNumber all Entry.size fun n e => { e with size := n }
  let c ← wideNumber all Entry.offset fun n e => { e with offset := n }
  require (a + b + c ≤ length)
  let _ ← bytes (length - (a + b + c))

/-- Three times of high resolution. -/
def fineTimes (length : Nat) : Step Unit := do
  require (length == 32)
  let _ ← value 4
  require ((← value 2) == 1)
  require ((← value 2) == 24)
  let _ ← bytes 24

/-- The maker of the one cipher that is known. -/
def cipherMaker : Nat := 0x4541

/-- The cipher of a member and the method behind it. -/
def cipher (length : Nat) : Step Unit := do
  require (length == 7)
  let version ← value 2
  let maker ← value 2
  let strength ← value 1
  let method ← value 2
  require (maker == cipherMaker)
  require (version == 1 || version == 2)
  require (1 ≤ strength && strength ≤ 3)
  change fun e => { e with locked := true, method }

/-- Times in seconds, of which the lowest three bits of a number say which are there.  A field of
five bytes has one time whatever the bits say. -/
def times (length : Nat) : Step Unit := do
  let present ← value 1
  let count := (present.testBit 0).toNat + (present.testBit 1).toNat + (present.testBit 2).toNat
  require (present < 8)
  require (length == 5 || length == 1 + 4 * count)
  let _ ← bytes (length - 1)

/-- A text in Unicode that replaces another one, with the checksum of the bytes it replaces. -/
def unicode (length : Nat) (replaced : Entry → ByteArray) : Step (ByteArray × Text) := do
  let _ ← value 1
  let sum ← value 4
  require (5 ≤ length)
  let content := ByteArray.mk (← bytes (length - 5)).toArray
  require ((checksum (replaced (← get).entry)).toNat == sum)
  match Text.ofBytes? content with
  | some t => return (content, t)
  | none => throw .wrong

/-- Reads a field of a kind and a length.  The kinds are numbers that the format gives out. -/
def furtherField (kind length : Nat) : Step Unit := do
  match kind with
  | 0x0001 => wideNumbers length
  | 0x000A => fineTimes length
  | 0x5455 => times length
  | 0x6375 =>
    let (_, comment) ← unicode length fun e => e.comment.toBytes
    change fun e => { e with comment }
  | 0x7075 =>
    let (nameBytes, name) ← unicode length Entry.nameBytes
    change fun e => { e with name, nameBytes }
  | 0x9901 => cipher length
  | _ => let _ ← bytes length

/-- Reads fields to the end; `fuel` bounds their number. -/
def furtherFields : (fuel : Nat) → Step Unit
  | 0 => pure ()
  | fuel + 1 => do
    unless (← get).rest.isEmpty do
      let kind ← value 2
      let length ← value 2
      furtherField kind length
      furtherFields fuel

/-- The method that stands for the one behind a cipher. -/
def cipherMethod : Nat := 99

/-- What a record says together with its further fields.  Every field takes bytes, so there are no
more of them than bytes. -/
def Entry.extended? (e : Entry) (further : List UInt8) : Option Entry :=
  match (furtherFields further.length).run.run ⟨e, further⟩ with
  | (.error .wrong, _) => none
  | (_, r) => if r.entry.method = cipherMethod ∧ ¬r.entry.locked then none else some r.entry

end DocumentMerge.Zip
