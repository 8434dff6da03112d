/-!
# Fields of the records of a package

The records of a package consist of numbers, lowest byte first, and of pieces whose lengths are
such numbers.  Every record begins with a number that tells its kind.

One of the numbers is the checksum of a member, the remainder of its bits by a fixed polynomial over
the field of two elements, so that damage is noticed when the member is read.
-/

namespace DocumentMerge.Zip

/-- The number in `width` bytes at a place. -/
def field? (data : ByteArray) (place : Nat) : (width : Nat) → Option Nat
  | 0 => some 0
  | width + 1 => do
    let low ← data[place]?
    let high ← field? data (place + 1) width
    some (low.toNat + 256 * high)

/-- The bytes of a piece of variable length. -/
def slice? (data : ByteArray) (place length : Nat) : Option ByteArray :=
  if place + length ≤ data.size then some (data.extract place (place + length)) else none

/-- A number in `width` bytes. -/
def number (width n : Nat) : List UInt8 :=
  match width with
  | 0 => []
  | width + 1 => n.toUInt8 :: number width (n / 256)

/-! ## Signatures -/

/-- The kinds of records. -/
inductive RecordKind where
  /-- What stands in front of the content of a member. -/
  | localEntry
  /-- What the directory says of a member. -/
  | directoryEntry
  /-- What says where the directory is. -/
  | ending
  /-- An end record with wider numbers. -/
  | wideEnding
  /-- What says where the end record with wider numbers is. -/
  | locator
  deriving DecidableEq, Repr

/-- The number that begins a record. -/
def RecordKind.signature : RecordKind → Nat
  | .localEntry => 0x04034b50
  | .directoryEntry => 0x02014b50
  | .ending => 0x06054b50
  | .wideEnding => 0x06064b50
  | .locator => 0x07064b50

/-- Whether a record of a kind begins at a place. -/
def RecordKind.begins (kind : RecordKind) (data : ByteArray) (place : Nat) : Bool :=
  field? data place 4 == some kind.signature

/-! ## Checksums -/

/-- Divides one more bit: shifts, and subtracts the polynomial when a bit fell out. -/
def checksumBit (c : UInt32) : UInt32 :=
  if c &&& 1 = 1 then (0xEDB88320 : UInt32) ^^^ (c >>> 1) else c >>> 1

/-- The remainders of all single bytes. -/
def checksumTable : Array UInt32 :=
  (Array.range 256).map fun n =>
    (List.range 8).foldl (fun c _ => checksumBit c) n.toUInt32

/-- Takes one more byte into a remainder. -/
def checksumByte (table : Array UInt32) (c : UInt32) (b : UInt8) : UInt32 :=
  (table.getD ((c ^^^ b.toUInt32) &&& 0xFF).toNat 0) ^^^ (c >>> 8)

/-- The checksum of bytes. -/
def checksum (data : ByteArray) : UInt32 :=
  let table := checksumTable
  data.foldl (checksumByte table) (0xFFFFFFFF : UInt32) ^^^ 0xFFFFFFFF

end DocumentMerge.Zip
