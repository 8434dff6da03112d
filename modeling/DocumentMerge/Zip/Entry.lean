import DocumentMerge.Charset.Unicode
import DocumentMerge.Zip.Field

/-!
# Directory records

The directory of a package has one record for every member.  Its numbers and its name may be
overridden by the further fields that the record carries; what stands in the record itself is read
here.

A record marks its name and its comment as Unicode, or else they are in the charset of the system
on which packages were first made.
-/

namespace DocumentMerge.Zip

/-! ## Names -/

/-- The characters of the bytes from 128 on, in the charset of names that are not marked as
Unicode. -/
def nameTable : Array Char :=
  ("ÇüéâäàåçêëèïîìÄÅÉæÆôöòûùÿÖÜ¢£¥₧ƒáíóúñÑªº¿⌐¬½¼¡«»░▒▓│┤╡╢╖╕╣║╗╝╜╛┐".toList
    ++ "└┴┬├─┼╞╟╚╔╩╦╠═╬╧╨╤╥╙╘╒╓╫╪┘┌█▄▌▐▀αßΓπΣσµτΦΘΩδ∞φε∩≡±≥≤⌠⌡÷≈°∙·√ⁿ²■\u00a0".toList).toArray

/-- The character of one byte of a name that is not marked as Unicode. -/
def nameChar (b : UInt8) : Char :=
  if b < 0x80 then Char.ofNat b.toNat
  else nameTable.getD (b.toNat - 128) Charset.replacement

/-- The name that bytes stand for.  In a name that is marked as Unicode every faulty piece becomes
the replacement character. -/
def nameOf (unicode : Bool) (bytes : ByteArray) : Text :=
  if unicode then Charset.decodeUtf8 [] bytes.toList else bytes.toList.map nameChar

/-! ## Records -/

/-- What the directory says of a member. -/
structure Entry where
  name : Text
  /-- The bytes of the name. -/
  nameBytes : ByteArray
  comment : Text
  encrypted : Bool
  /-- Whether the content is locked by the cipher that a further field describes. -/
  locked : Bool
  method : Nat
  checksum : Nat
  /-- How many bytes the content takes in the package. -/
  size : Nat
  /-- How many bytes the content has. -/
  fullSize : Nat
  /-- The recorded place of the local record. -/
  offset : Nat

/-- A directory record, its further fields, and where the next record begins. -/
structure EntryRecord where
  entry : Entry
  further : List UInt8
  next : Nat

/-- Reads the directory record at a place. -/
def EntryRecord.read? (data : ByteArray) (place : Nat) : Option EntryRecord := do
  if RecordKind.directoryEntry.begins data place then
    let flags ← field? data (place + 8) 2
    let method ← field? data (place + 10) 2
    let checksum ← field? data (place + 16) 4
    let size ← field? data (place + 20) 4
    let fullSize ← field? data (place + 24) 4
    let nameLength ← field? data (place + 28) 2
    let furtherLength ← field? data (place + 30) 2
    let commentLength ← field? data (place + 32) 2
    let offset ← field? data (place + 42) 4
    let name ← slice? data (place + 46) nameLength
    let further ← slice? data (place + 46 + nameLength) furtherLength
    let comment ← slice? data (place + 46 + nameLength + furtherLength) commentLength
    let unicode := flags.testBit 11
    some {
      entry := {
        name := nameOf unicode name
        nameBytes := name
        comment := nameOf unicode comment
        encrypted := flags.testBit 0
        locked := false
        method, checksum, size, fullSize, offset }
      further := further.toList
      next := place + 46 + nameLength + furtherLength + commentLength }
  else none

end DocumentMerge.Zip
