import DocumentMerge.Zip.Field
import DocumentMerge.Zip.Member

/-!
# Writing packages

Every member is written as a local record with its content, then the directory of all members,
then the end record.  The compressed form chosen here is the simplest there is, blocks of bytes
as they are: it is read back by every reader, and writing stays a plain function of the members.
-/

namespace DocumentMerge.Zip

/-- The most bytes that a block can hold. -/
def blockLimit : Nat := 0xFFFF

/-- Writes content in blocks of bytes as they are; `fuel` bounds their number. -/
def blocks (content : ByteArray) : (fuel : Nat) → List UInt8
  | 0 => []
  | fuel + 1 =>
    let block := content.extract 0 blockLimit
    let last := content.size ≤ blockLimit
    (if last then 1 else 0) :: number 2 block.size ++ number 2 (0xFFFF - block.size)
      ++ block.toList
      ++ if last then [] else blocks (content.extract blockLimit content.size) fuel

/-- The form in which content is kept. -/
def keep (method : Method) (content : ByteArray) : List UInt8 :=
  match method with
  | .stored => content.toList
  | .deflated => blocks content (content.size / blockLimit + 1)

/-- The most bytes that a name can have. -/
def nameLimit : Nat := 0xFFFF

/-- Whether a name is short enough for the records of its member. -/
def nameFits (name : Text) : Bool :=
  name.toBytes.size ≤ nameLimit

def Member.fits (m : Member) : Bool :=
  nameFits m.name

/-- The number by which a method is recorded. -/
def methodNumber : Method → Nat
  | .stored => 0
  | .deflated => 8

/-- What the local record and the directory say alike of a member: version, flags, method, time
and date, checksum, both sizes, and the lengths of the name and of further fields. -/
def description (m : Member) (name kept : List UInt8) : List UInt8 :=
  number 2 20 ++ number 2 (if name.all (· < 0x80) then 0 else 0x800)
    ++ number 2 (methodNumber m.method) ++ number 2 0 ++ number 2 0x21
    ++ number 4 (checksum m.data).toNat ++ number 4 kept.length ++ number 4 m.data.size
    ++ number 2 name.length ++ number 2 0

/-- A member with its local record, and its directory record. -/
def records (offset : Nat) (m : Member) : List UInt8 × List UInt8 :=
  let name := m.name.toBytes.toList
  let kept := keep m.method m.data
  let said := description m name kept
  (number 4 RecordKind.localEntry.signature ++ said ++ name ++ kept,
    number 4 RecordKind.directoryEntry.signature ++ number 2 20 ++ said ++ number 2 0 ++ number 2 0
      ++ number 2 0 ++ number 4 0 ++ number 4 offset ++ name)

/-- Writes the members from an offset on, and their directory. -/
def write (offset : Nat) : List Member → List UInt8 × List UInt8
  | [] => ([], [])
  | m :: ms =>
    let (content, directory) := records offset m
    let (contents, directories) := write (offset + content.length) ms
    (content ++ contents, directory ++ directories)

/-- The bytes of a package. -/
def encode (members : List Member) : ByteArray :=
  let (contents, directory) := write 0 members
  let count := members.length
  ByteArray.mk
    (contents ++ directory ++ number 4 RecordKind.ending.signature ++ number 2 0 ++ number 2 0
      ++ number 2 count ++ number 2 count ++ number 4 directory.length ++ number 4 contents.length
      ++ number 2 0).toArray

end DocumentMerge.Zip
