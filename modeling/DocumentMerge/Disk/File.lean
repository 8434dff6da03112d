import DocumentMerge.Zip.Reader
import DocumentMerge.Zip.Writer

/-!
# Files

A file holds bytes.  A file that was written as a package is kept as the members that were put
into it: reading a package that this library wrote gives these members back, and its bytes are
made only when they are asked for.

Packages from elsewhere may have members that are compressed in other ways than this library writes.
What is made of those comes with the file that has them.

A file that cannot be reached is refused with the system's own wording.
-/

namespace DocumentMerge

/-- The content of a file. -/
inductive File where
  /-- Bytes.  If they are a package, `unpack` are the decompressors with which it is read. -/
  | bytes (data : ByteArray) (unpack : Zip.Unpack := fun _ _ => none)
  | package (members : List Zip.Member)

namespace File

/-- The bytes of a file. -/
def toBytes : File → ByteArray
  | .bytes data _ => data
  | .package members => Zip.encode members

/-- Reads the members of a file that is a package. -/
def read : File → Except Zip.Fault (List Zip.Held)
  | .bytes data unpack => Zip.decode unpack data
  | .package members => .ok (members.map Zip.Member.held)

@[simp] theorem read_package (ms : List Zip.Member) :
    read (.package ms) = .ok (ms.map Zip.Member.held) := rfl

/-- The members of a file that is a package, each as it would be written again. -/
def members (f : File) : Except Zip.Fault (List Zip.Member) :=
  f.read.map fun held => held.map Zip.Held.member

@[simp] theorem members_package (ms : List Zip.Member) : members (.package ms) = .ok ms := by
  simp [members, Except.map, Function.comp_def]

/-- A file that holds a text. -/
def ofText (t : Text) : File :=
  .bytes t.toBytes

end File

/-! ## Why a file cannot be reached -/

/-- A refusal of the file system. -/
inductive DiskError where
  | notFound
  | notADirectory
  | isADirectory
  | nameTooLong
  /-- A path cannot contain the character with number zero. -/
  | zeroInPath
  /-- Only a file can be copied. -/
  | notAFile
  /-- The content of a file is not UTF-8. -/
  | notText
  deriving DecidableEq, Repr

def DiskError.message : DiskError → Text
  | .notFound => "No such file or directory (os error 2)".toList
  | .notADirectory => "Not a directory (os error 20)".toList
  | .isADirectory => "Is a directory (os error 21)".toList
  | .nameTooLong => "File name too long (os error 36)".toList
  | .zeroInPath => "file name contained an unexpected NUL byte".toList
  | .notAFile =>
    "the source path is neither a regular file nor a symlink to a regular file".toList
  | .notText => "stream did not contain valid UTF-8".toList

end DocumentMerge
