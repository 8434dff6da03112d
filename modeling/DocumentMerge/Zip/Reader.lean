import DocumentMerge.Zip.Ending
import DocumentMerge.Zip.Further
import DocumentMerge.Zip.Inflate
import DocumentMerge.Zip.Member

/-!
# Reading packages

A directory is believed only as a whole.  If one of its records is broken or does not lead in front
of the directory, the next end record further up is tried.  Of two records with one name the later
one counts, in the place of the earlier one.

What stands in front of the content of a member is looked at only when the member is read.  The
first member that cannot be read decides what is wrong with a package.  Content that is neither
stored nor deflated is given to the decompressors with which a package is read.
-/

namespace DocumentMerge.Zip

/-- Why bytes cannot be read as a package. -/
inductive Fault where
  /-- There is no directory of members that can be read. -/
  | notAPackage
  /-- A member is encrypted, compressed by an unknown method, or not where the directory says. -/
  | unsupported
  /-- The content of a member cannot be decompressed or has another checksum than recorded. -/
  | damaged
  deriving DecidableEq, Repr

/-- The wording of a fault. -/
def Fault.message : Fault → Text
  | .notAPackage => "invalid Zip archive".toList
  | .unsupported => "unsupported Zip archive".toList
  | .damaged => "Invalid checksum".toList

/-! ## The directory -/

/-- Reads the directory record at a place, and where the next one begins.  Its local record has to
be in front of the directory. -/
def recordAt? (data : ByteArray) (directory : Directory) (place : Nat) : Option (Entry × Nat) := do
  let r ← EntryRecord.read? data place
  let e ← r.entry.extended? r.further
  if e.offset + directory.shift < directory.start then
    some ({ e with offset := e.offset + directory.shift }, r.next)
  else none

/-- Reads directory records. -/
def entries? (data : ByteArray) (directory : Directory) : (count place : Nat) →
    Option (List Entry)
  | 0, _ => some []
  | count + 1, place => do
    let (entry, next) ← recordAt? data directory place
    let rest ← entries? data directory count next
    some (entry :: rest)

/-- The records to which the end record at a place leads. -/
def entriesAt? (data : ByteArray) (place : Nat) : Option (List Entry) := do
  let directory ← directoryAt? data place
  entries? data directory directory.count directory.start

/-- The records to which the last end record in front of `limit` leads that leads to any. -/
def lastEntries? (data : ByteArray) : (limit : Nat) → Option (List Entry)
  | 0 => none
  | place + 1 =>
    match entriesAt? data place with
    | some entries => some entries
    | none => lastEntries? data place

/-- Puts a record in the place of the one with its name, or else at the end. -/
def record (e : Entry) : List Entry → List Entry
  | [] => [e]
  | f :: fs => if f.name = e.name then e :: fs else f :: record e fs

/-- Keeps one record for every name: the last one, in the place of the first. -/
def distinct (es : List Entry) : List Entry :=
  es.foldl (fun kept e => record e kept) []

/-! ## Members -/

/-- Where the content behind the local record at a place begins. -/
def contentStart? (data : ByteArray) (place : Nat) : Option Nat := do
  if RecordKind.localEntry.begins data place then
    let nameLength ← field? data (place + 26) 2
    let furtherLength ← field? data (place + 28) 2
    some (place + 30 + nameLength + furtherLength)
  else none

/-- The method that a number stands for. -/
def Compression.ofNumber? : Nat → Option Compression
  | 0 => some .stored
  | 8 => some .deflated
  | 9 => some (.coded .deflate64)
  | 12 => some (.coded .bzip2)
  | 14 => some (.coded .lzma)
  | 93 => some (.coded .zstd)
  | 95 => some (.coded .xz)
  | _ => none

/-- The content that is kept by a method. -/
def Compression.content? (unpack : Unpack) (compression : Compression) (kept : ByteArray) :
    Option ByteArray :=
  match compression with
  | .stored => some kept
  | .deflated => Inflate.inflate? kept
  | .coded codec => unpack codec kept

/-- Where the content of a member begins and by which method it is kept, if that can be read. -/
def Entry.access? (data : ByteArray) (e : Entry) : Option (Nat × Compression) := do
  if e.encrypted ∨ e.locked then none
  else
    let start ← contentStart? data e.offset
    let compression ← Compression.ofNumber? e.method
    some (start, compression)

/-- Reads the content of a member.  At the end of the bytes it may be shorter than recorded. -/
def member? (unpack : Unpack) (data : ByteArray) (e : Entry) : Except Fault Held :=
  match e.access? data with
  | none => .error .unsupported
  | some (start, compression) =>
    match compression.content? unpack (data.extract start (start + e.size)) with
    | some content =>
      if (checksum content).toNat = e.checksum then .ok ⟨e.name, compression, content⟩
      else .error .damaged
    | none => .error .damaged

/-- Reads all members of a package in the order of its directory. -/
def decode (unpack : Unpack) (data : ByteArray) : Except Fault (List Held) :=
  match lastEntries? data (data.size + 1) with
  | some entries => (distinct entries).mapM (member? unpack data)
  | none => .error .notAPackage

end DocumentMerge.Zip
