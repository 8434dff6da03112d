import DocumentMerge.Archive.Error
import DocumentMerge.Disk.Temporary

/-!
# Editing a package

A document is a package of members with fixed names: its media type, its text, its styles, its
metadata and a manifest that lists the others.  Pictures lie in a directory of their own.

A package cannot be changed in its file.  It is opened, which takes all members into memory,
edited there member by member, and written back as a whole when it is closed; if nothing was
changed the file is left alone.  One handle can be opened and closed many times.

Every call answers with the handle that it leaves behind, also when it fails.
-/

namespace DocumentMerge

namespace Part

/-- The media type, which stands first and uncompressed in a package. -/
def mimetype : Text := "mimetype".toList

/-- The body of the document. -/
def content : Text := "content.xml".toList

/-- Styles, headers and footers. -/
def styles : Text := "styles.xml".toList

/-- The metadata. -/
def meta_ : Text := "meta.xml".toList

/-- The list of members. -/
def manifest : Text := "META-INF/manifest.xml".toList

/-- The directory of pictures. -/
def picturesDirectory : Text := "Pictures/".toList

/-- The member that holds a picture file. -/
def picture (file : Text) : Text :=
  picturesDirectory ++ file

end Part

open Zip (Held Member)

/-- A handle on a package. -/
structure Archive where
  /-- Where the open package is. -/
  location : Option Location
  /-- The members in the order of the package. -/
  held : List Held
  /-- Whether a member was put since the package was opened. -/
  dirty : Bool

namespace Archive

/-- A handle that is closed. -/
def closed : Archive := ⟨none, [], false⟩

instance : Inhabited Archive := ⟨closed⟩

def isOpen (a : Archive) : Bool :=
  a.location.isSome

/-- The members of the package at a location. -/
def load (disk : Disk) (location : Location) : Except ArchiveError (List Held) :=
  match disk.fetch location with
  | .error cause => .error (.cannotOpen location.text (.unreadable cause))
  | .ok file =>
    match file.read with
    | .error fault => .error (.ofFault location.text fault)
    | .ok held => .ok held

/-- Opens the package at a location. -/
def openAt (a : Archive) (disk : Disk) (location : Location) : Except ArchiveError Unit × Archive :=
  match a.location with
  | some present => (.error (.alreadyOpen present.text), a)
  | none =>
    match load disk location with
    | .error cause => (.error cause, a)
    | .ok held => (.ok (), { a with location := some location, held, dirty := false })

/-- The members of an open package. -/
def members (a : Archive) : Except ArchiveError (List Held) :=
  match a.location with
  | some _ => .ok a.held
  | none => .error .notOpen

/-- The first member of a name. -/
def find? (a : Archive) (name : Text) : Option Held :=
  a.held.find? fun h => h.name == name

/-- Whether a member of a name exists. -/
def contains (a : Archive) (name : Text) : Except ArchiveError Bool :=
  a.members.map fun _ => (a.find? name).isSome

/-- The names of all members in the order of the package. -/
def names (a : Archive) : Except ArchiveError (List Text) :=
  a.members.map fun held => held.map Held.name

/-- The content of a member. -/
def bytes (a : Archive) (name : Text) : Except ArchiveError ByteArray :=
  match a.members with
  | .error cause => .error cause
  | .ok _ =>
    match a.find? name with
    | some h => .ok h.data
    | none => .error (.entryNotFound name)

/-- The content of a member as a text. -/
def text (a : Archive) (name : Text) : Except ArchiveError Text :=
  match a.bytes name with
  | .error cause => .error cause
  | .ok data =>
    match Text.ofBytes? data with
    | some t => .ok t
    | none => .error (.invalidText name)

/-! ## Putting members -/

/-- Gives the first member of a name other content, or adds a member at the end. -/
def putMember (name : Text) (data : ByteArray) : List Held → List Held
  | [] => [⟨name, .deflated, data⟩]
  | h :: hs => if h.name = name then { h with data } :: hs else h :: putMember name data hs

/-- The name that was put has the new content, and every other name the member it had. -/
theorem find?_putMember (name : Text) (data : ByteArray) (held : List Held) (other : Text) :
    (putMember name data held).find? (fun h => h.name == other) =
      if other = name then
        some (match held.find? fun h => h.name == name with
          | some h => { h with data }
          | none => ⟨name, .deflated, data⟩)
      else held.find? fun h => h.name == other := by
  induction held with
  | nil =>
    by_cases h : other = name
    · subst h; simp [putMember]
    · have : (name == other) = false := by simpa using Ne.symm h
      simp [putMember, h, this]
  | cons m ms ih =>
    rw [putMember]
    by_cases here : m.name = name
    · by_cases h : other = name
      · subst h; simp [here]
      · have : (name == other) = false := by simpa using Ne.symm h
        simp [here, h, this]
    · by_cases there : m.name = other
      · have h : other ≠ name := there ▸ here
        simp [there, h]
      · simp only [here, if_false, List.find?_cons, ih]
        have : (m.name == other) = false := by simpa using there
        have : (m.name == name) = false := by simpa using here
        simp [*]

/-- Puts content under a name. -/
def put (a : Archive) (name : Text) (data : ByteArray) : Except ArchiveError Unit × Archive :=
  match a.location with
  | none => (.error .notOpen, a)
  | some _ => (.ok (), { a with held := putMember name data a.held, dirty := true })

/-- Puts a text under a name. -/
def putText (a : Archive) (name t : Text) : Except ArchiveError Unit × Archive :=
  a.put name t.toBytes

/-- Puts the content of a file under a name.  The file is read first. -/
def putFile (a : Archive) (disk : Disk) (source name : Text) :
    Except ArchiveError Unit × Archive :=
  match disk.read source with
  | .error cause => (.error (.io cause), a)
  | .ok file => a.put name file.toBytes

/-! ## Closing -/

/-- A member as it is written.  The media type is always stored, and a directory is stored without
content; what else was not stored is deflated. -/
def written (h : Held) : Member :=
  if Zip.isDirectoryName h.name then ⟨h.name, .stored, ByteArray.empty⟩
  else if h.name = Part.mimetype then ⟨h.name, .stored, h.data⟩
  else h.member

/-- The members as they would be written. -/
def entries (a : Archive) : List Member :=
  a.held.map written

/-- Members in the order in which they are written: the media type comes first. -/
def ordered {α : Type} (name : α → Text) (members : List α) : List α :=
  (members.filter fun m => name m == Part.mimetype)
    ++ members.filter fun m => name m != Part.mimetype

/-- The file in which members are written. -/
def toFile (members : List Member) : File :=
  .package (ordered Member.name members)

/-- The disk when members are written in the place of the package at a location.  The new package
is prepared beside the old one, which stays as it was if that fails or if a name is too long for a
package. -/
def store (disk : Disk) (location : Location) (members : List Member) :
    Except ArchiveError Disk :=
  match disk.stage location with
  | .error cause => .error (.notStaged cause)
  | .ok () =>
    if members.all Member.fits then (disk.replace (toFile members) location).mapError .io
    else .error .unsupported

/-- Closes the package, and writes it first if anything was put.  The handle is closed also when
that fails. -/
def close (a : Archive) (disk : Disk) : Except ArchiveError Unit × Archive × Disk :=
  match a.location with
  | none => (.error .notOpen, a, disk)
  | some location =>
    if a.dirty then
      match store disk location a.entries with
      | .error cause => (.error cause, closed, disk)
      | .ok changed => (.ok (), closed, changed)
    else (.ok (), closed, disk)

end Archive

end DocumentMerge
