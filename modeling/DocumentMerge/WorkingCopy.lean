import DocumentMerge.Config
import DocumentMerge.Image.Frame

/-!
# Working copies

A template is copied into a file of its own when it is opened, and everything is written into
this copy: pictures while segments are merged, the metadata when a property is set, and the texts
when the result is saved.  The copy is removed when the document is closed.

The copy is edited through one archive handle, which is open only while a single call edits the
package.  `Session` is what a document and its segments share.
-/

namespace DocumentMerge

/-- A copy of a template, and the handle by which it is edited. -/
structure WorkingCopy where
  file : Temporary
  archive : Archive

namespace WorkingCopy

/-- Copies a template into a directory.  When that fails nothing is left behind. -/
def create (disk : Disk) (template directory : Text) : Except DiskError WorkingCopy × Disk :=
  match disk.makeTemporary directory with
  | .error cause => (.error cause, disk)
  | .ok (file, made) =>
    match made.readForCopy template with
    | .error cause => (.error cause, made.discard file)
    | .ok content => (.ok ⟨file, Archive.closed⟩, made.fillTemporary file content)

/-- Opens the package, edits it and closes it again, also when the edit fails. -/
def withOpen {α : Type} (w : WorkingCopy) (disk : Disk)
    (edit : Archive → Except Error α × Archive) : Except Error α × WorkingCopy × Disk :=
  if w.archive.isOpen then (.error (.notExported .alreadyOpen), w, disk)
  else
    match w.archive.openAt disk (.temporary w.file) with
    | (.error cause, archive) => (.error (.archiveOpen w.file.path cause), { w with archive }, disk)
    | (.ok (), opened) =>
      let (result, edited) := edit opened
      let (closing, archive, disk) := edited.close disk
      let w := { w with archive }
      match result, closing with
      | .error cause, _ => (.error cause, w, disk)
      | .ok _, .error cause => (.error (.notExported (.archive cause)), w, disk)
      | .ok a, .ok () => (.ok a, w, disk)

/-- An edit that puts a text. -/
def putText (name t : Text) (a : Archive) : Except Error Unit × Archive :=
  let (result, a) := a.putText name t
  (result.mapError .archive, a)

/-- An edit that puts the files of pictures, in order, up to the first that fails.  A picture
whose member is there already is passed over if `keep` is set. -/
def putPictures (disk : Disk) (keep : Bool) : List Picture → Archive → Except Error Unit × Archive
  | [], a => (.ok (), a)
  | p :: ps, a =>
    match a.contains p.entry with
    | .error cause => (.error (.archive cause), a)
    | .ok present =>
      if keep && present then putPictures disk keep ps a
      else
        match a.putFile disk p.source p.entry with
        | (.error cause, a) => (.error (.archive cause), a)
        | (.ok (), a) => putPictures disk keep ps a

/-- Copies pictures into the package, except those whose members are there already. -/
def embed (w : WorkingCopy) (disk : Disk) (pictures : List Picture) :
    Except Error Unit × WorkingCopy × Disk :=
  if pictures.isEmpty then (.ok (), w, disk) else w.withOpen disk (putPictures disk true pictures)

end WorkingCopy

/-- What a document and its segments share.  A segment that belongs to no document has no working
copy. -/
structure Session where
  config : Config
  working : Option WorkingCopy
  disk : Disk

namespace Session

/-- Edits the package of the working copy. -/
def withOpen {α : Type} (s : Session) (edit : Archive → Except Error α × Archive) :
    Except Error α × Session :=
  match s.working with
  | none => (.error (.notExported .noWorkingCopy), s)
  | some w =>
    let (result, w, disk) := w.withOpen s.disk edit
    (result, { s with working := some w, disk })

/-- Copies pictures into the package, if there is one. -/
def embed (s : Session) (pictures : List Picture) : Except Error Unit × Session :=
  match s.working with
  | none => (.ok (), s)
  | some w =>
    let (result, w, disk) := w.embed s.disk pictures
    (result, { s with working := some w, disk })

end Session

end DocumentMerge
