import DocumentMerge.Document.Basic
import DocumentMerge.Package.Manifest

/-!
# Saving a document

At the end the document's own values are put into its texts, its pictures are listed in the
manifest, and all of this is written into the working copy, which then is the result.

The texts with the values are kept in the document, also when a later step fails, and a second
save starts from them.
-/

namespace DocumentMerge.Document

/-- The document with its values in its texts. -/
def substitute (d : Document) : Document :=
  { d with
    content := d.values.bindings.apply d.content
    styles := d.values.bindings.apply d.styles }

/-- Makes one edit after another, up to the first that fails. -/
def editAll : List (Archive → Except Error Unit × Archive) → Archive → Except Error Unit × Archive
  | [], a => (.ok (), a)
  | edit :: edits, a =>
    match edit a with
    | (.ok (), a) => editAll edits a
    | (.error cause, a) => (.error cause, a)

/-- The edit that writes the texts and the pictures of a document. -/
def writeParts (d : Document) : Archive → Except Error Unit × Archive :=
  editAll [
    WorkingCopy.putText Part.content d.content,
    WorkingCopy.putText Part.styles d.styles,
    WorkingCopy.putText Part.manifest d.manifest,
    WorkingCopy.putPictures d.session.disk false d.values.pictures]

/-- An error of the archive that keeps the result from being written. -/
def exportError : Error → Error
  | .archive cause => .notExported (.archive cause)
  | cause => cause

/-- Writes the result into the working copy. -/
def finalize (d : Document) : Except Error Unit × Document :=
  let d := d.substitute
  match Manifest.addPictures d.manifest d.values.listed with
  | .error cause => (.error (.markup cause), d)
  | .ok manifest =>
    let d := { d with manifest }
    let (result, session) := d.session.withOpen d.writeParts
    (result.mapError exportError, { d with session })

/-- Saves the result at a path, or else over the template. -/
def save (d : Document) (destination? : Option Text) : Except Error Unit × Document :=
  match d.finalize with
  | (.error cause, d) => (.error cause, d)
  | (.ok (), d) =>
    let destination := destination?.getD d.source
    match d.session.working with
    | none => (.error (.notExported .noWorkingCopy), d)
    | some w =>
      let copied := (d.session.disk.fetch (.temporary w.file)).bind fun content =>
        d.session.disk.write destination content
      match copied with
      | .error cause => (.error (.notExported (.copy destination cause)), d)
      | .ok disk => (.ok (), { d with session := { d.session with disk } })

/-- The file of the result. -/
def toFile (d : Document) : Except Error File × Document :=
  match d.finalize with
  | (.error cause, d) => (.error cause, d)
  | (.ok (), d) =>
    match d.session.working with
    | none => (.error (.notExported .noWorkingCopy), d)
    | some w => ((d.session.disk.fetch (.temporary w.file)).mapError .io, d)

/-- Hands the file of the result to a writer, which may refuse it. -/
def writeTo (d : Document) (writer : File → Except DiskError Unit) : Except Error Unit × Document :=
  match d.toFile with
  | (.error cause, d) => (.error cause, d)
  | (.ok file, d) => ((writer file).mapError .io, d)

end DocumentMerge.Document
