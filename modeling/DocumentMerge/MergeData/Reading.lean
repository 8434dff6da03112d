import DocumentMerge.Disk.Basic
import DocumentMerge.Error
import DocumentMerge.MergeData.Basic

/-!
# Merge data in JSON

Merge data is read from JSON and can be written back.  The brackets of the data count towards the
nesting limit, so the readers are given the number of brackets that may still be opened; members
that the data has no use for are passed over however deep they are.
-/

namespace DocumentMerge

open Json (Syntax Value)

namespace ImageBinding

/-- The names of the fields of an image with a placement. -/
def fields : List Text :=
  ["path".toList, "placement".toList]

/-- Reads an image that is given with a placement, which may be missing. -/
def placedOf? (s : Syntax) : Option ImageBinding := do
  let members ← s.members
  match ← fields.mapM (Syntax.field? members) with
  | [some path, placement] =>
    some (.placed (← path.text)
      (← Syntax.given Placement.inText Placement.ofSyntax? placement))
  | _ => none

/-- Reads an image.  All of it must be JSON data, also what is passed over. -/
def ofSyntax? (room : Nat) (s : Syntax) : Option ImageBinding := do
  let _ ← Value.ofSyntax? room s
  match s.text with
  | some path => some (.bare path)
  | none => placedOf? s

/-- An image in JSON, in the form in which it was given. -/
def toValue : ImageBinding → Value
  | .bare path => .string path
  | .placed path placement =>
    .object [("path".toList, .string path), ("placement".toList, placement.toValue)]

end ImageBinding

namespace MergeData

/-- Reads an object with members of one kind.  Of two members with one key the later one counts. -/
def mapOf? {α : Type} (read : (room : Nat) → Syntax → Option α) :
    (room : Nat) → Syntax → Option (List (Text × α))
  | 0, _ => none
  | room + 1, s => do
    let members ← s.members
    let pairs ← members.mapM fun member => (read room member.2).map fun a => (member.1, a)
    some (Keyed.ofList pairs)

/-- Reads an array with items of one kind. -/
def listOf? {α : Type} (read : Syntax → Option α) : (room : Nat) → Syntax → Option (List α)
  | 0, _ => none
  | _ + 1, s => s.items.bind fun items => items.mapM read

/-- The names of the fields in order. -/
def fields : List Text :=
  ["variables".toList, "images".toList, "segments".toList]

/-- Reads merge data.  A row inside it stands behind three more brackets: those of the row around
it, of the segments and of the list of rows. -/
def ofSyntax? (room : Nat) (s : Syntax) : Option MergeData :=
  match room with
  | 0 => none
  | room + 1 => do
    match ← s.record? fields with
    | [values, images, segments] =>
      let rows := listOf? fun s => ofSyntax? (room - 2) s
      some (.row
        (← Syntax.given [] (mapOf? Value.ofSyntax? room) values)
        (← Syntax.given [] (mapOf? ImageBinding.ofSyntax? room) images)
        (← Syntax.given [] (mapOf? rows room) segments))
    | _ => none
termination_by room
decreasing_by omega

/-- The merge data in a text. -/
def ofText (t : Text) : Except Error MergeData :=
  match (Syntax.parse? t).bind (ofSyntax? Json.nestingLimit) with
  | some data => .ok data
  | none => .error .json

/-- The merge data in a file.  Paths of images are relative to the directory of the file. -/
def load (disk : Disk) (path : Text) : Except Error MergeData :=
  match disk.readText path with
  | .error cause => .error (.io cause)
  | .ok t =>
    (ofText t).map fun data =>
      match Path.parent? path with
      | some directory => data.rebase directory
      | none => data

mutual

/-- Merge data in JSON. -/
def toValue : MergeData → Value
  | .row values images segments =>
    .object [
      ("variables".toList, .object values),
      ("images".toList, .object (images.map fun (key, image) => (key, image.toValue))),
      ("segments".toList, .object (segmentsValue segments))]

/-- The segments of a row in JSON. -/
def segmentsValue : List (Text × List MergeData) → List (Text × Value)
  | [] => []
  | (name, rows) :: rest => (name, .array (rowsValue rows)) :: segmentsValue rest

/-- The rows of a segment in JSON. -/
def rowsValue : List MergeData → List Value
  | [] => []
  | r :: rows => toValue r :: rowsValue rows

end

end MergeData

end DocumentMerge
