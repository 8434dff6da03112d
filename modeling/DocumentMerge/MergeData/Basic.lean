import DocumentMerge.Disk.Path
import DocumentMerge.Image.Placement

/-!
# Merge data

A whole merge is described by data: the values of variables, the images, and for every segment a
list of rows.  A row has the same three parts, so the data is a tree like the segments of the
template.  The entries of each part are kept in the order of their keys.
-/

namespace DocumentMerge

open Json (Value)

/-- An image, given by its path alone or with a placement. -/
inductive ImageBinding where
  | bare (path : Text)
  | placed (path : Text) (placement : Placement)

namespace ImageBinding

def path : ImageBinding → Text
  | .bare path => path
  | .placed path _ => path

/-- The placement of an image, in the text where none is given. -/
def placement : ImageBinding → Placement
  | .bare _ => Placement.inText
  | .placed _ placement => placement

/-- An image with its path taken as seen from a directory. -/
def rebase (directory : Text) : ImageBinding → ImageBinding
  | .bare path => .bare (Path.join directory path)
  | .placed path placement => .placed (Path.join directory path) placement

end ImageBinding

/-- The data for a document or for one row of a segment. -/
inductive MergeData where
  | row (values : List (Text × Value)) (images : List (Text × ImageBinding))
      (segments : List (Text × List MergeData))

namespace MergeData

/-- Data without entries. -/
def empty : MergeData := .row [] [] []

instance : Inhabited MergeData := ⟨empty⟩

/-- The text that is bound for a value: nothing for `null`, a string as it is, and any other value
in JSON. -/
def valueText : Value → Text
  | .null => []
  | .string t => t
  | v => v.render

mutual

/-- Data with the paths of all images taken as seen from a directory. -/
def rebase (directory : Text) : MergeData → MergeData
  | .row values images segments =>
    .row values (images.map fun (key, image) => (key, image.rebase directory))
      (rebaseSegments directory segments)

/-- The rows of several segments, rebased. -/
def rebaseSegments (directory : Text) :
    List (Text × List MergeData) → List (Text × List MergeData)
  | [] => []
  | (name, rows) :: rest => (name, rebaseRows directory rows) :: rebaseSegments directory rest

/-- The rows of one segment, rebased. -/
def rebaseRows (directory : Text) : List MergeData → List MergeData
  | [] => []
  | r :: rows => rebase directory r :: rebaseRows directory rows

end

/-- Gives a variable a text, in the place of an earlier value. -/
def setVariable (key value : Text) : MergeData → MergeData
  | .row values images segments =>
    .row (Keyed.insert key (.string value) values) images segments

end MergeData

end DocumentMerge
