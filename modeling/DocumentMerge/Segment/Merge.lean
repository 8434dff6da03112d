import DocumentMerge.Region.Search
import DocumentMerge.Segment.Basic

/-!
# Merging a segment

A merge expands the fragment once with the present values.  First the segment's pictures are
copied into the package; then its own values are put into the whole text of the fragment.  In this
row the text of each child is replaced by the child's output.  A child that has none is merged
first, and every child gives its output and the files it lists away.  At the end the segment's own
markers go, and the row joins the output.

A merge that fails adds no row, but children that were reached before have given away what they
had.
-/

namespace DocumentMerge

/-- A fragment after its parent took the output and the files to list. -/
def Fragment.drain (f : Fragment) : Fragment :=
  { f with
    values := { f.values with listed := [] }
    output := []
    state := .drained }

/-- A row that is being expanded, and the files that its segment lists. -/
structure Row where
  text : Text
  listed : List Text

/-- Puts the output of a child into the row. -/
def Row.take (r : Row) (child : Fragment) : Row where
  text := Text.replaceAll child.source child.output r.text
  listed := r.listed ++ child.values.listed

/-- A fragment with the files that its row lists. -/
def Fragment.list (f : Fragment) (r : Row) : Fragment :=
  { f with values := { f.values with listed := r.listed } }

/-- A fragment when its row has been expanded. -/
def Fragment.finish (f : Fragment) (r : Row) : Fragment :=
  { f.list r with
    output := f.output ++ Region.unwrap f.name r.text
    state := .accumulating }

namespace Segment

mutual

/-- Expands the present values as one more row. -/
def merge : Call Unit
  | .node own children, session =>
    match session.embed own.values.pictures with
    | (.error cause, session) => (.error cause, .node own children, session)
    | (.ok (), session) =>
      let row : Row := ⟨own.values.bindings.apply own.source, own.values.listed⟩
      match mergeChildren row children session with
      | (.ok (), row, children, session) =>
        (.ok (), .node (own.finish row) children, session)
      | (.error cause, row, children, session) =>
        (.error cause, .node (own.list row) children, session)

/-- Puts the output of each child into the row, merging those that have none. -/
def mergeChildren (row : Row) : List Segment → Session →
    Except Error Unit × Row × List Segment × Session
  | [], session => (.ok (), row, [], session)
  | .node own inner :: rest, session =>
    match (match own.state with
      | .drained => merge (.node own inner) session
      | .accumulating => (.ok (), .node own inner, session)) with
    | (.error cause, child, session) => (.error cause, row, child :: rest, session)
    | (.ok (), .node own inner, session) =>
      let (result, row, rest, session) := mergeChildren (row.take own) rest session
      (result, row, .node own.drain inner :: rest, session)

end

end Segment

end DocumentMerge
