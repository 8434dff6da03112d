import DocumentMerge.Region.Search
import DocumentMerge.Segment.Basic

/-!
# Finding the segments of a text

The children of a segment are the outermost regions of its text.  The segment's own markers are in
the text as well, and so are those of any other region that has the segment's name: such a region
is looked through instead of becoming a child.  Of several regions with one name the first is
taken.  Children are looked through in their turn, down to a fixed depth.
-/

namespace DocumentMerge.Segment

/-- How many levels of children a segment may have. -/
def depthLimit : Nat := 64

/-- The regions that are directly inside a segment, in order.  Regions with the segment's own name
are replaced by those inside them. -/
def innerRegions (scope xml : Text) : List Region :=
  (Region.all xml).attach.flatMap fun ⟨l, _⟩ =>
    if l.region.name = scope then innerRegions scope l.region.inner else [l.region]
termination_by xml.length
decreasing_by exact Region.length_inner_lt ‹_›

/-- Keeps the first region of every name. -/
def firstOfName : List Region → List Region
  | [] => []
  | r :: rs => r :: (firstOfName rs).filter fun s => s.name != r.name

/-- The regions that become the children of a segment. -/
def childRegions (scope xml : Text) : List Region :=
  firstOfName (innerRegions scope xml)

/-- Builds the segment of a region; `room` more levels of children are allowed. -/
def parse (name source : Text) : (room : Nat) → Except Error Segment
  | 0 =>
    match childRegions name source with
    | [] => .ok (.node (Fragment.ofRegion name source) [])
    | r :: _ => .error (.nestingTooDeep r.name depthLimit)
  | room + 1 =>
    ((childRegions name source).mapM fun r => parse r.name r.outer room).map
      (.node (Fragment.ofRegion name source))

/-- Builds a segment with all its descendants. -/
def ofRegion (name source : Text) : Except Error Segment :=
  parse name source depthLimit

end DocumentMerge.Segment
