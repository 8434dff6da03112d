import DocumentMerge.Document.Basic
import DocumentMerge.MergeData.Basic
import DocumentMerge.Segment.Merge

/-!
# Filling a document with data

The values of a row are bound first, its images next, then the rows of each child segment are
merged, and the segment itself comes last.  A document is filled likewise, and each of its
segments is put into the content as soon as all its rows are merged.

Everything stops at the first call that fails, and what was done before stays done.
-/

namespace DocumentMerge

open Segment (andThen each onChild)

namespace MergeData

mutual

/-- Merges one row into a segment. -/
def mergeRow : MergeData → Segment.Call Unit
  | .row values images segments =>
    andThen (each (fun (key, value) => Segment.bind key (valueText value) true) values)
      (andThen (each (fun (key, image) => Segment.bindImage key image.path image.placement) images)
        (andThen (mergeChildren segments) Segment.merge))

/-- Merges the rows of several children of a segment. -/
def mergeChildren : List (Text × List MergeData) → Segment.Call Unit
  | [] => Segment.skip
  | (name, rows) :: rest => andThen (onChild name (mergeRows rows)) (mergeChildren rest)

/-- Merges rows into a segment. -/
def mergeRows : List MergeData → Segment.Call Unit
  | [] => Segment.skip
  | r :: rows => andThen (mergeRow r) (mergeRows rows)

end

end MergeData

namespace Document

/-- Makes a call for every item of a list, up to the first that fails. -/
def forEach {ι : Type} (call : Document → ι → Except Error Unit × Document) :
    (d : Document) → List ι → Except Error Unit × Document
  | d, [] => (.ok (), d)
  | d, i :: is =>
    match call d i with
    | (.ok (), d) => forEach call d is
    | (.error cause, d) => (.error cause, d)

/-- Merges the rows of a segment and puts them into the content. -/
def fillSegment (d : Document) (name : Text) (rows : List MergeData) :
    Except Error Unit × Document :=
  match d.onSegment name (MergeData.mergeRows rows) with
  | (.ok (), d) => d.mergeSegment name
  | (.error cause, d) => (.error cause, d)

/-- Fills a document with data. -/
def fill (d : Document) : MergeData → Except Error Unit × Document
  | .row values images segments =>
    match d.forEach (fun d (key, value) => d.bind key (MergeData.valueText value) true) values with
    | (.error cause, d) => (.error cause, d)
    | (.ok (), d) =>
      match d.forEach (fun d (key, image) => d.bindImage key image.path image.placement) images with
      | (.error cause, d) => (.error cause, d)
      | (.ok (), d) => d.forEach (fun d (name, rows) => d.fillSegment name rows) segments

end Document

end DocumentMerge
