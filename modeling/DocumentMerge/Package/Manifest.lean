import DocumentMerge.Archive.Basic
import DocumentMerge.Markup.Escape
import DocumentMerge.Markup.Event
import DocumentMerge.Text.Keyed

/-!
# The manifest of a package

Every picture that is copied into a package is listed in its manifest by a file entry.  What is
listed already is found by reading the manifest as markup; new entries are put in by text search,
so that all else stays as it was: behind the entry of the metadata, or else before the last root
end tag, or else at the end.
-/

namespace DocumentMerge.Manifest

open Markup (Reader Event)

/-- The element that lists a member. -/
def entryElement : Text := "manifest:file-entry".toList

/-- The attribute with the path of a member. -/
def pathAttribute : Text := "manifest:full-path".toList

/-- The entry behind which new ones are put. -/
def metaEntry : Text :=
  "<manifest:file-entry manifest:full-path=\"meta.xml\" manifest:media-type=\"text/xml\"/>".toList

/-- The root end tag. -/
def rootEnd : Text := "</manifest:manifest>".toList

/-- The paths that a tag lists.  Faulty attributes are passed over. -/
def tagPaths (tag : Text) : Except Markup.Error (List Text) :=
  if Markup.tagName tag = entryElement then
    ((Markup.attributes tag).filterMap fun a =>
      match a with
      | .ok ⟨key, value⟩ => if key = pathAttribute then some value else none
      | .error _ => none).mapM Markup.unescape
  else .ok []

/-- The paths that an event lists. -/
def eventPaths : Event → Except Markup.Error (List Text)
  | .start tag | .empty tag => tagPaths tag
  | .close | .other => .ok []

/-- Reads the listed paths, behind those that were found before, last one first. -/
def pathsFrom (found : List Text) (r : Reader) : Except Markup.Error (List Text) :=
  match _read : r.step? with
  | .error cause => .error cause
  | .ok none => .ok found.reverse
  | .ok (some s) =>
    match eventPaths s.event with
    | .error cause => .error cause
    | .ok paths => pathsFrom (paths.reverse ++ found) s.next
termination_by r.rest.length
decreasing_by exact Reader.length_step? _read

/-- The paths of all entries in the order of the manifest. -/
def paths (manifest : Text) : Except Markup.Error (List Text) :=
  pathsFrom [] (Reader.ofText manifest)

/-- The paths of all entries in ascending order, each once. -/
def pathSet (manifest : Text) : Except Markup.Error (List Text) :=
  (paths manifest).map fun ps => (Keyed.ofList (ps.map fun p => (p, ()))).map Prod.fst

/-- The media type of a picture, from the ending of its file name. -/
def mediaType (file : Text) : Text :=
  let ending := ((Text.splitLast? (· == '.') file).map Prod.snd).getD []
  "image/".toList ++ ending

/-- The line that lists a picture. -/
def pictureLine (file : Text) : Text :=
  "<manifest:file-entry manifest:media-type=\"".toList ++ Markup.escape (mediaType file)
    ++ "\" manifest:full-path=\"".toList ++ Markup.escape (Part.picture file) ++ "\"/>\n".toList

/-- The files whose pictures are not known yet, each once. -/
def unlisted (known : List Text) : List Text → List Text
  | [] => []
  | file :: files =>
    if known.contains (Part.picture file) then unlisted known files
    else file :: unlisted (Part.picture file :: known) files

/-- Puts lines into a manifest. -/
def insertLines (manifest lines : Text) : Text :=
  match Text.cutAt? metaEntry manifest with
  | some (before, after) => before ++ metaEntry ++ '\n' :: lines ++ after
  | none =>
    match Text.cutAtLast? rootEnd manifest with
    | some (before, after) => before ++ lines ++ rootEnd ++ after
    | none => manifest ++ lines

/-- Lists the pictures of files that are not listed yet. -/
def addPictures (manifest : Text) (files : List Text) : Except Markup.Error Text :=
  match paths manifest with
  | .error cause => .error cause
  | .ok known =>
    match unlisted known files with
    | [] => .ok manifest
    | file :: more => .ok (insertLines manifest ((file :: more).flatMap pictureLine))

end DocumentMerge.Manifest
