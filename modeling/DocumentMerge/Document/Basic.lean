import DocumentMerge.Package.Property
import DocumentMerge.Region.TableRow
import DocumentMerge.Segment.Discovery

/-!
# Documents

A document is a template that was opened: its texts, the values bound to it, and the segments that
were declared.  The template is copied first, and only the copy is written until the result is
saved.  Row markers are moved onto their rows once, when the document is opened.

A call answers with the document that it leaves behind, also when it fails.  That is the document as
it was, unless the doc comment of the call says otherwise.
-/

namespace DocumentMerge

/-- An opened template. -/
structure Document where
  /-- The path of the template. -/
  source : Text
  session : Session
  content : Text
  styles : Text
  meta_ : Text
  manifest : Text
  values : Values
  /-- The declared segments in the order of their declaration. -/
  segments : List Segment

namespace Document

/-! ## Opening and closing -/

/-- Reads a text of the package, which must be there. -/
def readPart (a : Archive) (name : Text) : Except Error Text :=
  match a.contains name with
  | .error cause => .error (.archive cause)
  | .ok false => .error (.missingEntry name)
  | .ok true => (a.text name).mapError .archive

/-- The four texts of a package. -/
structure Parts where
  content : Text
  styles : Text
  manifest : Text
  meta_ : Text

/-- Reads the four texts in the order of their fields. -/
def readParts (a : Archive) : Except Error Parts := do
  let content ← readPart a Part.content
  let styles ← readPart a Part.styles
  let manifest ← readPart a Part.manifest
  let meta_ ← readPart a Part.meta_
  .ok ⟨content, styles, manifest, meta_⟩

/-- Opens the template at a path.  When that fails no working copy is left behind. -/
def openAt (disk : Disk) (path : Text) (config : Config) : Except Error Document × Disk :=
  if !disk.isFile path then (.error (.documentNotFound path), disk)
  else
    match config.validate disk with
    | .error cause => (.error cause, disk)
    | .ok directory =>
      match WorkingCopy.create disk path directory with
      | (.error cause, disk) => (.error (.io cause), disk)
      | (.ok w, disk) =>
        match w.withOpen disk fun a => (readParts a, a) with
        | (.error cause, w, disk) => (.error cause, disk.discard w.file)
        | (.ok parts, w, disk) =>
          (.ok {
            source := path
            session := ⟨config, some w, disk⟩
            content := Region.normalizeRows parts.content
            styles := parts.styles
            meta_ := parts.meta_
            manifest := parts.manifest
            values := Values.empty
            segments := [] }, disk)

/-- The disk when the document is closed and its working copy is removed. -/
def close (d : Document) : Disk :=
  match d.session.working with
  | some w => d.session.disk.discard w.file
  | none => d.session.disk

/-! ## Binding -/

/-- The tag of a variable, which must occur in the content or in the styles. -/
def declaredTag (d : Document) (key : Text) : Except Error Text :=
  let tag := d.session.config.tag key
  if Bindings.declaredIn tag [d.content, d.styles] then .ok tag
  else .error (.variableNotFound key)

/-- Whether the tag of a variable occurs in the content. -/
def variableExists (d : Document) (key : Text) : Bool :=
  Bindings.declaredIn (d.session.config.tag key) [d.content]

/-- Binds a variable to a text. -/
def bind (d : Document) (key value : Text) (encode : Bool) : Except Error Unit × Document :=
  match d.declaredTag key with
  | .error cause => (.error cause, d)
  | .ok tag => (.ok (), { d with values := d.values.bind tag value encode })

/-- Binds a variable to a text given as bytes in a charset. -/
def bindBytes (d : Document) (key : Text) (value : List UInt8) (encode : Bool) (charset : Text) :
    Except Error Unit × Document :=
  match d.declaredTag key with
  | .error cause => (.error cause, d)
  | .ok tag =>
    match d.values.bindBytes tag value encode charset with
    | .error cause => (.error cause, d)
    | .ok values => (.ok (), { d with values })

/-- Binds a variable to an image. -/
def bindImage (d : Document) (key path : Text) (placement : Placement) :
    Except Error Unit × Document :=
  match d.declaredTag key with
  | .error cause => (.error cause, d)
  | .ok tag =>
    match d.values.bindImage d.session.disk tag path placement with
    | .error cause => (.error cause, d)
    | .ok values => (.ok (), { d with values })

/-! ## Segments -/

/-- Whether there is a region of a name in the content. -/
def segmentExists (d : Document) (name : Text) : Bool :=
  (Region.find? name d.content).isSome

/-- The declared segment of a name. -/
def segment? (d : Document) (name : Text) : Option Segment :=
  d.segments.find? fun s => s.name == name

/-- Builds the segment of a name, unless it is declared already. -/
def declareSegment (d : Document) (name : Text) : Except Error Unit × Document :=
  match d.segment? name with
  | some _ => (.ok (), d)
  | none =>
    match Region.find? name d.content with
    | none => (.error (.segmentNotFound name), d)
    | some m =>
      match Segment.ofRegion name m.value.outer with
      | .error cause => (.error cause, d)
      | .ok s => (.ok (), { d with segments := d.segments ++ [s] })

/-- Makes a call on the segment of a name, which is declared if it is not yet.  What the call
leaves behind is kept, also when it fails. -/
def onSegment {α : Type} (d : Document) (name : Text) (call : Segment.Call α) :
    Except Error α × Document :=
  match d.declareSegment name with
  | (.error cause, d) => (.error cause, d)
  | (.ok (), d) =>
    match Segment.callNamed name call d.segments d.session with
    | some (result, segments, session) => (result, { d with segments, session })
    | none => (.error (.segmentNotDeclared name), d)

/-- Takes from the first segment of a name the files that it lists. -/
def release (name : Text) : List Segment → List Segment
  | [] => []
  | .node own children :: rest =>
    if own.name = name then
      .node { own with values := { own.values with listed := [] } } children :: rest
    else .node own children :: release name rest

/-- Puts the output of a declared segment in the place of the first region of its name. -/
def mergeSegment (d : Document) (name : Text) : Except Error Unit × Document :=
  match d.segment? name with
  | none => (.error (.segmentNotDeclared name), d)
  | some s =>
    match Region.find? name d.content with
    | none => (.error (.segmentNotFound name), d)
    | some m =>
      (.ok (), { d with
        content := m.before ++ s.own.output ++ m.after
        values := { d.values with listed := d.values.listed ++ s.own.values.listed }
        segments := release name d.segments })

/-! ## Properties -/

/-- Whether there is a custom property of a name.  Metadata that cannot be read has none. -/
def propertyExists (d : Document) (key : Text) : Bool :=
  match Property.existsIn d.meta_ key with
  | .ok found => found
  | .error _ => false

/-- Sets a custom property and writes the metadata into the working copy.  The new metadata is
kept also when it cannot be written. -/
def setProperty (d : Document) (key value : Text) (encode : Bool) : Except Error Unit × Document :=
  match Property.set d.meta_ key (if encode then Markup.escape value else value) with
  | .error (.markup cause) => (.error (.markup cause), d)
  | .error .insideCharacter => (.error .brokenProperty, d)
  | .ok none => (.error (.propertyNotFound key), d)
  | .ok (some meta_) =>
    let (result, session) := d.session.withOpen (WorkingCopy.putText Part.meta_ meta_)
    (result, { d with meta_, session })

end Document

end DocumentMerge
