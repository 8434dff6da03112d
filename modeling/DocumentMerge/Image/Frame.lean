import DocumentMerge.Archive.Basic
import DocumentMerge.Error
import DocumentMerge.Image.Placement
import DocumentMerge.Markup.Escape

/-!
# Frames

An image is put into a document as a frame, an element that refers to a picture in the package by
its member name.  The picture has the file name of the image; the frame has the name up to the
first point, and a size that is given or is read from the image's header.
-/

namespace DocumentMerge

/-- An image on disk that becomes a picture of the package. -/
structure Picture where
  source : Text
  /-- The name of the file, which the picture keeps. -/
  file : Text
  deriving DecidableEq, Repr

/-- The member that holds a picture. -/
def Picture.entry (p : Picture) : Text :=
  Part.picture p.file

/-- The width and height in pixels of the image at a path. -/
def Picture.size (disk : Disk) (path : Text) : Except Error (Nat × Nat) :=
  match disk.read path with
  | .error cause => .error (.image path (.unreadable cause))
  | .ok content =>
    let data := content.toBytes.toList
    match ImageFormat.ofBytes? data with
    | none => .error (.image path .unknownFormat)
    | some format =>
      match format.size? data with
      | none => .error (.image path (.noSize format))
      | some size => .ok size

/-- A frame and the picture that it shows. -/
structure Frame where
  picture : Picture
  xml : Text
  deriving DecidableEq, Repr

namespace Frame

/-- An attribute with a value that is written as it is. -/
def valued (name value : Text) : Text :=
  ' ' :: name ++ "=\"".toList ++ value ++ ['"']

/-- The attributes that anchor a frame. -/
def anchorAttributes (p : Placement) : Text :=
  match p.anchor with
  | .asChar => valued "text:anchor-type".toList "as-char".toList
  | .page n =>
    valued "text:anchor-type".toList "page".toList
      ++ valued "text:anchor-page-number".toList (Text.ofNat n)
      ++ valued "svg:x".toList (p.unit.write p.offset.1)
      ++ valued "svg:y".toList (p.unit.write p.offset.2)

/-- The name of a frame, from that of the file. -/
def nameOf (file : Text) : Text :=
  file.takeWhile fun c => c != '.'

/-- Writes the frame of a picture with a width and a height. -/
def write (picture : Picture) (p : Placement) (size : Float × Float) : Text :=
  "<draw:frame".toList
    ++ valued "draw:style-name".toList "fr1".toList
    ++ valued "draw:name".toList (Markup.escape (nameOf picture.file))
    ++ anchorAttributes p
    ++ valued "svg:width".toList (p.unit.write size.1)
    ++ valued "svg:height".toList (p.unit.write size.2)
    ++ valued "draw:z-index".toList "3".toList
    ++ "><draw:image".toList
    ++ valued "xlink:href".toList (Markup.escape picture.entry)
    ++ valued "xlink:type".toList "simple".toList
    ++ valued "xlink:show".toList "embed".toList
    ++ valued "xlink:actuate".toList "onLoad".toList
    ++ "/></draw:frame>".toList

/-- The frame of the image at a path. -/
def build (disk : Disk) (path : Text) (p : Placement) : Except Error Frame :=
  match Path.fileName? path with
  | none => .error (.image path .noFileName)
  | some file =>
    match Picture.size disk path with
    | .error cause => .error cause
    | .ok (width, height) =>
      let picture : Picture := ⟨path, file⟩
      let size := p.size.getD (p.unit.ofPixels width, p.unit.ofPixels height)
      .ok ⟨picture, write picture p size⟩

end Frame

end DocumentMerge
