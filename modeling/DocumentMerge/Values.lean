import DocumentMerge.Bindings
import DocumentMerge.Charset
import DocumentMerge.Image.Frame

/-!
# Values of a document or a segment

A document, and each of its segments, has tags bound to values.  An image is bound as the frame
that shows it; the picture has to be copied into the package and listed in its manifest, which
happens later, so it is recorded together with the binding.
-/

namespace DocumentMerge

/-- What is bound, and the pictures that go with it. -/
structure Values where
  bindings : Bindings
  /-- The pictures to copy into the package, one for each source. -/
  pictures : List Picture
  /-- The files to list in the manifest, one for each image that was bound. -/
  listed : List Text
  deriving DecidableEq

namespace Values

/-- Nothing is bound. -/
def empty : Values := ⟨Bindings.empty, [], []⟩

instance : Inhabited Values := ⟨empty⟩

/-- Binds a tag to a value. -/
def bind (v : Values) (tag value : Text) (encode : Bool) : Values :=
  { v with bindings := v.bindings.bind tag value encode }

/-- Adds a picture, unless one of the same source is there. -/
def addPicture (p : Picture) (pictures : List Picture) : List Picture :=
  if pictures.any fun q => Path.same q.source p.source then pictures else pictures ++ [p]

/-- Binds a tag to a frame. -/
def bindFrame (v : Values) (tag : Text) (f : Frame) : Values where
  bindings := v.bindings.bind tag f.xml false
  pictures := addPicture f.picture v.pictures
  listed := v.listed ++ [f.picture.file]

/-- Binds a tag to a value given as bytes in a charset. -/
def bindBytes (v : Values) (tag : Text) (value : List UInt8) (encode : Bool) (label : Text) :
    Except Error Values :=
  match Charset.ofLabel? label with
  | some charset => .ok (v.bind tag (charset.decode value) encode)
  | none => .error (.unknownCharset label)

/-- Binds a tag to the frame of an image on disk. -/
def bindImage (v : Values) (disk : Disk) (tag path : Text) (placement : Placement) :
    Except Error Values :=
  (Frame.build disk path placement).map (v.bindFrame tag)

end Values

end DocumentMerge
