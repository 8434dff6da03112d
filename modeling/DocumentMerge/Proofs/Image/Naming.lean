import DocumentMerge.Proofs.Document.Running
import DocumentMerge.Proofs.Image.Frame
import DocumentMerge.Proofs.Markup.Elements
import DocumentMerge.Proofs.Markup.Tags
import DocumentMerge.Proofs.Package.Entries

/-!
# The names of a picture

A picture is named three times: by the member of the package that holds it, by the frame that shows it,
and by the entry of the manifest that lists it.  In the frame and in the manifest special characters are
written as entities, and whoever reads the two reads the name of the member again.

But a frame is stored as the value of a tag, and so its line feeds become line breaks, the one in the
name of a file too.

* `Frame.write_eq`: a frame is written as a start tag, an empty tag and an end tag.
* `Frame.isFrame_of_build`: what is stored for a frame is one frame element with one image in it, and
  the reference of this.
* `Values.Recorded`: all that is stored when an image is bound.
* `picture_names_agree_iff`: the three names are the same if the name of the file has no line feed, and only
  then.
-/

namespace DocumentMerge

open Markup (Attribute Reader Written)

namespace Markup

/-! ## Line breaks in tags -/

theorem lineFeed_notMem_of_isNameChar {name : Text} (h : name.all isNameChar = true) : '\n' ∉ name := by
  intro mem
  exact absurd (List.all_eq_true.1 h _ mem) (by decide)

/-- Line feeds in a tag become line breaks in the values of its attributes. -/
theorem breakLines_tagText {name : Text} (named : name.all isNameChar = true)
    {attributes : List Attribute} (h : Writable attributes) :
    breakLines (tagText name attributes)
      = tagText name (attributes.map fun a => ⟨a.key, breakLines a.value⟩) := by
  have each := h.2
  rw [tagText, tagText, breakLines_append, breakLines_of_free (lineFeed_notMem_of_isNameChar named)]
  congr 1
  clear h
  induction attributes with
  | nil => rfl
  | cons a attributes ih =>
    obtain ⟨-, key, -⟩ := each a List.mem_cons_self
    have key := breakLines_of_free (lineFeed_notMem_of_isNameChar key)
    have text : attributeText a.key a.value = [' '] ++ a.key ++ ['=', '"'] ++ a.value ++ ['"'] := by
      simp [attributeText]
    rw [List.flatMap_cons, breakLines_append, ih fun b mem => each b (List.mem_cons_of_mem a mem),
      List.map_cons, List.flatMap_cons, text]
    simp only [breakLines_append, key]
    rw [breakLines_of_free (by decide : '\n' ∉ [' ']), breakLines_of_free (by decide : '\n' ∉ ['=', '"']),
      breakLines_of_free (by decide : '\n' ∉ ['"'])]
    simp [attributeText]

/-- Attributes with line breaks are written so that they are read back. -/
theorem Writable.breakLines {attributes : List Attribute} (h : Writable attributes) :
    Writable (attributes.map fun a => ⟨a.key, Markup.breakLines a.value⟩) := by
  refine ⟨by simpa [Function.comp_def] using h.1, fun b mem => ?_⟩
  obtain ⟨a, there, rfl⟩ := List.mem_map.1 mem
  obtain ⟨nonempty, name, free⟩ := h.2 a there
  refine ⟨nonempty, name, ?_⟩
  rw [Markup.breakLines, List.mem_flatMap]
  rintro ⟨c, inside, quote⟩
  split at quote
  · exact absurd quote (by decide)
  · exact free (List.mem_singleton.1 quote ▸ inside)

/-- A tag with attributes is the text of a start tag. -/
theorem written_start_tagText {name : Text} (opens : Opens name) (nonempty : name ≠ [])
    (named : name.all isNameChar = true) {attributes : List Attribute} (h : Writable attributes)
    (some_ : attributes ≠ []) :
    Written (.start (tagText name attributes)) ('<' :: tagText name attributes ++ ['>']) := by
  have text : TagText (tagText name attributes) := by
    intro y
    rw [tagEnd?_tagText named h]
    generalize tagText name attributes = tag
    have closed : tagEnd? none tag.reverse ('>' :: y) = some (tag.reverse.reverse, y) := rfl
    rw [closed, List.reverse_reverse]
  refine text.written_start ?_ ?_
  · obtain ⟨c, name, rfl⟩ := List.exists_cons_of_ne_nil nonempty
    exact opens
  · rcases List.eq_nil_or_concat attributes with none | ⟨front, a, rfl⟩
    · exact absurd none some_
    · have last : (attributeText a.key a.value).getLast? = some '"' := by
        rw [attributeText]
        exact List.getLast?_concat
      rw [tagText, List.concat_eq_append, List.flatMap_append, List.flatMap_cons, List.flatMap_nil,
        List.append_nil, List.getLast?_append, List.getLast?_append, last]
      simp

end Markup

/-! ## Lengths -/

theorem quote_notMem_ofNat (n : Nat) : '"' ∉ Text.ofNat n := by
  rw [Text.ofNat, Nat.toList_repr]
  exact fun mem => absurd (Nat.isDigit_of_mem_toDigits (by decide) (by decide) mem) (by decide)

theorem quote_notMem_fixed (places : Nat) (x : Float) : '"' ∉ Decimal.fixed places x := by
  have signed (negative : Bool) {t : Text} (free : '"' ∉ t) : '"' ∉ Decimal.signed negative t := by
    cases negative with
    | false => exact free
    | true => exact List.not_mem_cons_of_ne_of_not_mem (by decide) free
  have padded (width n : Nat) : '"' ∉ Decimal.padded width n := by
    rw [Decimal.padded, List.mem_append, not_or]
    exact ⟨fun mem => absurd (List.eq_of_mem_replicate mem) (by decide), quote_notMem_ofNat n⟩
  have pointed (n : Nat) : '"' ∉ Decimal.pointed places n := by
    rw [Decimal.pointed.eq_def]
    split
    · exact quote_notMem_ofNat n
    · rw [List.mem_append, List.mem_cons, not_or, not_or]
      exact ⟨quote_notMem_ofNat _, by decide, padded _ _⟩
  rw [Decimal.fixed]
  split
  · exact signed _ (pointed _)
  · exact signed _ (by decide)
  · decide

/-- No quote stands in a length. -/
theorem quote_notMem_length (u : LengthUnit) (x : Float) : '"' ∉ u.write x := by
  have fewer {drop : Char → Bool} {t : Text} (free : '"' ∉ t) : '"' ∉ Text.dropEndWhile drop t :=
    fun mem => free (List.mem_reverse.1 ((List.dropWhile_sublist drop).subset (List.mem_reverse.1 mem)))
  have trimmed : '"' ∉ LengthUnit.trimmed x := by
    rw [LengthUnit.trimmed]
    split
    · decide
    · exact fewer (fewer (quote_notMem_fixed 7 x))
  rw [LengthUnit.write, List.mem_append, not_or]
  cases u with
  | centimeter => exact ⟨trimmed, by decide⟩
  | millimeter => exact ⟨quote_notMem_fixed 2 _, by decide⟩
  | pixel => exact ⟨quote_notMem_fixed 2 _, by decide⟩

namespace Frame

/-! ## Frames as elements -/

/-- The attributes that anchor a frame. -/
def anchorList (p : Placement) : List Attribute :=
  match p.anchor with
  | .asChar => [⟨"text:anchor-type".toList, "as-char".toList⟩]
  | .page n =>
    [⟨"text:anchor-type".toList, "page".toList⟩, ⟨"text:anchor-page-number".toList, Text.ofNat n⟩,
      ⟨"svg:x".toList, p.unit.write p.offset.1⟩, ⟨"svg:y".toList, p.unit.write p.offset.2⟩]

/-- The attributes of a frame. -/
def frameList (picture : Picture) (p : Placement) (size : Float × Float) : List Attribute :=
  ⟨"draw:style-name".toList, "fr1".toList⟩
    :: ⟨"draw:name".toList, Markup.escape (nameOf picture.file)⟩ :: anchorList p
    ++ [⟨"svg:width".toList, p.unit.write size.1⟩, ⟨"svg:height".toList, p.unit.write size.2⟩,
      ⟨"draw:z-index".toList, "3".toList⟩]

/-- The attributes of an image. -/
def imageList (href : Text) : List Attribute :=
  [⟨"xlink:href".toList, href⟩, ⟨"xlink:type".toList, "simple".toList⟩,
    ⟨"xlink:show".toList, "embed".toList⟩, ⟨"xlink:actuate".toList, "onLoad".toList⟩]

theorem valued_eq (name value : Text) : valued name value = Markup.attributeText name value :=
  congrArg (· ++ ['"']) (List.append_assoc (' ' :: name) ['=', '"'] value)

theorem anchorAttributes_eq (p : Placement) :
    anchorAttributes p = (anchorList p).flatMap fun a => Markup.attributeText a.key a.value := by
  rw [anchorAttributes, anchorList]
  cases p.anchor with
  | asChar => simp only [valued_eq, List.flatMap_cons, List.flatMap_nil, List.append_nil]
  | page n =>
    simp only [valued_eq, List.flatMap_cons, List.flatMap_nil, List.append_nil, List.append_assoc]

/-- A frame is a start tag, an empty tag and an end tag. -/
theorem write_eq (picture : Picture) (p : Placement) (size : Float × Float) :
    write picture p size = '<' :: Markup.tagText "draw:frame".toList (frameList picture p size) ++ ['>']
      ++ ('<' :: (Markup.tagText "draw:image".toList (imageList (Markup.escape picture.entry))
        ++ "/>".toList)) ++ "</draw:frame>".toList := by
  have regroup {front middle back frame image slash close : Text} (opens : front = '<' :: frame)
      (shows : middle = '>' :: '<' :: image) (closes : back = slash ++ close)
      (a b anchor c d e f g h i : Text) :
      front ++ a ++ b ++ anchor ++ c ++ d ++ e ++ middle ++ f ++ g ++ h ++ i ++ back
        = '<' :: (frame ++ (a ++ (b ++ anchor) ++ (c ++ (d ++ (e ++ []))))) ++ ['>']
          ++ ('<' :: (image ++ (f ++ (g ++ (h ++ (i ++ [])))) ++ slash)) ++ close := by
    rw [opens, shows, closes]
    simp
  unfold write Markup.tagText frameList imageList
  simp only [valued_eq, anchorAttributes_eq, List.flatMap_cons, List.flatMap_append, List.flatMap_nil]
  exact regroup (by decide) (by decide) (by decide) _ _ _ _ _ _ _ _ _ _

theorem writable_frameList (picture : Picture) (p : Placement) (size : Float × Float) :
    Markup.Writable (frameList picture p size) := by
  have lengths := quote_notMem_length p.unit
  have escaped := Markup.notMem_escape (d := '"') (by decide) (nameOf picture.file)
  rw [frameList, anchorList]
  cases p.anchor with
  | asChar =>
    refine ⟨?_, ?_⟩
    · show ["draw:style-name".toList, "draw:name".toList, "text:anchor-type".toList,
        "svg:width".toList, "svg:height".toList, "draw:z-index".toList].Nodup
      decide
    · simp only [List.cons_append, List.nil_append, List.forall_mem_cons, List.not_mem_nil,
        false_imp_iff, implies_true, and_true]
      exact ⟨by decide, ⟨by decide, by decide, escaped⟩, by decide, ⟨by decide, by decide, lengths _⟩,
        ⟨by decide, by decide, lengths _⟩, by decide⟩
  | page n =>
    refine ⟨?_, ?_⟩
    · show ["draw:style-name".toList, "draw:name".toList, "text:anchor-type".toList,
        "text:anchor-page-number".toList, "svg:x".toList, "svg:y".toList, "svg:width".toList,
        "svg:height".toList, "draw:z-index".toList].Nodup
      decide
    · simp only [List.cons_append, List.nil_append, List.forall_mem_cons, List.not_mem_nil,
        false_imp_iff, implies_true, and_true]
      exact ⟨by decide, ⟨by decide, by decide, escaped⟩, by decide,
        ⟨by decide, by decide, quote_notMem_ofNat n⟩, ⟨by decide, by decide, lengths _⟩,
        ⟨by decide, by decide, lengths _⟩, ⟨by decide, by decide, lengths _⟩,
        ⟨by decide, by decide, lengths _⟩, by decide⟩

theorem writable_imageList (entry : Text) : Markup.Writable (imageList (Markup.escape entry)) := by
  refine ⟨?_, ?_⟩
  · show ["xlink:href".toList, "xlink:type".toList, "xlink:show".toList, "xlink:actuate".toList].Nodup
    decide
  · simp only [imageList, List.forall_mem_cons, List.not_mem_nil, false_imp_iff, implies_true, and_true]
    exact ⟨⟨by decide, by decide, Markup.notMem_escape (by decide) entry⟩, by decide, by decide,
      by decide⟩

/-- A text is one frame element with one image in it.  All attributes of the two can be read, and one of
the image's is its reference. -/
def IsFrame (xml href : Text) : Prop :=
  ∃ (tag first rest image : Text) (attributes attributes' : List Attribute),
    Markup.Element ⟨[], xml⟩ tag first rest [image] ⟨[], []⟩ ∧
    Markup.tagName tag = "draw:frame".toList ∧ Markup.attributes tag = attributes.map .ok ∧
    Markup.tagName image = "draw:image".toList ∧ Markup.attributes image = attributes'.map .ok ∧
    ∀ value, ⟨"xlink:href".toList, value⟩ ∈ attributes' ↔ value = href

/-- An image in a frame is an element. -/
theorem isFrame_of_attributes {attributes attributes' : List Attribute} {href : Text}
    (h : Markup.Writable attributes) (nonempty : attributes ≠ []) (h' : Markup.Writable attributes')
    (refers : ∀ value, ⟨"xlink:href".toList, value⟩ ∈ attributes' ↔ value = href) :
    IsFrame ('<' :: Markup.tagText "draw:frame".toList attributes ++ ['>']
      ++ ('<' :: (Markup.tagText "draw:image".toList attributes' ++ "/>".toList))
      ++ "</draw:frame>".toList) href := by
  have frameOpens : Markup.Opens "draw:frame".toList := fun c first => by cases first; decide
  have imageOpens : Markup.Opens "draw:image".toList := fun c first => by cases first; decide
  have frameChars : "draw:frame".toList.all Markup.isNameChar = true := by decide
  have imageChars : "draw:image".toList.all Markup.isNameChar = true := by decide
  have frame := Markup.written_start_tagText frameOpens (by decide) frameChars h nonempty
  have image := Markup.written_tagText (by decide) imageOpens imageChars h'
  have close : Written (.close "draw:frame".toList) "</draw:frame>".toList := .close fun y => rfl
  have named := Markup.tagName_tagText frameChars attributes
  have closes : Reader.meaning [Markup.tagName (Markup.tagText "draw:frame".toList attributes)]
      (.close "draw:frame".toList) = .ok (.close, []) := by
    rw [named]
    rfl
  have start := Reader.step?_of_written frame (rfl : Reader.meaning [] (.start _) = .ok _)
    (('<' :: (Markup.tagText "draw:image".toList attributes' ++ "/>".toList))
      ++ ("</draw:frame>".toList ++ []))
  have shown := Reader.step?_of_written image
    (rfl : Reader.meaning [Markup.tagName (Markup.tagText "draw:frame".toList attributes)] (.empty _)
      = .ok _)
    ("</draw:frame>".toList ++ [])
  have ends := Reader.step?_of_written close closes []
  have element := Markup.Element.closed start rfl (.empty shown rfl (.nil _)) ends rfl
  have text := List.append_assoc ('<' :: Markup.tagText "draw:frame".toList attributes ++ ['>'])
    ('<' :: (Markup.tagText "draw:image".toList attributes' ++ "/>".toList)) "</draw:frame>".toList
  rw [List.append_nil] at element
  rw [IsFrame, text]
  exact ⟨_, _, _, _, attributes, attributes', element, named, Markup.attributes_tagText frameChars h,
    Markup.tagName_tagText imageChars attributes', Markup.attributes_tagText imageChars h', refers⟩

/-- What is stored for a frame is one frame element.  Its reference is the name of the picture's member,
with entities and line breaks. -/
theorem isFrame_write (picture : Picture) (p : Placement) (size : Float × Float) :
    IsFrame (Markup.encodeValue false (write picture p size))
      (Markup.encodeValue true picture.entry) := by
  have plain : "draw:frame".toList.all Markup.isNameChar = true := by decide
  have plain' : "draw:image".toList.all Markup.isNameChar = true := by decide
  have frame := writable_frameList picture p size
  have image := writable_imageList picture.entry
  have refers : ∀ value, ⟨"xlink:href".toList, value⟩ ∈ ((imageList (Markup.escape picture.entry)).map
      fun a => (⟨a.key, Markup.breakLines a.value⟩ : Attribute)) ↔
        value = Markup.encodeValue true picture.entry := fun value => by
    rw [Markup.encodeValue, if_pos rfl]
    simp [imageList]
  have shown := isFrame_of_attributes frame.breakLines (by rw [frameList]; simp) image.breakLines refers
  have opened (t : Text) : Markup.breakLines ('<' :: t) = '<' :: Markup.breakLines t := rfl
  rw [← Markup.breakLines_tagText plain frame, ← Markup.breakLines_tagText plain' image] at shown
  rw [Markup.encodeValue, if_neg (by decide), write_eq, Markup.breakLines_append,
    Markup.breakLines_append, Markup.breakLines_append, opened, opened, Markup.breakLines_append]
  exact shown

end Frame

/-! ## Entries of the manifest -/

/-- A picture that is not listed yet gets an entry that lists its member. -/
theorem Manifest.exists_entry {manifest : Text} {known files : List Text} {file : Text}
    (read : paths manifest = .ok known) (mem : file ∈ files) (new : Part.picture file ∉ known) :
    ∃ front tag back,
      addPictures manifest files = .ok (front ++ ('<' :: (tag ++ "/>".toList)) ++ back) ∧
      Written (.empty tag) ('<' :: (tag ++ "/>".toList)) ∧ tagPaths tag = .ok [Part.picture file] := by
  have there : file ∈ unlisted known files := mem_unlisted.2 ⟨mem, new⟩
  obtain ⟨before, after, split⟩ := List.append_of_mem there
  refine ⟨(slot manifest).before ++ ((slot manifest).gap ++ before.flatMap pictureLine),
    Markup.tagText entryElement (pictureAttributes file),
    ['\n'] ++ after.flatMap pictureLine ++ (slot manifest).after, ?_,
    written_entry (writable_pictureAttributes file), tagPaths_picture file⟩
  rw [addPictures_eq read, listing_of_ne_nil (List.ne_nil_of_mem there), insertLines_eq, split,
    List.flatMap_append, List.flatMap_cons, pictureLine_eq]
  simp only [List.append_assoc]

namespace Values

/-! ## What is stored -/

/-- Every picture has the name of its file. -/
def Named (v : Values) : Prop :=
  ∀ q ∈ v.pictures, Path.fileName? q.source = some q.file

/-- What is stored when the image at a path was bound to a tag: a frame, whose image has a reference, a
picture of the image, which will be the member of the file name, and the file to list. -/
structure Recorded (v : Values) (tag path file href : Text) : Prop where
  named : Path.fileName? path = some file
  frame : ∃ xml, v.bindings.get? tag = some xml ∧ Frame.IsFrame xml href
  embedded : ∃ q ∈ v.pictures, Path.same q.source path = true ∧ q.entry = Part.picture file
  listed : file ∈ v.listed

/-- A picture that has the name of its file can be added. -/
theorem named_addPicture {v w : Values} (h : v.Named) {p : Picture}
    (named : Path.fileName? p.source = some p.file)
    (added : w.pictures = addPicture p v.pictures) : w.Named := by
  intro q mem
  rw [added] at mem
  rcases List.mem_append.1 (addPicture_subset p v.pictures mem) with old | new
  · exact h q old
  · rw [List.mem_singleton.1 new, named]

/-- An image that is bound is stored under its tag. -/
theorem recorded_of_bindImage {v w : Values} {disk : Disk} {tag path : Text} {placement : Placement}
    (named : v.Named) (h : v.bindImage disk tag path placement = .ok w) :
    w.Named ∧ ∃ file, w.Recorded tag path file (Markup.encodeValue true (Part.picture file)) := by
  rw [bindImage] at h
  cases built : Frame.build disk path placement with
  | error cause => rw [built] at h; cases h
  | ok frame =>
    rw [built] at h
    cases h
    obtain ⟨file, content, name, -, picture, size, xml⟩ := Frame.exists_of_build built
    have source : Path.fileName? frame.picture.source = some frame.picture.file := by
      rw [picture, name]
    have kept : (v.bindFrame tag frame).Named := named_addPicture named source rfl
    obtain ⟨q, mem, same⟩ := exists_same_addPicture frame.picture v.pictures
    refine ⟨kept, file, name, ⟨Markup.encodeValue false frame.xml, ?_, ?_⟩, ⟨q, mem, ?_, ?_⟩, ?_⟩
    · rw [bindFrame, Bindings.bind, Bindings.get?_put, if_pos rfl]
    · rw [xml]
      exact Frame.isFrame_write ⟨path, file⟩ placement size
    · rwa [picture] at same
    · -- another path can lead to the file, but its last part is the same
      have names := Path.fileName?_eq_of_same same
      rw [kept q mem, source, picture, Option.some.injEq] at names
      rw [Picture.entry, names]
    · rw [bindFrame, picture]
      simp

/-- The reference is the name of the member if this has no line feed. -/
theorem unescape_eq_iff (file : Text) :
    Markup.unescape (Markup.encodeValue true (Part.picture file)) = .ok (Part.picture file) ↔
      '\n' ∉ file := by
  have directory : '\n' ∉ Part.picturesDirectory := by decide
  rw [Markup.unescape_encodeValue, Except.ok.injEq, Markup.breakLines_eq_self_iff, Part.picture,
    List.mem_append, or_iff_right directory]

end Values

/-- An image that is bound at a document is stored under the tag of its variable. -/
theorem Document.recorded_of_bindImage {d e : Document} {key path : Text} {placement : Placement}
    (named : d.values.Named) (h : d.bindImage key path placement = (.ok (), e)) :
    e.values.Named ∧ ∃ file, e.values.Recorded (d.session.config.tag key) path file
      (Markup.encodeValue true (Part.picture file)) := by
  obtain ⟨tag, -, values, declared, -, stored, -, -, rfl⟩ := bindImage_eq_ok h
  obtain rfl : tag = d.session.config.tag key := by
    rw [declaredTag] at declared
    split at declared <;> cases declared
    rfl
  exact Values.recorded_of_bindImage named stored

/-- An image that is bound on a segment is stored under the tag of its variable. -/
theorem Segment.recorded_of_bindImage {s t : Segment} {σ τ : Session} {key path : Text}
    {placement : Placement} (named : s.own.values.Named)
    (h : bindImage key path placement s σ = (.ok (), t, τ)) :
    t.own.values.Named ∧ ∃ file, t.own.values.Recorded (σ.config.tag key) path file
      (Markup.encodeValue true (Part.picture file)) := by
  obtain ⟨own, children⟩ := s
  rw [bindImage] at h
  obtain ⟨-, ⟨values, stored, -, rfl⟩ | ⟨cause, -, failed, -⟩⟩ := edit_cases h
  · cases declared : declaredTag own σ.config key with
    | error cause => rw [declared] at stored; cases stored
    | ok tag =>
      rw [declared] at stored
      obtain rfl : tag = σ.config.tag key := by
        rw [declaredTag] at declared
        split at declared <;> cases declared
        rfl
      exact Values.recorded_of_bindImage named stored
  · cases failed

/-- **The names of a picture.**  An image is bound at a document or on a segment.  Then one frame is
stored under the tag, the picture of the image will be the member with the name of its file, and an update
of the manifest for this file writes an entry that lists this member, if there is none.  The reference of
the frame is the name of the member too, exactly if the name of the file has no line feed. -/
theorem picture_names_agree_iff (key path : Text) (placement : Placement) :
    (∀ d e : Document, d.values.Named → d.bindImage key path placement = (.ok (), e) →
      e.values.Named ∧ ∃ file href, e.values.Recorded (d.session.config.tag key) path file href ∧
        (Markup.unescape href = .ok (Part.picture file) ↔ '\n' ∉ file)) ∧
    (∀ (s t : Segment) (σ τ : Session), s.own.values.Named →
      Segment.bindImage key path placement s σ = (.ok (), t, τ) →
      t.own.values.Named ∧ ∃ file href, t.own.values.Recorded (σ.config.tag key) path file href ∧
        (Markup.unescape href = .ok (Part.picture file) ↔ '\n' ∉ file)) ∧
    ∀ manifest known files file, Manifest.paths manifest = .ok known → file ∈ files →
      Part.picture file ∉ known → ∃ front tag back,
        Manifest.addPictures manifest files
          = .ok (front ++ ('<' :: (tag ++ "/>".toList)) ++ back) ∧
        Written (.empty tag) ('<' :: (tag ++ "/>".toList)) ∧
        Manifest.tagPaths tag = .ok [Part.picture file] := by
  refine ⟨fun d e named bound => ?_, fun s t σ τ named bound => ?_, fun manifest known files file =>
    Manifest.exists_entry⟩
  · obtain ⟨kept, file, recorded⟩ := Document.recorded_of_bindImage named bound
    exact ⟨kept, file, _, recorded, Values.unescape_eq_iff file⟩
  · obtain ⟨kept, file, recorded⟩ := Segment.recorded_of_bindImage named bound
    exact ⟨kept, file, _, recorded, Values.unescape_eq_iff file⟩

/-! ### File names with and without a line feed -/

/-- A disk with an image of one pixel in the current directory. -/
def imageDisk (file : Text) : Disk :=
  { Disk.empty with nodes :=
    (Disk.empty.current ++ [file],
      .file (.bytes ⟨#[0x47, 0x49, 0x46, 0x38, 0x39, 0x61, 1, 0, 1, 0]⟩)) :: Disk.empty.nodes }

/-- A document with one tag, and a disk with an image whose file name has a line feed. -/
def feedDocument : Document where
  source := "t".toList
  session := Session.alone (imageDisk "a\nb".toList)
  content := "\x7bp\x7d".toList
  styles := []
  meta_ := []
  manifest := []
  values := Values.empty
  segments := []

theorem exists_of_feedDocument : ∃ e,
    feedDocument.bindImage "p".toList "a\nb".toList Placement.inText = (.ok (), e) := by
  have done : (feedDocument.bindImage "p".toList "a\nb".toList Placement.inText).1.toOption
      = some () := by decide +kernel
  refine ⟨_, Prod.ext ?_ rfl⟩
  cases answer : (feedDocument.bindImage "p".toList "a\nb".toList Placement.inText).1 with
  | error cause => rw [answer] at done; cases done
  | ok u => rfl

/-- The names agree for an image that is bound on a segment, and not for one that is bound at a document
and whose file name has a line feed. -/
theorem picture_names_agree_iff_gif :
    let s : Segment := .node (Fragment.ofRegion "s".toList "\x7bp\x7d".toList) []
    (∃ t τ href, Segment.bindImage "p".toList "b.gif".toList Placement.inText s
        (Session.alone (imageDisk "b.gif".toList)) = (.ok (), t, τ) ∧
      t.own.values.Recorded "\x7bp\x7d".toList "b.gif".toList "b.gif".toList href ∧
      Markup.unescape href = .ok "Pictures/b.gif".toList) ∧
    ∃ e href, feedDocument.bindImage "p".toList "a\nb".toList Placement.inText = (.ok (), e) ∧
      e.values.Recorded "\x7bp\x7d".toList "a\nb".toList "a\nb".toList href ∧
      Markup.unescape href ≠ .ok "Pictures/a\nb".toList := by
  intro s
  have none (q : Picture) : q ∉ Values.empty.pictures := List.not_mem_nil
  constructor
  · have done : (Segment.bindImage "p".toList "b.gif".toList Placement.inText s
        (Session.alone (imageDisk "b.gif".toList))).1.toOption = some () := by decide +kernel
    have bound := Segment.eq_ok_of_toOption done
    obtain ⟨-, file, href, recorded, agree⟩ :=
      (picture_names_agree_iff _ _ _).2.1 s _ _ _ (fun q mem => absurd mem (none q)) bound
    have name : Path.fileName? "b.gif".toList = some "b.gif".toList := by decide +kernel
    obtain rfl : file = "b.gif".toList := Option.some.inj (recorded.named.symm.trans name)
    exact ⟨_, _, href, bound, recorded, agree.2 (by decide)⟩
  · obtain ⟨e, bound⟩ := exists_of_feedDocument
    obtain ⟨-, file, href, recorded, agree⟩ :=
      (picture_names_agree_iff _ _ _).1 _ _ (fun q mem => absurd mem (none q)) bound
    have name : Path.fileName? "a\nb".toList = some "a\nb".toList := by decide +kernel
    obtain rfl : file = "a\nb".toList := Option.some.inj (recorded.named.symm.trans name)
    exact ⟨e, href, bound, recorded, fun same => absurd (agree.1 same) (by decide)⟩

/-- The reference has a line break in the place of the line feed. -/
theorem line_feed_lost :
    ∃ e href, feedDocument.bindImage "p".toList "a\nb".toList Placement.inText = (.ok (), e) ∧
      e.values.Recorded "\x7bp\x7d".toList "a\nb".toList "a\nb".toList href ∧
      Markup.unescape href = .ok "Pictures/a<text:line-break/>b".toList := by
  obtain ⟨e, bound⟩ := exists_of_feedDocument
  have none : feedDocument.values.Named := fun q mem => absurd mem List.not_mem_nil
  obtain ⟨-, file, recorded⟩ := Document.recorded_of_bindImage none bound
  have name : Path.fileName? "a\nb".toList = some "a\nb".toList := by decide +kernel
  obtain rfl : file = "a\nb".toList := Option.some.inj (recorded.named.symm.trans name)
  exact ⟨e, _, bound, recorded, by rw [Markup.unescape_encodeValue]; decide⟩

end DocumentMerge
