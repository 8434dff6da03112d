import DocumentMerge.Image.Frame
import DocumentMerge.Proofs.Markup.Recovering

/-!
# What a frame refers to

A frame refers to its picture by an attribute whose value is the name of the picture's member, with
its special characters written as entities.  Who reads such a value reads the name again
(`Markup.unescape_escape`).

* `Frame.exists_of_build`: the picture of a frame has the path and the file name of its image.
* `Frame.refers_of_build`: the text that stands for a tag to which a frame is bound refers to the
  frame's picture.  A file name may have a line feed; this becomes a line break, within the
  attribute too, and then the value is another one.
-/

namespace DocumentMerge

namespace Frame

/-! ## Frames -/

/-- The picture of a frame is that of an image that was read, with the name of its file. -/
theorem exists_of_build {disk : Disk} {path : Text} {p : Placement} {frame : Frame}
    (h : Frame.build disk path p = .ok frame) :
    ∃ file content, Path.fileName? path = some file ∧ disk.read path = .ok content ∧
      frame.picture = ⟨path, file⟩ ∧ ∃ size, frame.xml = write ⟨path, file⟩ p size := by
  rw [build] at h
  split at h
  · cases h
  · next file named =>
    split at h
    · cases h
    · next width height measured =>
      cases h
      rw [Picture.size] at measured
      cases read : disk.read path with
      | error cause => rw [read] at measured; cases measured
      | ok content => exact ⟨file, content, named, rfl, rfl, _, rfl⟩

/-- A text has an attribute that refers to a member of the package. -/
def Refers (t entry : Text) : Prop :=
  ∃ front value back, t = front ++ valued "xlink:href".toList value ++ back ∧
    Markup.unescape value = .ok entry

theorem exists_append_eq_write (picture : Picture) (p : Placement) (size : Float × Float) :
    ∃ front back, write picture p size =
      front ++ valued "xlink:href".toList (Markup.escape picture.entry) ++ back := by
  have regroup (front href a b c d : Text) :
      front ++ href ++ a ++ b ++ c ++ d = front ++ href ++ (a ++ (b ++ (c ++ d))) := by
    simp only [List.append_assoc]
  exact ⟨_, _, regroup _ _ _ _ _ _⟩

/-- The text that is put in the place of a tag that a frame is bound to refers to the frame's
picture. -/
theorem refers_of_build {disk : Disk} {path : Text} {p : Placement} {frame : Frame}
    (h : Frame.build disk path p = .ok frame) (free : '\n' ∉ frame.picture.file) :
    Refers (Markup.encodeValue false frame.xml) frame.picture.entry := by
  obtain ⟨file, -, -, -, picture, size, xml⟩ := exists_of_build h
  rw [picture] at free ⊢
  have entry : '\n' ∉ Picture.entry ⟨path, file⟩ := by
    rw [Picture.entry, Part.picture, List.mem_append, not_or]
    exact ⟨by decide, free⟩
  have inside : '\n' ∉ valued "xlink:href".toList (Markup.escape (Picture.entry ⟨path, file⟩)) := by
    have names : '\n' ∉ ' ' :: "xlink:href".toList ++ "=\"".toList := by decide +kernel
    have quote : '\n' ∉ ['"'] := by decide
    rw [valued, List.mem_append, List.mem_append, not_or, not_or]
    exact ⟨⟨names, Markup.lineFeed_notMem_escape entry⟩, quote⟩
  obtain ⟨front, back, split⟩ := exists_append_eq_write ⟨path, file⟩ p size
  refine ⟨Markup.breakLines front, Markup.escape (Picture.entry ⟨path, file⟩),
    Markup.breakLines back, ?_, Markup.unescape_escape _⟩
  rw [xml, split, Markup.encodeValue, if_neg Bool.false_ne_true, Markup.breakLines_append,
    Markup.breakLines_append, Markup.breakLines_of_free inside]

end Frame

end DocumentMerge
