import DocumentMerge.Text.Basic

/-!
# Image formats and sizes

The format of an image is told by its first bytes, and every format says in its header how many
pixels wide and high the image is.  Headers are read from lists of bytes, so that nothing beyond
the end can be asked for.

In a JPEG the size stands in the frame header, behind any number of segments that give their own
length; `Jpeg.frameSize?` steps from one to the next.
-/

namespace DocumentMerge

/-- The formats whose headers are known. -/
inductive ImageFormat where
  | png
  | jpeg
  | gif
  | webp
  | bmp
  deriving DecidableEq, Repr

namespace ImageFormat

/-- The name of a format. -/
def name : ImageFormat → Text
  | .png => "Png".toList
  | .jpeg => "Jpeg".toList
  | .gif => "Gif".toList
  | .webp => "WebP".toList
  | .bmp => "Bmp".toList

/-- Bytes as a number, the highest one first. -/
def bigEndian (bytes : List UInt8) : Nat :=
  bytes.foldl (fun n b => 256 * n + b.toNat) 0

/-- Bytes as a number, the lowest one first. -/
def littleEndian (bytes : List UInt8) : Nat :=
  bigEndian bytes.reverse

/-- The bytes in a range, if all of them are there. -/
def range? (start length : Nat) (data : List UInt8) : Option (List UInt8) :=
  if start + length ≤ data.length then some ((data.drop start).take length) else none

/-- The bytes that stand for ASCII text. -/
def ascii (s : String) : List UInt8 :=
  s.toList.map fun c => c.toNat.toUInt8

/-- The format that the first bytes tell. -/
def ofBytes? (data : List UInt8) : Option ImageFormat :=
  match data with
  | 0x89 :: 0x50 :: 0x4E :: 0x47 :: _ => some .png
  | 0xFF :: 0xD8 :: 0xFF :: _ :: _ => some .jpeg
  | 0x47 :: 0x49 :: 0x46 :: 0x38 :: _ => some .gif
  | 0x52 :: 0x49 :: 0x46 :: 0x46 :: _ =>
    if range? 8 4 data = some (ascii "WEBP") then some .webp else none
  | 0x42 :: 0x4D :: _ :: _ :: _ => some .bmp
  | _ => none

/-! ## Sizes -/

/-- Reads two numbers of `length` bytes, one behind the other. -/
def pair? (read : List UInt8 → Nat) (start length : Nat) (data : List UInt8) : Option (Nat × Nat) := do
  let first ← range? start length data
  let second ← range? (start + length) length data
  some (read first, read second)

namespace Jpeg

/-- Whether a marker begins a frame header. -/
def isFrame (marker : UInt8) : Bool :=
  0xC0 ≤ marker && marker ≤ 0xCF && marker != 0xC4 && marker != 0xC8 && marker != 0xCC

/-- Reads the size from the first frame header.  A segment is passed over by its length, and a
byte that begins no segment by itself.  The scan ends where fewer than ten bytes are left. -/
def frameSize? : List UInt8 → Option (Nat × Nat)
  | [] => none
  | lead :: rest =>
    match _bytes : rest with
    | marker :: l₁ :: l₂ :: _ :: h₁ :: h₂ :: w₁ :: w₂ :: _ :: _ =>
      if lead ≠ 0xFF then frameSize? rest
      else if isFrame marker then some (bigEndian [w₁, w₂], bigEndian [h₁, h₂])
      else frameSize? (rest.drop (1 + bigEndian [l₁, l₂]))
    | _ => none
termination_by data => data.length
decreasing_by
  · rw [_bytes, List.length_cons]; exact Nat.lt_succ_self _
  · rw [List.length_drop, _bytes]; simp only [List.length_cons]; omega

end Jpeg

/-- The distance of a number from zero, where 32 bits hold it with its sign. -/
def magnitude (n : Nat) : Nat :=
  if n < 0x80000000 then n else 0x100000000 - n

/-- Reads the size from a WebP header, of which there are three kinds. -/
def webpSize? (data : List UInt8) : Option (Nat × Nat) := do
  let kind ← range? 12 4 data
  if kind = ascii "VP8 " then
    let (width, height) ← pair? littleEndian 26 2 data
    some (width % 0x4000, height % 0x4000)
  else if kind = ascii "VP8L" then
    let bits := littleEndian (← range? 21 4 data)
    some (bits % 0x4000 + 1, bits / 0x4000 % 0x4000 + 1)
  else if kind = ascii "VP8X" then
    let (width, height) ← pair? littleEndian 24 3 data
    some (width + 1, height + 1)
  else none

/-- The width and height that a header gives. -/
def headerSize? (format : ImageFormat) (data : List UInt8) : Option (Nat × Nat) :=
  match format with
  | .png => pair? bigEndian 16 4 data
  | .jpeg => Jpeg.frameSize? (data.drop 2)
  | .gif => pair? littleEndian 6 2 data
  | .webp => webpSize? data
  | .bmp => (pair? littleEndian 18 4 data).map fun (width, height) =>
    (magnitude width, magnitude height)

/-- The width and height of an image, neither of which may be zero. -/
def size? (format : ImageFormat) (data : List UInt8) : Option (Nat × Nat) :=
  (headerSize? format data).filter fun (width, height) => 0 < width && 0 < height

end ImageFormat

end DocumentMerge
