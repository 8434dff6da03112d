import DocumentMerge.Decimal.Binary
import DocumentMerge.Json.Record

/-!
# Where an image is placed

An image flows with the text like a character, or is fixed on a page at an offset.  Its size is
given, or is the one it has at 96 pixels to the inch.  Lengths are given in one unit for the whole
placement and are written in the document in centimetres or millimetres.

A placement can be read from JSON and written back.
-/

namespace DocumentMerge

open Json (Syntax Value)

/-- What the position of a frame refers to. -/
inductive Anchor where
  | asChar
  | page (number : Nat)
  deriving DecidableEq, Repr

/-- The unit of lengths.  Pixels are written as millimetres. -/
inductive LengthUnit where
  | centimeter
  | millimeter
  | pixel
  deriving DecidableEq, Repr

namespace LengthUnit

/-- The millimetres of a pixel. -/
def millimetersOfPixel : Float := 25.4 / 96.0

/-- The centimetres of a pixel. -/
def centimetersOfPixel : Float := 0.026458333

/-- What stands behind a length. -/
def suffix : LengthUnit → Text
  | .centimeter => "cm".toList
  | .millimeter | .pixel => "mm".toList

/-- A length in centimetres has at most seven decimal places and no zeros at its end. -/
def trimmed (x : Float) : Text :=
  let t := Text.dropEndWhile (· == '.') (Text.dropEndWhile (· == '0') (Decimal.fixed 7 x))
  if t = ['-', '0'] then ['0'] else t

/-- Writes a length that is given in a unit, without the suffix. -/
def format (u : LengthUnit) (x : Float) : Text :=
  match u with
  | .centimeter => trimmed x
  | .millimeter => Decimal.fixed 2 x
  | .pixel => Decimal.fixed 2 (x * millimetersOfPixel)

/-- Writes a length with its suffix. -/
def write (u : LengthUnit) (x : Float) : Text :=
  u.format x ++ u.suffix

/-- The length of a number of pixels in a unit. -/
def ofPixels (u : LengthUnit) (n : Nat) : Float :=
  match u with
  | .centimeter => n.toFloat * centimetersOfPixel
  | .millimeter => n.toFloat * millimetersOfPixel
  | .pixel => n.toFloat

end LengthUnit

/-- Anchor, size and offset of an image. -/
structure Placement where
  anchor : Anchor
  /-- The width and height; without them the image has its own size. -/
  size : Option (Float × Float)
  /-- The distance from the left and the upper edge of the page. -/
  offset : Float × Float
  unit : LengthUnit

namespace Placement

/-- An image that flows with the text in its own size. -/
def inText : Placement := ⟨.asChar, none, (0, 0), .centimeter⟩

instance : Inhabited Placement := ⟨inText⟩

/-! ## Reading and writing -/

/-- The greatest page number that is read. -/
def pageLimit : Nat := 0xFFFFFFFF

/-- Reads an anchor. -/
def anchorOf? (s : Syntax) : Option Anchor :=
  match s.variant? with
  | some (name, some number) =>
    if name = "page".toList then (number.natural pageLimit).map .page
    else if s.plainVariant? = some "as_char".toList then some .asChar
    else none
  | some (name, none) => if name = "as_char".toList then some .asChar else none
  | none => none

/-- Reads a unit. -/
def unitOf? (s : Syntax) : Option LengthUnit := do
  let name ← s.plainVariant?
  if name = "centimeter".toList then some .centimeter
  else if name = "millimeter".toList then some .millimeter
  else if name = "pixel".toList then some .pixel
  else none

/-- Reads two numbers. -/
def pairOf? : Syntax → Option (Float × Float)
  | .array [x, y] => do
    let x ← x.float
    let y ← y.float
    some (x, y)
  | _ => none

/-- Reads a size, for which `null` may stand. -/
def sizeOf? : Syntax → Option (Option (Float × Float))
  | .null => some none
  | s => (pairOf? s).map some

/-- The names of the fields in order. -/
def fields : List Text :=
  ["anchor".toList, "size".toList, "offset".toList, "unit".toList]

/-- Reads a placement. -/
def ofSyntax? (s : Syntax) : Option Placement := do
  match ← s.record? fields with
  | [anchor, size, offset, unit] =>
    some {
      anchor := ← Syntax.given inText.anchor anchorOf? anchor
      size := ← Syntax.given inText.size sizeOf? size
      offset := ← Syntax.given inText.offset pairOf? offset
      unit := ← Syntax.given inText.unit unitOf? unit }
  | _ => none

/-- Two numbers in JSON. -/
def pairValue (p : Float × Float) : Value :=
  .array [.number (.double p.1), .number (.double p.2)]

/-- An anchor in JSON. -/
def anchorValue : Anchor → Value
  | .asChar => .string "as_char".toList
  | .page n => .object [("page".toList, .number (.integer n))]

/-- A unit in JSON. -/
def unitValue : LengthUnit → Value
  | .centimeter => .string "centimeter".toList
  | .millimeter => .string "millimeter".toList
  | .pixel => .string "pixel".toList

/-- A placement in JSON. -/
def toValue (p : Placement) : Value :=
  .object [
    ("anchor".toList, anchorValue p.anchor),
    ("size".toList, (p.size.map pairValue).getD .null),
    ("offset".toList, pairValue p.offset),
    ("unit".toList, unitValue p.unit)]

end Placement

end DocumentMerge
