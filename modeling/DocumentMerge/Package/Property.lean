import DocumentMerge.Markup.Event

/-!
# Custom properties

The metadata of a document holds properties that its author named, each an element
`<meta:user-defined meta:name="Client">ACME</meta:user-defined>`.  A property that exists can be
given another value: its element is written anew with the attributes it had, and all text around
it stays as it is.

An element is found by reading the metadata as markup and is then cut out by its byte range.  The
range is counted from behind a byte order mark, so in a text that begins with one it lies three
bytes too early, and it may then begin or end inside a character; that is the cause
`Property.Error.insideCharacter`.
-/

namespace DocumentMerge.Property

open Markup (Reader Event)

/-- The element of a property. -/
def element : Text := "meta:user-defined".toList

/-- The attribute with the name of a property. -/
def nameAttribute : Text := "meta:name".toList

/-- Why a property cannot be looked up or set. -/
inductive Error where
  | markup (cause : Markup.Error)
  /-- The byte range of the element cuts a character. -/
  | insideCharacter
  deriving DecidableEq, Repr

/-- Whether the attributes give the name `key`.  They are read up to the first name or fault. -/
def namedIn (key : Text) :
    List (Except Markup.AttributeError Markup.Attribute) → Except Markup.Error Bool
  | [] => .ok false
  | .error cause :: _ => .error (.attribute cause)
  | .ok ⟨name, value⟩ :: rest =>
    if name = nameAttribute then
      match Markup.unescape value with
      | .ok t => .ok (t == key)
      | .error cause => .error cause
    else namedIn key rest

/-- Whether a tag is that of the property `key`. -/
def isProperty (key tag : Text) : Except Markup.Error Bool :=
  if Markup.tagName tag = element then namedIn key (Markup.attributes tag) else .ok false

/-- Reads up to the end of the innermost element that is open, `depth` further elements having
been opened in it, and counts bytes.  There is no end when the text ends before. -/
def contentEnd (depth count : Nat) (r : Reader) : Except Markup.Error (Option Nat) :=
  match _read : r.step? with
  | .error cause => .error cause
  | .ok none => .ok none
  | .ok (some s) =>
    let count := count + Text.byteSize s.written
    match s.event with
    | .start _ => contentEnd (depth + 1) count s.next
    | .close =>
      match depth with
      | 0 => .ok (some count)
      | depth + 1 => contentEnd depth count s.next
    | .empty _ | .other => contentEnd depth count s.next
termination_by r.rest.length
decreasing_by all_goals exact Reader.length_step? _read

/-- The byte range of an element, and the end of its first tag. -/
structure Extent where
  start : Nat
  tagStop : Nat
  stop : Nat
  deriving DecidableEq, Repr

/-- Looks for the element of a property from a byte position on.  An element that is never closed
counts as none, and nothing behind it is looked at. -/
def extentFrom (key : Text) (position : Nat) (r : Reader) : Except Markup.Error (Option Extent) :=
  match _read : r.step? with
  | .error cause => .error cause
  | .ok none => .ok none
  | .ok (some s) =>
    let tagStop := position + Text.byteSize s.written
    match s.event with
    | .empty tag =>
      match isProperty key tag with
      | .error cause => .error cause
      | .ok true => .ok (some ⟨position, tagStop, tagStop⟩)
      | .ok false => extentFrom key tagStop s.next
    | .start tag =>
      match isProperty key tag with
      | .error cause => .error cause
      | .ok true =>
        (contentEnd 0 tagStop s.next).map fun stop? =>
          stop?.map fun stop => ⟨position, tagStop, stop⟩
      | .ok false => extentFrom key tagStop s.next
    | .close | .other => extentFrom key tagStop s.next
termination_by r.rest.length
decreasing_by all_goals exact Reader.length_step? _read

/-- The element of the first property named `key`. -/
def extent? (meta_ key : Text) : Except Markup.Error (Option Extent) :=
  extentFrom key 0 (Reader.ofText meta_)

/-- The text before an element, and the first tag of the element, cut out at byte positions. -/
def cutTag? (s : Text) (e : Extent) : Option (Text × Text) := do
  let (before, rest) ← Text.splitAtByte? e.start s
  let (tag, _) ← Text.splitAtByte? (e.tagStop - e.start) rest
  some (before, tag)

/-- The attributes in a tag: its text without brackets, slashes at its end, name, and white space
around. -/
def attributeText (tag : Text) : Text :=
  let inner := Text.dropEndWhile (· == '/')
    (Text.dropEndWhile (· == '>') (tag.dropWhile (· == '<')))
  Text.trim ((Text.dropPrefix? element inner).getD inner)

/-- The element of a property with a value, which is put in as it is. -/
def write (attributes value : Text) : Text :=
  '<' :: element ++ ' ' :: attributes ++ '>' :: value ++ "</".toList ++ element ++ ['>']

/-- Whether there is a property named `key`. -/
def existsIn (meta_ key : Text) : Except Error Bool :=
  match extent? meta_ key with
  | .error cause => .error (.markup cause)
  | .ok none => .ok false
  | .ok (some e) =>
    match cutTag? meta_ e with
    | some _ => .ok true
    | none => .error .insideCharacter

/-- The metadata with another value of the property `key`, if there is such a property. -/
def set (meta_ key value : Text) : Except Error (Option Text) :=
  match extent? meta_ key with
  | .error cause => .error (.markup cause)
  | .ok none => .ok none
  | .ok (some e) =>
    match cutTag? meta_ e, Text.splitAtByte? e.stop meta_ with
    | some (before, tag), some (_, after) =>
      .ok (some (before ++ write (attributeText tag) value ++ after))
    | _, _ => .error .insideCharacter

end DocumentMerge.Property
