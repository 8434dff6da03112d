/-!
# Texts as lists of characters

A template, a tag, an entry name: everything this library reads or writes is a list of
characters.  Searching goes from left to right and cuts at characters, so a list is the form in
which a scanner can be written by recursion on what remains to be read.

Positions are answered in bytes of the UTF-8 form, and only there does the width of a character
matter: `Text.byteSize` measures a text, and `Text.splitAtByte?` cuts at a byte position, which
fails inside a character.  A text is written to a file in this form, and bytes are read as a text
only when they are well formed.
-/

namespace DocumentMerge

/-- A text is the list of its characters. -/
abbrev Text := List Char

namespace Text

/-- The number of bytes of the UTF-8 form of a text. -/
def byteSize (t : Text) : Nat :=
  t.foldl (fun n c => n + c.utf8Size) 0

/-- What follows `lead` in a text that begins with it. -/
def dropPrefix? : (lead : Text) → Text → Option Text
  | [], s => some s
  | _ :: _, [] => none
  | p :: ps, c :: s => if p = c then dropPrefix? ps s else none

@[simp] theorem dropPrefix?_nil (s : Text) : dropPrefix? [] s = some s := rfl

/-- Dropping a prefix undoes prepending it, and nothing else is accepted. -/
theorem dropPrefix?_eq_some_iff {lead s rest : Text} :
    dropPrefix? lead s = some rest ↔ s = lead ++ rest := by
  induction lead generalizing s with
  | nil => simp [eq_comm]
  | cons p ps ih =>
    cases s with
    | nil => simp [dropPrefix?]
    | cons c s =>
      by_cases h : p = c
      · subst h; simp [dropPrefix?, ih]
      · simp [dropPrefix?, h, Ne.symm h]

/-- Whether `part` occurs in a text; the empty text occurs in every text. -/
def occursIn (part : Text) : Text → Bool
  | [] => part.isEmpty
  | c :: s => part.isPrefixOf (c :: s) || occursIn part s

/-- The text up to the first character of a kind, that character left out, and the text after it. -/
def splitOnce? (cut : Char → Bool) (s : Text) : Option (Text × Text) :=
  match s.dropWhile fun c => !cut c with
  | [] => none
  | _ :: after => some (s.takeWhile (fun c => !cut c), after)

/-- The text up to the last character of a kind, that character left out, and the text after it. -/
def splitLast? (cut : Char → Bool) (s : Text) : Option (Text × Text) :=
  (splitOnce? cut s.reverse).map fun (after, before) => (before.reverse, after.reverse)

/-- Drops the characters of a kind at the end. -/
def dropEndWhile (drop : Char → Bool) (s : Text) : Text :=
  (s.reverse.dropWhile drop).reverse

/-- Unicode's white space. -/
def isBlank (c : Char) : Bool :=
  let n := c.toNat
  (9 ≤ n && n ≤ 13) || n == 0x20 || n == 0x85 || n == 0xA0 || n == 0x1680
    || (0x2000 ≤ n && n ≤ 0x200A) || n == 0x2028 || n == 0x2029 || n == 0x202F || n == 0x205F
    || n == 0x3000

/-- Drops white space at both ends. -/
def trim (s : Text) : Text :=
  dropEndWhile isBlank (s.dropWhile isBlank)

/-- Cuts a text at a byte position of its UTF-8 form.  There is no answer when the position lies
beyond the end or inside a character. -/
def splitAtByte? (position : Nat) (s : Text) : Option (Text × Text) :=
  go [] position s
where
  /-- Walks on with the text already passed, last character first. -/
  go (passed : Text) : Nat → Text → Option (Text × Text)
    | 0, s => some (passed.reverse, s)
    | _ + 1, [] => none
    | n + 1, c :: s => if c.utf8Size ≤ n + 1 then go (c :: passed) (n + 1 - c.utf8Size) s else none

/-- Joins texts with a separator between neighbours. -/
def join (separator : Text) : List Text → Text
  | [] => []
  | t :: ts => t ++ ts.flatMap fun u => separator ++ u

/-- The decimal digits of a number. -/
def ofNat (n : Nat) : Text :=
  (Nat.repr n).toList

/-! ## Bytes -/

/-- The UTF-8 form of a text. -/
def toBytes (t : Text) : ByteArray :=
  (String.ofList t).toUTF8

/-- The text whose UTF-8 form is given, if there is one. -/
def ofBytes? (data : ByteArray) : Option Text :=
  data.utf8Decode?.map Array.toList

/-- What was written as a text is read as that text. -/
@[simp] theorem ofBytes?_toBytes (t : Text) : ofBytes? (toBytes t) = some t := by
  simp [ofBytes?, toBytes]

end Text

end DocumentMerge
