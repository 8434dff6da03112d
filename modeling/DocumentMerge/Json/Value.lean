import DocumentMerge.Json.Number
import DocumentMerge.Text.Keyed

/-!
# JSON values

A value keeps the members of an object in the order of their keys, and of two members with one
key the later one.  `Value.ofSyntax?` refuses what the grammar allows but no value can be: a
number out of range, a string that is not text, and nesting beyond a limit.  `Value.render`
writes a value compactly.
-/

namespace DocumentMerge.Json

/-- JSON data. -/
inductive Value where
  | null
  | bool (b : Bool)
  | number (n : Number)
  | string (t : Text)
  | array (items : List Value)
  | object (members : List (Text × Value))

/-- How many brackets may be open at once. -/
def nestingLimit : Nat := 127

namespace Value

/-- The value that a syntax stands for; `room` more brackets may be opened. -/
def ofSyntax? : (room : Nat) → Syntax → Option Value
  | _, .null => some .null
  | _, .bool b => some (.bool b)
  | _, .number n => n.number?.map .number
  | _, .string t => t.map .string
  | 0, .array _ => none
  | 0, .object _ => none
  | room + 1, .array items => (items.mapM (ofSyntax? room)).map .array
  | room + 1, .object members =>
    (members.mapM fun (member : Option Text × Syntax) => do
      let key ← member.1
      let v ← ofSyntax? room member.2
      some (key, v)).map fun pairs => .object (Keyed.ofList pairs)

/-- The value of a JSON text. -/
def parse? (s : Text) : Option Value :=
  (Syntax.parse? s).bind (ofSyntax? nestingLimit)

/-! ## Writing -/

/-- The lower case hexadecimal digit of a number below sixteen. -/
def hexDigit (n : Nat) : Char :=
  if n < 10 then Char.ofNat ('0'.toNat + n) else Char.ofNat ('a'.toNat + (n - 10))

/-- A character inside a string: quotes, backslashes and control characters are escaped. -/
def renderChar (c : Char) : Text :=
  match c with
  | '"' => "\\\"".toList
  | '\\' => "\\\\".toList
  | '\x08' => "\\b".toList
  | '\x0c' => "\\f".toList
  | '\n' => "\\n".toList
  | '\r' => "\\r".toList
  | '\t' => "\\t".toList
  | c =>
    if c.toNat < 0x20 then
      "\\u00".toList ++ [hexDigit (c.toNat / 16), hexDigit (c.toNat % 16)]
    else [c]

/-- A string with its quotes. -/
def renderString (t : Text) : Text :=
  '"' :: t.flatMap renderChar ++ ['"']

/-- Texts between brackets, separated by commas. -/
def bracketed (opening closing : Char) (parts : List Text) : Text :=
  opening :: Text.join [','] parts ++ [closing]

mutual

/-- Writes a value without white space. -/
def render : Value → Text
  | .null => "null".toList
  | .bool true => "true".toList
  | .bool false => "false".toList
  | .number n => n.render
  | .string t => renderString t
  | .array items => bracketed '[' ']' (renderItems items)
  | .object members => bracketed '\x7b' '\x7d' (renderMembers members)

/-- Writes the items of an array. -/
def renderItems : List Value → List Text
  | [] => []
  | v :: vs => render v :: renderItems vs

/-- Writes the members of an object. -/
def renderMembers : List (Text × Value) → List Text
  | [] => []
  | (key, v) :: rest => (renderString key ++ ':' :: render v) :: renderMembers rest

end

end Value

end DocumentMerge.Json
