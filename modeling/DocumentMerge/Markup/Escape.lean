import DocumentMerge.Text.Basic

/-!
# Values inside markup

A value that is put into a document as text must not be taken for markup, so the five characters
that are special in XML are written as entities; quotes are among them, which makes a value safe
inside an attribute too.  A line feed has no meaning in the running text of a document and becomes
a line break element.  Escaping is optional, the line breaks are not.
-/

namespace DocumentMerge.Markup

/-- The element that stands for a line feed. -/
def lineBreak : Text := "<text:line-break/>".toList

/-- The entity for a special character, and every other character as it is. -/
def escapeChar (c : Char) : Text :=
  match c with
  | '&' => "&amp;".toList
  | '<' => "&lt;".toList
  | '>' => "&gt;".toList
  | '"' => "&quot;".toList
  | '\'' => "&#039;".toList
  | c => [c]

/-- Writes the special characters of a text as entities. -/
def escape (t : Text) : Text :=
  t.flatMap escapeChar

@[simp] theorem escape_nil : escape [] = [] := rfl

@[simp] theorem escape_cons (c : Char) (t : Text) : escape (c :: t) = escapeChar c ++ escape t :=
  List.flatMap_cons

/-- Writes line feeds as line breaks. -/
def breakLines (t : Text) : Text :=
  t.flatMap fun c => if c = '\n' then lineBreak else [c]

/-- The form in which a value is stored and put into the document. -/
def encodeValue (encode : Bool) (value : Text) : Text :=
  breakLines (if encode then escape value else value)

end DocumentMerge.Markup
