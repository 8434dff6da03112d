import DocumentMerge.Markup.Reference

/-!
# Attributes of a tag

The attributes are read from the text of a tag behind its name.  Reading does not stop at a
faulty attribute: the fault is listed in its place and reading goes on behind it where that is
possible, so a caller may heed faults or pass over them.
-/

namespace DocumentMerge.Markup

/-- White space between the parts of a tag. -/
def isSpace (c : Char) : Bool :=
  c == ' ' || c == '\t' || c == '\n' || c == '\r'

/-- The name with which the text of a tag begins. -/
def tagName (tag : Text) : Text :=
  tag.takeWhile fun c => !isSpace c

/-- An attribute with its value as written. -/
structure Attribute where
  key : Text
  value : Text
  deriving DecidableEq, Repr

/-- A position in the text of a tag: a byte offset and what follows. -/
structure Cursor where
  position : Nat
  rest : Text

namespace Cursor

/-- Moves over the characters that satisfy a condition. -/
def skip (c : Cursor) (while? : Char → Bool) : Cursor :=
  ⟨c.position + Text.byteSize (c.rest.takeWhile while?), c.rest.dropWhile while?⟩

theorem length_skip_le (c : Cursor) (while? : Char → Bool) :
    (c.skip while?).rest.length ≤ c.rest.length :=
  (List.dropWhile_sublist while?).length_le

/-- Moves over a quoted text behind its opening quote, if it is closed: the text, and the cursor
behind the closing quote. -/
def quotedText? (c : Cursor) (quote : Char) : Option (Text × Cursor) :=
  let inside := c.rest.takeWhile fun d => d != quote
  match c.rest.dropWhile fun d => d != quote with
  | _ :: rest => some (inside, ⟨c.position + Text.byteSize inside + 1, rest⟩)
  | [] => none

theorem length_quotedText? {c next : Cursor} {quote : Char} {t : Text}
    (h : c.quotedText? quote = some (t, next)) : next.rest.length < c.rest.length := by
  unfold quotedText? at h
  simp only at h
  split at h
  · next found =>
    cases h
    have := (List.dropWhile_sublist (l := c.rest) fun d => d != quote).length_le
    rw [found] at this
    exact this
  · cases h

end Cursor

/-- Where the value of an attribute begins, behind `=` and white space. -/
inductive ValueStart where
  /-- The cursor stands behind the opening quote. -/
  | quote (q : Char) (inside : Cursor)
  | bare (at_ : Cursor)
  | missing (position : Nat)

/-- Looks for the value behind `=`. -/
def valueStart (c : Cursor) : ValueStart :=
  let c := c.skip isSpace
  match c.rest with
  | [] => .missing c.position
  | d :: rest => if d = '"' ∨ d = '\'' then .quote d ⟨c.position + 1, rest⟩ else .bare c

/-- What one step reads: an attribute or a fault, the key that was read, and where to go on. -/
structure AttributeStep where
  outcome : Except AttributeError Attribute
  /-- A new key and its position. -/
  key : Option (Text × Nat)
  /-- No cursor when nothing more can be read. -/
  next : Option Cursor

/-- Reads the value of an attribute.  A repeated key is a fault whatever its value, and reading
goes on at the next white space, even inside quotes. -/
def attributeValue (seen : List (Text × Nat)) (key : Text) (position : Nat) (c : Cursor) :
    AttributeStep :=
  match seen.find? fun k => k.1 == key with
  | some (_, previous) =>
    ⟨.error (.duplicate position previous), none, some (c.skip fun d => !isSpace d)⟩
  | none =>
    let known := some (key, position)
    match valueStart c with
    | .quote q inside =>
      match inside.quotedText? q with
      | some (value, next) => ⟨.ok ⟨key, value⟩, known, some next⟩
      | none =>
        ⟨.error (.quoteNotClosed (inside.position + Text.byteSize inside.rest) q), known, none⟩
    | .bare here =>
      ⟨.error (.unquotedValue here.position), known, some (here.skip fun d => !isSpace d)⟩
    | .missing p => ⟨.error (.noValue p), known, none⟩

/-- Reads one attribute whose key begins at the cursor.  A key is any text up to `=` or white
space, and its first character is taken whatever it is. -/
def attributeStep (seen : List (Text × Nat)) (position : Nat) (first : Char) (rest : Text) :
    AttributeStep :=
  let behind := Cursor.skip ⟨position + first.utf8Size, rest⟩ fun d => d != '=' && !isSpace d
  let key := first :: rest.takeWhile fun d => d != '=' && !isSpace d
  let equals := behind.skip isSpace
  match equals.rest with
  | [] => ⟨.error (.noEquals equals.position), none, none⟩
  | '=' :: value => attributeValue seen key position ⟨equals.position + 1, value⟩
  | _ => ⟨.error (.noEquals equals.position), none, some equals⟩

/-- The cursor inside a quoted value does not lie before the place where it was looked for. -/
theorem length_quote_le {c inside : Cursor} {q : Char} (h : valueStart c = .quote q inside) :
    inside.rest.length ≤ c.rest.length := by
  have skipped := Cursor.length_skip_le c isSpace
  unfold valueStart at h
  simp only at h
  split at h
  · cases h
  · next d rest found =>
    rw [found, List.length_cons] at skipped
    split at h
    · cases h; exact Nat.le_of_succ_le skipped
    · cases h

/-- The cursor of a bare value does not lie before the place where it was looked for. -/
theorem length_bare_le {c here : Cursor} (h : valueStart c = .bare here) :
    here.rest.length ≤ c.rest.length := by
  have skipped := Cursor.length_skip_le c isSpace
  unfold valueStart at h
  simp only at h
  split at h
  · cases h
  · split at h
    · cases h
    · cases h; exact skipped

theorem length_next_attributeValue {seen : List (Text × Nat)} {key : Text} {position : Nat}
    {c next : Cursor} (h : (attributeValue seen key position c).next = some next) :
    next.rest.length ≤ c.rest.length := by
  unfold attributeValue at h
  simp only at h
  split at h
  · cases h
    exact Cursor.length_skip_le _ _
  · split at h
    · next found =>
      split at h
      · next closed =>
        cases h
        exact Nat.le_trans (Nat.le_of_lt (Cursor.length_quotedText? closed))
          (length_quote_le found)
      · cases h
    · next found =>
      cases h
      exact Nat.le_trans (Cursor.length_skip_le _ _) (length_bare_le found)
    · cases h

theorem length_next_attributeStep {seen : List (Text × Nat)} {position : Nat} {first : Char}
    {rest : Text} {next : Cursor} (h : (attributeStep seen position first rest).next = some next) :
    next.rest.length ≤ rest.length := by
  have skipped := Nat.le_trans
    (Cursor.length_skip_le
      (Cursor.skip ⟨position + first.utf8Size, rest⟩ fun d => d != '=' && !isSpace d) isSpace)
    (Cursor.length_skip_le ⟨position + first.utf8Size, rest⟩ fun d => d != '=' && !isSpace d)
  unfold attributeStep at h
  simp only at h
  split at h
  · cases h
  · next found =>
    have := length_next_attributeValue h
    rw [found, List.length_cons] at skipped
    simp only at this skipped
    omega
  · cases h
    exact skipped

/-- Reads attributes from a cursor on, given the keys read before. -/
def attributesFrom (seen : List (Text × Nat)) (c : Cursor) :
    List (Except AttributeError Attribute) :=
  match _found : (c.skip isSpace).rest with
  | [] => []
  | first :: rest =>
    let step := attributeStep seen (c.skip isSpace).position first rest
    step.outcome ::
      match _next : step.next with
      | some next => attributesFrom (step.key.toList ++ seen) next
      | none => []
termination_by c.rest.length
decreasing_by
  have shorter := length_next_attributeStep _next
  have skipped := Cursor.length_skip_le c isSpace
  rw [_found, List.length_cons] at skipped
  omega

/-- The attributes of a tag and the faults among them, in order. -/
def attributes (tag : Text) : List (Except AttributeError Attribute) :=
  let name := tagName tag
  attributesFrom [] ⟨Text.byteSize name, tag.drop name.length⟩

end DocumentMerge.Markup
