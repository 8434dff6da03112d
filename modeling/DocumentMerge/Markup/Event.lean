import DocumentMerge.Markup.Attribute
import DocumentMerge.Text.Pattern

/-!
# Reading markup piece by piece

A markup text is read as a sequence of pieces: running text, start tags, empty tags, end tags,
and all other markup (comments, character data sections, instructions and document types), which
is passed over.  Nothing of the text is lost: a piece remembers how it was written, and
`Piece.eq_append` says that it stands in front of the rest.

A `Reader` also keeps the names of the elements that are open, since an end tag must close the
innermost of them.  Elements may be left open at the end.
-/

namespace DocumentMerge.Markup

/-- The kinds of pieces.  Tags carry their text between the brackets, empty tags without the
slash, end tags without the slash too. -/
inductive Kind where
  | text
  | start (tag : Text)
  | empty (tag : Text)
  | close (tag : Text)
  | other
  deriving DecidableEq, Repr

/-- A piece of markup at the beginning of a text. -/
structure Piece where
  kind : Kind
  written : Text
  rest : Text
  deriving DecidableEq, Repr

/-- The text up to a `>` outside quotes, and the text behind it. -/
def tagEnd? (quote : Option Char) (seen : Text) : Text → Option (Text × Text)
  | [] => none
  | c :: s =>
    match quote with
    | some q => tagEnd? (if c = q then none else some q) (c :: seen) s
    | none =>
      if c = '>' then some (seen.reverse, s)
      else tagEnd? (if c = '"' ∨ c = '\'' then some c else none) (c :: seen) s

theorem eq_append_of_tagEnd? {quote : Option Char} {seen s tag rest : Text}
    (h : tagEnd? quote seen s = some (tag, rest)) :
    seen.reverse ++ s = tag ++ '>' :: rest := by
  induction s generalizing quote seen with
  | nil => simp [tagEnd?] at h
  | cons c s ih =>
    unfold tagEnd? at h
    split at h
    · simpa using ih h
    · split at h
      · next closed => cases h; rw [closed]
      · simpa using ih h

/-- The text up to the `>` that closes a document type, which may hold further brackets, and the
text behind it. -/
def doctypeEnd? (depth : Nat) (seen : Text) : Text → Option (Text × Text)
  | [] => none
  | c :: s =>
    if c = '<' then doctypeEnd? (depth + 1) (c :: seen) s
    else if c = '>' then
      match depth with
      | 0 => some (seen.reverse, s)
      | depth + 1 => doctypeEnd? depth (c :: seen) s
    else doctypeEnd? depth (c :: seen) s

theorem eq_append_of_doctypeEnd? {depth : Nat} {seen s content rest : Text}
    (h : doctypeEnd? depth seen s = some (content, rest)) :
    seen.reverse ++ s = content ++ '>' :: rest := by
  induction s generalizing depth seen with
  | nil => simp [doctypeEnd?] at h
  | cons c s ih =>
    unfold doctypeEnd? at h
    split at h
    · simpa using ih h
    · split at h
      · next closed =>
        split at h
        · cases h; rw [closed]
        · simpa using ih h
      · simpa using ih h

/-- Whether a text begins with a word, whatever the case of its letters. -/
def beginsWith (word s : Text) : Bool :=
  (s.take word.length).map Char.toUpper == word.map Char.toUpper

/-- Reads a piece behind `<!`. -/
def bangPiece (s : Text) : Except SyntaxError (Except FormError Piece) :=
  match s with
  | '-' :: c :: t =>
    match Text.cutAt? "-->".toList t with
    | some (content, rest) =>
      if c = '-' then
        .ok (.ok ⟨.other, "<!-".toList ++ c :: content ++ "-->".toList, rest⟩)
      else .error .commentNotClosed
    | none => .error .commentNotClosed
  | '-' :: [] => .error .commentNotClosed
  | '[' :: t =>
    match Text.cutAt? "]]>".toList t with
    | some (content, rest) =>
      if "CDATA[".toList.isPrefixOf content then
        .ok (.ok ⟨.other, "<![".toList ++ content ++ "]]>".toList, rest⟩)
      else .error .cdataNotClosed
    | none => .error .cdataNotClosed
  | c :: _ =>
    if c = 'D' ∨ c = 'd' then
      match doctypeEnd? 0 [] s with
      | some (content, rest) =>
        if beginsWith "DOCTYPE".toList content then
          if (content.drop 7).all isSpace then .ok (.error .doctypeWithoutName)
          else .ok (.ok ⟨.other, "<!".toList ++ content ++ ">".toList, rest⟩)
        else .error .doctypeNotClosed
      | none => .error .doctypeNotClosed
    else .error .unknownMarkup
  | [] => .error .unknownMarkup

/-- Reads a start tag or an empty tag behind `<`. -/
def tagPiece (s : Text) : Except SyntaxError Piece :=
  match tagEnd? none [] s with
  | some (tag, rest) =>
    let written := '<' :: tag ++ ['>']
    match tag.getLast? with
    | some '/' => .ok ⟨.empty tag.dropLast, written, rest⟩
    | _ => .ok ⟨.start tag, written, rest⟩
  | none => .error .tagNotClosed

/-- Reads a piece behind `<`.  Every kind of tag ends at a `>` outside quotes. -/
def markupPiece (s : Text) : Except Error Piece :=
  match s with
  | '!' :: t =>
    match bangPiece t with
    | .ok (.ok piece) => .ok piece
    | .ok (.error cause) => .error (.illFormed cause)
    | .error cause => .error (.syntaxError cause)
  | '/' :: t =>
    match tagEnd? none [] t with
    | some (tag, rest) => .ok ⟨.close tag, "</".toList ++ tag ++ ">".toList, rest⟩
    | none => .error (.syntaxError .tagNotClosed)
  | '?' :: _ =>
    match Text.cutAt? "?>".toList s with
    | some (c :: content, rest) =>
      .ok ⟨.other, "<".toList ++ c :: content ++ "?>".toList, rest⟩
    | _ => .error (.syntaxError .instructionNotClosed)
  | _ =>
    match tagPiece s with
    | .ok piece => .ok piece
    | .error cause => .error (.syntaxError cause)

/-- Reads the piece that begins with a character: running text up to the next `<`, or markup. -/
def piece (c : Char) (s : Text) : Except Error Piece :=
  if c = '<' then markupPiece s
  else .ok ⟨.text, c :: s.takeWhile (fun d => d != '<'), s.dropWhile fun d => d != '<'⟩

/-! ## Nothing is lost -/

theorem eq_append_of_bangPiece {s : Text} {p : Piece} (h : bangPiece s = .ok (.ok p)) :
    "<!".toList ++ s = p.written ++ p.rest := by
  unfold bangPiece at h
  split at h
  · split at h
    · next found =>
      split at h
      · cases h; rw [Text.eq_append_of_cutAt? found]; simp
      · cases h
    · cases h
  · cases h
  · split at h
    · next found =>
      split at h
      · cases h; rw [Text.eq_append_of_cutAt? found]; simp
      · cases h
    · cases h
  · split at h
    · split at h
      · next found =>
        split at h
        · split at h
          · cases h
          · cases h
            have := eq_append_of_doctypeEnd? found
            simp only [List.reverse_nil, List.nil_append] at this
            rw [this]
            simp
        · cases h
      · cases h
    · cases h
  · cases h

theorem eq_append_of_markupPiece {s : Text} {p : Piece} (h : markupPiece s = .ok p) :
    '<' :: s = p.written ++ p.rest := by
  unfold markupPiece at h
  split at h
  · split at h
    · next found => cases h; simpa using eq_append_of_bangPiece found
    · cases h
    · cases h
  · split at h
    · next ended =>
      cases h
      have := eq_append_of_tagEnd? ended
      simp only [List.reverse_nil, List.nil_append] at this
      rw [this]
      simp
    · cases h
  · split at h
    · next found => cases h; rw [Text.eq_append_of_cutAt? found]; simp
    · cases h
  · split at h
    · next found =>
      cases h
      unfold tagPiece at found
      split at found
      · next ended =>
        have := eq_append_of_tagEnd? ended
        simp only [List.reverse_nil, List.nil_append] at this
        rw [this]
        simp only at found
        split at found <;> cases found <;> simp
      · cases found
    · cases h

/-- A piece as it was written stands in front of the rest. -/
theorem Piece.eq_append {c : Char} {s : Text} {p : Piece} (h : piece c s = .ok p) :
    c :: s = p.written ++ p.rest := by
  unfold piece at h
  split at h
  · next lt => rw [lt]; exact eq_append_of_markupPiece h
  · cases h; simp [List.takeWhile_append_dropWhile]

/-- A piece is not empty. -/
theorem Piece.written_ne_nil {c : Char} {s : Text} {p : Piece} (h : piece c s = .ok p) :
    p.written ≠ [] := by
  unfold piece at h
  split at h
  · unfold markupPiece at h
    split at h
    · split at h
      · next found =>
        cases h
        unfold bangPiece at found
        split at found
        · split at found
          · split at found <;> cases found; simp
          · cases found
        · cases found
        · split at found
          · split at found <;> cases found; simp
          · cases found
        · split at found
          · split at found
            · split at found
              · split at found <;> cases found; simp
              · cases found
            · cases found
          · cases found
        · cases found
      · cases h
      · cases h
    · split at h <;> cases h; simp
    · split at h <;> cases h; simp
    · split at h
      · next found =>
        cases h
        unfold tagPiece at found
        split at found
        · simp only at found
          split at found <;> cases found <;> simp
        · cases found
      · cases h
  · cases h; simp

/-! ## Open elements -/

/-- What a piece means for the elements around it. -/
inductive Event where
  | start (tag : Text)
  | empty (tag : Text)
  | close
  | other
  deriving DecidableEq, Repr

/-- The state of reading: the names of the open elements, innermost first, and the text that is
left. -/
structure Reader where
  opened : List Text
  rest : Text
  deriving DecidableEq, Repr

/-- One piece that was read. -/
structure Step where
  event : Event
  written : Text
  next : Reader
  deriving DecidableEq, Repr

/-- The name that an end tag gives: white space at its end does not count, unless there is
nothing else. -/
def closeName (tag : Text) : Text :=
  if tag.all isSpace then tag else Text.dropEndWhile isSpace tag

namespace Reader

/-- A reader at the beginning of a text, behind a byte order mark. -/
def ofText : Text → Reader
  | '\ufeff' :: s => ⟨[], s⟩
  | s => ⟨[], s⟩

/-- What a kind of piece does to the open elements. -/
def meaning (opened : List Text) : Kind → Except FormError (Event × List Text)
  | .text | .other => .ok (.other, opened)
  | .start tag => .ok (.start tag, tagName tag :: opened)
  | .empty tag => .ok (.empty tag, opened)
  | .close tag =>
    let name := closeName tag
    match opened with
    | [] => .error (.unmatchedEnd name)
    | expected :: opened =>
      if name = expected then .ok (.close, opened) else .error (.mismatchedEnd expected name)

/-- Reads one piece; there is none at the end of the text. -/
def step? (r : Reader) : Except Error (Option Step) :=
  match r.rest with
  | [] => .ok none
  | c :: s =>
    match piece c s with
    | .error cause => .error cause
    | .ok p =>
      match meaning r.opened p.kind with
      | .ok (event, opened) => .ok (some ⟨event, p.written, ⟨opened, p.rest⟩⟩)
      | .error cause => .error (.illFormed cause)

/-- A step reads a part of the text that is not empty and leaves the rest. -/
theorem rest_eq_append {r : Reader} {s : Step} (h : r.step? = .ok (some s)) :
    r.rest = s.written ++ s.next.rest ∧ s.written ≠ [] := by
  unfold step? at h
  split at h
  · cases h
  · next found =>
    split at h
    · cases h
    · next read =>
      split at h
      · cases h
        rw [found]
        exact ⟨Piece.eq_append read, Piece.written_ne_nil read⟩
      · cases h

/-- A step makes the text that is left shorter. -/
theorem length_step? {r : Reader} {s : Step} (h : r.step? = .ok (some s)) :
    s.next.rest.length < r.rest.length := by
  obtain ⟨split, nonempty⟩ := rest_eq_append h
  have := List.length_pos_iff.2 nonempty
  rw [split, List.length_append]
  omega

end Reader

end DocumentMerge.Markup
