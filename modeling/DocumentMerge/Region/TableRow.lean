import DocumentMerge.Region.Search

/-!
# Regions that repeat a table row

Text can hardly be put between the rows of a table, so a row that is to be repeated carries
`row.NAME` markers inside its cells.  Before regions are searched, each such row gives up these
markers and is enclosed in markers of `NAME` as a whole.

A row runs from a `<table:table-row>` start tag to the nearest end tag.
-/

namespace DocumentMerge.Region

/-- What the name of a row marker begins with. -/
def rowPrefix : Text := "row.".toList

/-- How the start tag of a row begins. -/
def rowTag : Text := '<' :: "table:table-row".toList

/-- The end tag of a row behind its first character. -/
def rowEndTail : Text := "/table:table-row>".toList

/-- The end tag of a row. -/
def rowEnd : Text := '<' :: rowEndTail

/-- The name that a row marker gives to its row. -/
def rowTarget? (name : Text) : Option Text :=
  (Text.dropPrefix? rowPrefix name).filter fun rest => !rest.isEmpty

/-- The end tags of rows. -/
def rowEndPattern : Pattern Unit :=
  Pattern.literal '<' rowEndTail

/-- The start tag of a row at the beginning of a text, behind its name: a `>` at once, or white
space and then text up to the first `>`. -/
def rowTagEnd? (s : Text) : Option (Text × Text) :=
  match s with
  | '>' :: rest => some (['>'], rest)
  | c :: _ =>
    if isMarkerSpace c then
      match s.dropWhile fun c => c != '>' with
      | _ :: rest => some (s.takeWhile (fun c => c != '>') ++ ['>'], rest)
      | [] => none
    else none
  | [] => none

/-- What was read of a start tag stands in front of the rest. -/
theorem eq_append_of_rowTagEnd? {s tag rest : Text} (h : rowTagEnd? s = some (tag, rest)) :
    s = tag ++ rest := by
  unfold rowTagEnd? at h
  split at h
  · cases h; rfl
  · next s' c t _ =>
    split at h
    · split at h
      · next d r found =>
        cases h
        have closing : d = '>' := by
          have := List.head?_dropWhile_not (fun c => c != '>') (c :: t)
          rw [found] at this
          simpa using this
        rw [closing] at found
        conv => lhs; rw [← List.takeWhile_append_dropWhile (p := fun c => c != '>') (l := c :: t)]
        rw [found]
        simp
      · cases h
    · cases h
  · cases h

/-- The row at the beginning of a text. -/
def rowAt? (s : Text) : Option (Text × Text) := do
  let behindName ← Text.dropPrefix? rowTag s
  let (tag, content) ← rowTagEnd? behindName
  let m ← rowEndPattern.first? content
  some (rowTag ++ tag ++ m.before ++ rowEnd, m.after)

/-- A row that was read stands in front of the rest. -/
theorem eq_append_of_rowAt? {s row rest : Text} (h : rowAt? s = some (row, rest)) :
    s = row ++ rest ∧ row ≠ [] := by
  simp only [rowAt?, Option.bind_eq_bind, Option.bind_eq_some_iff,
    Text.dropPrefix?_eq_some_iff] at h
  obtain ⟨behind, rfl, ⟨tag, content⟩, tagged, m, found, e⟩ := h
  cases e
  obtain ⟨here, rfl, closed⟩ := Pattern.eq_append_of_first? _ found
  simp only [rowEndPattern, Pattern.literal, Option.map_eq_some_iff,
    Text.dropPrefix?_eq_some_iff] at closed
  obtain ⟨_, rfl, e⟩ := closed
  cases e
  rw [eq_append_of_rowTagEnd? tagged]
  exact ⟨by simp [rowEnd], by simp [rowTag]⟩

/-- The rows of a text. -/
def rowPattern : Pattern Text where
  match? := rowAt?
  consumes h :=
    have ⟨cut, nonempty⟩ := eq_append_of_rowAt? h
    ⟨_, nonempty, cut⟩

/-- Moves the markers of a row onto it.  The first row marker gives the name, and all markers of
that name go. -/
def normalizeRow (row : Text) : Text :=
  match first? (fun name => (rowTarget? name).isSome) row with
  | some m =>
    match rowTarget? m.value.name with
    | some target => beginMarker target ++ unwrap m.value.name row ++ endMarker target
    | none => row
  | none => row

/-- Moves row markers onto the rows that hold them; all other text stays as it is. -/
def normalizeRows (content : Text) : Text :=
  rowPattern.replace normalizeRow content

end DocumentMerge.Region
