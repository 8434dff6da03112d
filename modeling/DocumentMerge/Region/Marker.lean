import DocumentMerge.Text.Pattern

/-!
# Markers of a region

A region of a document is opened by `[!-- BEGIN name --]` and closed by `[!-- END name --]`.  The
markers are found by text search, whatever markup they stand in.  Their parts are separated by
one white space character each, of any of the six ASCII kinds, and a name is any text without
such a character, the empty text included.

The readers give back the marker as it was written, since its white space is not canonical.
-/

namespace DocumentMerge.Region

/-- The white space of a marker: space, tab, line feed, vertical tab, form feed and return. -/
def isMarkerSpace (c : Char) : Bool :=
  c == ' ' || c == '\t' || c == '\n' || c == '\x0b' || c == '\x0c' || c == '\r'

/-- How a marker begins. -/
def opener : Text := "[!--".toList

/-- How a marker ends. -/
def closer : Text := "--]".toList

/-- The word of an opening marker. -/
def beginWord : Text := "BEGIN".toList

/-- The word of a closing marker. -/
def endWord : Text := "END".toList

/-- The canonical opening marker of a name. -/
def beginMarker (name : Text) : Text :=
  opener ++ ' ' :: beginWord ++ ' ' :: name ++ ' ' :: closer

/-- The canonical closing marker of a name. -/
def endMarker (name : Text) : Text :=
  opener ++ ' ' :: endWord ++ ' ' :: name ++ ' ' :: closer

/-- One white space character. -/
def space? : Text → Option (Char × Text)
  | c :: s => if isMarkerSpace c then some (c, s) else none
  | [] => none

theorem space?_eq_some {s rest : Text} {c : Char} (h : space? s = some (c, rest)) :
    s = c :: rest ∧ isMarkerSpace c = true := by
  cases s with
  | nil => simp [space?] at h
  | cons d s =>
    rw [space?] at h
    split at h
    · next space => cases h; exact ⟨rfl, space⟩
    · cases h

/-- An opening marker as written. -/
structure Opening where
  name : Text
  /-- The marker itself. -/
  written : Text
  deriving DecidableEq, Repr

/-- Reads an opening marker of any name. -/
def opening? (s : Text) : Option (Opening × Text) := do
  let s ← Text.dropPrefix? opener s
  let (a, s) ← space? s
  let s ← Text.dropPrefix? beginWord s
  let (b, s) ← space? s
  let name := s.takeWhile fun c => !isMarkerSpace c
  let (c, s) ← space? (s.dropWhile fun c => !isMarkerSpace c)
  let s ← Text.dropPrefix? closer s
  some (⟨name, opener ++ a :: beginWord ++ b :: name ++ c :: closer⟩, s)

/-- An opening marker that was read stands in front of the rest. -/
theorem eq_append_of_opening? {s rest : Text} {o : Opening} (h : opening? s = some (o, rest)) :
    s = o.written ++ rest := by
  simp only [opening?, Option.bind_eq_bind, Option.bind_eq_some_iff,
    Text.dropPrefix?_eq_some_iff] at h
  obtain ⟨s₁, h₁, ⟨a, s₂⟩, h₂, s₃, h₃, ⟨b, s₄⟩, h₄, ⟨c, s₅⟩, h₅, s₆, h₆, e⟩ := h
  cases e
  obtain ⟨h₂, -⟩ := space?_eq_some h₂
  obtain ⟨h₄, -⟩ := space?_eq_some h₄
  obtain ⟨h₅, -⟩ := space?_eq_some h₅
  subst h₁ h₂ h₃ h₄
  have cut := @List.takeWhile_append_dropWhile _ (fun c => !isMarkerSpace c) s₄
  simp only at h₅ h₆
  rw [h₅, h₆] at cut
  conv => lhs; rw [← cut]
  simp only [List.append_assoc, List.cons_append]

/-- An opening marker is not empty. -/
theorem opening?_ne_nil {s rest : Text} {o : Opening} (h : opening? s = some (o, rest)) :
    o.written ≠ [] := by
  simp only [opening?, Option.bind_eq_bind, Option.bind_eq_some_iff] at h
  obtain ⟨_, -, ⟨a, _⟩, -, _, -, ⟨b, _⟩, -, ⟨c, _⟩, -, _, -, e⟩ := h
  cases e
  simp [opener]

/-- Reads a closing marker of one name, as written. -/
def closing? (name : Text) (s : Text) : Option (Text × Text) := do
  let s ← Text.dropPrefix? opener s
  let (a, s) ← space? s
  let s ← Text.dropPrefix? endWord s
  let (b, s) ← space? s
  let s ← Text.dropPrefix? name s
  let (c, s) ← space? s
  let s ← Text.dropPrefix? closer s
  some (opener ++ a :: endWord ++ b :: name ++ c :: closer, s)

/-- A closing marker that was read stands in front of the rest. -/
theorem eq_append_of_closing? {name s rest written : Text}
    (h : closing? name s = some (written, rest)) : s = written ++ rest := by
  simp only [closing?, Option.bind_eq_bind, Option.bind_eq_some_iff,
    Text.dropPrefix?_eq_some_iff] at h
  obtain ⟨s₁, h₁, ⟨a, s₂⟩, h₂, s₃, h₃, ⟨b, s₄⟩, h₄, s₅, h₅, ⟨c, s₆⟩, h₆, s₇, h₇, e⟩ := h
  cases e
  obtain ⟨h₂, -⟩ := space?_eq_some h₂
  obtain ⟨h₄, -⟩ := space?_eq_some h₄
  obtain ⟨h₆, -⟩ := space?_eq_some h₆
  subst h₁ h₂ h₃ h₄ h₅ h₆ h₇
  simp only [List.append_assoc, List.cons_append]

/-- A closing marker is not empty. -/
theorem closing?_ne_nil {name s rest written : Text}
    (h : closing? name s = some (written, rest)) : written ≠ [] := by
  simp only [closing?, Option.bind_eq_bind, Option.bind_eq_some_iff] at h
  obtain ⟨_, -, ⟨a, _⟩, -, _, -, ⟨b, _⟩, -, _, -, ⟨c, _⟩, -, _, -, e⟩ := h
  cases e
  simp [opener]

/-- The closing markers of one name, as written. -/
def closingPattern (name : Text) : Pattern Text where
  match? := closing? name
  consumes h := ⟨_, closing?_ne_nil h, eq_append_of_closing? h⟩

end DocumentMerge.Region
