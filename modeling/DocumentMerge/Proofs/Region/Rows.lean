import DocumentMerge.Proofs.Region.Marking
import DocumentMerge.Proofs.Region.Unwrapping
import DocumentMerge.Region.TableRow
import Mathlib.Data.List.TakeWhile

/-!
# Row markers and a second pass

A table row is found by text search, from a start tag to the nearest end tag, and when it holds a
`row.NAME` region the markers of this name move onto it.  Markers of another row name stay where
they are.  So one pass need not be the end of it: a second pass finds the row again, now between
markers, and moves the next name.

* `replace_eq_self_iff`: replacing whole matches by texts that begin otherwise leaves a text as it
  is only if it changes no match.
* `rowAt?_append`: whether a row ends where it does is settled by the row alone, not by what stands
  behind it.
* `marker?` and `stripped`: the first row marker of a row, and the row without the markers of that
  name.
* `rows_normalizeRows`: the rows of a normalised text are the stripped rows, if each of them still
  is one row and no name holds a `<`.
* `normalizeRows_twice_iff`: a second pass changes nothing exactly when no row of the first result
  holds a row marker.  `normalizeRows_twice_two_names` is a row with two names.
-/

namespace DocumentMerge

namespace Pattern

variable {α : Type} {p : Pattern α}

/-- Where a fixed text is found first is settled by what stands before it and the text itself. -/
theorem literal_first?_append {c : Char} {cs s : Text} {m : Match Unit}
    (h : (literal c cs).first? s = some m) (t : Text) :
    (literal c cs).first? (m.before ++ ((c :: cs) ++ t)) = some ⟨m.before, (), t⟩ := by
  obtain ⟨found, cut, matched⟩ := eq_append_of_first? _ h
  have here := literal_match?_eq_some_iff.1 matched
  have passed : ∀ b, b <:+ m.before → b ≠ [] →
      (literal c cs).match? (b ++ ((c :: cs) ++ t)) = none := by
    intro b suffix nonempty
    refine literal_match?_eq_none fun earlier => ?_
    -- an earlier occurrence would end within the text that is searched for
    have within : (c :: cs) <+: b ++ (c :: cs) := by
      refine List.prefix_of_prefix_length_le earlier ⟨t, by simp⟩ ?_
      simp only [List.length_append]
      omega
    obtain ⟨rest, e⟩ := within
    have again : (literal c cs).match? (b ++ found) = some ((), rest ++ m.after) := by
      rw [literal_match?_eq_some_iff, here, ← List.append_assoc b, ← e, List.append_assoc]
    rw [match?_eq_none_of_first? h cut suffix nonempty] at again
    cases again
  have hit : (literal c cs).match? ((c :: cs) ++ t) = some ((), t) :=
    literal_match?_eq_some_iff.2 rfl
  rw [first?_append_of_unmatched passed, first?_of_match hit]
  simp

/-! ## Replacing whole matches -/

/-- Writing texts in the place of whole matches changes nothing only if every match is written as
it was, provided a text that differs from its match differs from it also when something follows. -/
theorem replace_eq_self_iff {p : Pattern Text} {write : Text → Text}
    (whole : ∀ {s a rest}, p.match? s = some (a, rest) → s = a ++ rest)
    (differs : ∀ {s a rest}, p.match? s = some (a, rest) → write a ≠ a →
      ∀ t u, write a ++ t ≠ a ++ u) (s : Text) :
    p.replace write s = s ↔ ∀ a ∈ p.values s, write a = a := by
  cases found : p.first? s with
  | none => simp [replace_of_none found, values_of_none found]
  | some m =>
    obtain ⟨here, cut, matched⟩ := eq_append_of_first? _ found
    have behind := p.length_after_first? found
    have rest := replace_eq_self_iff whole differs m.after
    rw [values_of_some found, List.forall_mem_cons, ← rest, replace_of_some found]
    have split : s = m.before ++ (m.value ++ m.after) := by rw [cut, whole matched]
    conv => lhs; rhs; rw [split]
    rw [List.append_assoc, List.append_cancel_left_eq]
    constructor
    · intro same
      have value : write m.value = m.value := by
        by_contra other
        exact differs matched other _ _ same
      rw [value, List.append_cancel_left_eq] at same
      exact ⟨value, same⟩
    · rintro ⟨value, same⟩
      rw [value, same]
termination_by s.length

end Pattern

namespace Region

/-! ## Rows stand by themselves -/

/-- What ends the start tag of a row behind its name. -/
def IsTagEnd (tag : Text) : Prop :=
  ∃ inside, tag = inside ++ ['>'] ∧ '>' ∉ inside ∧ ∀ c ∈ inside.head?, isMarkerSpace c = true

theorem rowTagEnd?_eq_some_iff {s tag rest : Text} :
    rowTagEnd? s = some (tag, rest) ↔ IsTagEnd tag ∧ s = tag ++ rest := by
  constructor
  · intro h
    refine ⟨?_, eq_append_of_rowTagEnd? h⟩
    unfold rowTagEnd? at h
    split at h
    · cases h
      exact ⟨[], rfl, by simp, by simp⟩
    · next c t _ =>
      split at h
      · next space =>
        split at h
        · next found =>
          cases h
          refine ⟨(c :: t).takeWhile fun c => c != '>', rfl, fun mem => ?_, fun d mem => ?_⟩
          · simpa using List.mem_takeWhile_imp mem
          · have plain : (c != '>') = true := by
              by_contra other
              have e : c = '>' := by simpa using other
              subst e
              cases space
            rw [List.takeWhile_cons_of_pos (p := fun c => c != '>') plain] at mem
            cases mem
            exact space
        · cases h
      · cases h
    · cases h
  · rintro ⟨⟨inside, rfl, plain, space⟩, rfl⟩
    cases inside with
    | nil => rfl
    | cons c inside =>
      have spaced : isMarkerSpace c = true := space c rfl
      have other : c ≠ '>' := fun e => plain (e ▸ List.mem_cons_self)
      have stop : ∀ d ∈ c :: inside, (d != '>') = true := by
        intro d mem
        have : d ≠ '>' := fun e => plain (e ▸ mem)
        simpa using this
      have cut : (c :: inside) ++ ['>'] ++ rest = (c :: inside) ++ '>' :: rest := by simp
      have taken : ((c :: inside) ++ '>' :: rest).takeWhile (fun d => d != '>') = c :: inside := by
        rw [List.takeWhile_append_of_pos stop, List.takeWhile_cons_of_neg (by simp),
          List.append_nil]
      have left : ((c :: inside) ++ '>' :: rest).dropWhile (fun d => d != '>') = '>' :: rest := by
        rw [List.dropWhile_append_of_pos stop, List.dropWhile_cons_of_neg (by simp)]
      rw [cut]
      rw [List.cons_append] at taken left ⊢
      unfold rowTagEnd?
      split
      · next e => exact absurd (List.cons.inj e).1 other
      · next e =>
        obtain ⟨rfl, rfl⟩ := List.cons.inj e
        rw [if_pos spaced, left, taken]
      · next e => cases e

/-- A row: a start tag, a content that goes up to the nearest end tag, and this end tag. -/
theorem rowAt?_eq_some_iff {s row rest : Text} :
    rowAt? s = some (row, rest) ↔ ∃ tag inner, IsTagEnd tag ∧
      rowEndPattern.first? (inner ++ rowEnd) = some ⟨inner, (), []⟩ ∧
      row = rowTag ++ tag ++ inner ++ rowEnd ∧ s = row ++ rest := by
  simp only [rowAt?, Option.bind_eq_bind, Option.bind_eq_some_iff,
    Text.dropPrefix?_eq_some_iff]
  constructor
  · rintro ⟨behind, rfl, ⟨tag, content⟩, tagged, m, found, e⟩
    cases e
    obtain ⟨shape, rfl⟩ := rowTagEnd?_eq_some_iff.1 tagged
    have alone := Pattern.literal_first?_append found []
    obtain ⟨here, cut, closed⟩ := Pattern.eq_append_of_first? _ found
    have closed := Pattern.literal_match?_eq_some_iff.1 closed
    refine ⟨tag, m.before, shape, by simpa [rowEnd, rowEndPattern] using alone, rfl, ?_⟩
    simp only at cut
    rw [cut, closed]
    simp [rowEnd]
  · rintro ⟨tag, inner, shape, nearest, rfl, rfl⟩
    refine ⟨tag ++ inner ++ rowEnd ++ rest, by simp, (tag, inner ++ rowEnd ++ rest),
      rowTagEnd?_eq_some_iff.2 ⟨shape, by simp⟩, ⟨inner, (), rest⟩, ?_, rfl⟩
    have := Pattern.literal_first?_append nearest rest
    simpa [rowEnd, rowEndPattern] using this

/-- A row ends where it does whatever stands behind it. -/
theorem rowAt?_append {s row rest : Text} (h : rowAt? s = some (row, rest)) (t : Text) :
    rowAt? (row ++ t) = some (row, t) := by
  obtain ⟨tag, inner, shape, nearest, e, -⟩ := rowAt?_eq_some_iff.1 h
  exact rowAt?_eq_some_iff.2 ⟨tag, inner, shape, nearest, e, rfl⟩

/-- The rows of a text, in order. -/
def rows (content : Text) : List Text :=
  rowPattern.values content

theorem rowPattern_beginsWith : rowPattern.BeginsWith '<' := by
  intro s rest row h
  obtain ⟨tag, inner, -, -, rfl, rfl⟩ := rowAt?_eq_some_iff.1 h
  exact ⟨_, rfl⟩

/-- A start tag that is followed by an end tag somewhere is the beginning of a row. -/
theorem rowAt?_ne_none {inside behind : Text} (plain : '>' ∉ inside)
    (space : ∀ c ∈ inside.head?, isMarkerSpace c = true) (ended : rowEnd <:+: behind) :
    rowAt? (rowTag ++ (inside ++ '>' :: behind)) ≠ none := by
  have tagged : rowTagEnd? (inside ++ '>' :: behind) = some (inside ++ ['>'], behind) :=
    rowTagEnd?_eq_some_iff.2 ⟨⟨inside, rfl, plain, space⟩, by simp⟩
  cases found : rowEndPattern.first? behind with
  | none => exact absurd ended (Pattern.literal_first?_eq_none_iff.1 found)
  | some m =>
    intro none
    simp [rowAt?, dropPrefix?_append, tagged, found] at none

/-- What stands behind some occurrence of a character stands behind the first one too. -/
theorem suffix_of_append_cons {c : Char} {x y z w : Text} (first : c ∉ x)
    (h : x ++ c :: y = z ++ c :: w) : w <:+ y := by
  rcases List.append_eq_append_iff.1 h with ⟨a, rfl, e⟩ | ⟨a, rfl, e⟩
  · cases a with
    | nil =>
      cases e
      exact List.suffix_rfl
    | cons d a =>
      obtain ⟨-, rfl⟩ := List.cons.inj e
      exact ⟨a ++ [c], by simp⟩
  · cases a with
    | nil =>
      cases e
      exact List.suffix_rfl
    | cons d a =>
      obtain ⟨rfl, -⟩ := List.cons.inj e
      exact absurd (by simp) first

/-- What a row begins with, if it begins in a piece that is followed by a bracket: the whole name of
the start tag and the character behind it are in the piece. -/
theorem exists_of_rowAt?_gap {b t : Text} {c : Char} {hit : Text × Text} (nonempty : b ≠ [])
    (bracket : c = '[' ∨ c = '<') (read : rowAt? (b ++ c :: t) = some hit) :
    ∃ d b', b = rowTag ++ d :: b' ∧ (d = '>' ∨ isMarkerSpace d = true) := by
  obtain ⟨tag, inner, ⟨inside, rfl, -, space⟩, -, row, whole⟩ :=
    rowAt?_eq_some_iff.1 (show _ = some (hit.1, hit.2) from read)
  -- the character behind the name of the tag
  obtain ⟨d, y, behind, kind⟩ : ∃ d y, inside ++ '>' :: (inner ++ rowEnd ++ hit.2) = d :: y ∧
      (d = '>' ∨ isMarkerSpace d = true) := by
    cases inside with
    | nil => exact ⟨_, _, rfl, .inl rfl⟩
    | cons d inside => exact ⟨_, _, rfl, .inr (space d rfl)⟩
  have other : d ≠ c := by
    rintro rfl
    rcases bracket with rfl | rfl <;> rcases kind with kind | kind <;> cases kind
  have whole : b ++ c :: t = rowTag ++ d :: y := by
    rw [whole, row, ← behind]
    simp
  rcases List.append_eq_append_iff.1 whole with ⟨a, name, e⟩ | ⟨a, rfl, e⟩
  · exfalso
    cases a with
    | nil => exact other (List.cons.inj e).1.symm
    | cons f a =>
      obtain ⟨rfl, -⟩ := List.cons.inj e
      cases b with
      | nil => exact nonempty rfl
      | cons g b =>
        have mem : c ∈ "table:table-row".toList := by
          rw [show "table:table-row".toList = b ++ c :: a from (List.cons.inj name).2]
          simp
        rcases bracket with rfl | rfl <;> exact absurd mem (by decide)
  · cases a with
    | nil => exact absurd (List.cons.inj e).1 other
    | cons f a =>
      obtain ⟨rfl, -⟩ := List.cons.inj e
      exact ⟨d, a, rfl, kind⟩

/-- In the text before a row no row begins, whatever takes the place of the row, as long as that
begins with a bracket. -/
theorem rowAt?_eq_none_of_gap {b row rest : Text} (nonempty : b ≠ [])
    (gap : rowAt? (b ++ (row ++ rest)) = none) (isRow : rowAt? (row ++ rest) = some (row, rest))
    {c : Char} (bracket : c = '[' ∨ c = '<') (t : Text) : rowAt? (b ++ c :: t) = none := by
  cases read : rowAt? (b ++ c :: t) with
  | none => rfl
  | some hit =>
    exfalso
    obtain ⟨d, b', rfl, kind⟩ := exists_of_rowAt?_gap nonempty bracket read
    obtain ⟨tag, inner, ⟨inside, rfl, -, -⟩, -, rfl, -⟩ := rowAt?_eq_some_iff.1 isRow
    -- the start tag in the piece ends at the end of the row's own start tag at the latest
    have last : (d :: b') ++ (rowTag ++ (inside ++ ['>']) ++ inner ++ rowEnd ++ rest)
        = (d :: b') ++ rowTag ++ inside ++ '>' :: (inner ++ rowEnd ++ rest) := by simp
    obtain ⟨x, y, first, plain⟩ := List.eq_append_cons_of_mem
      (show '>' ∈ (d :: b') ++ (rowTag ++ (inside ++ ['>']) ++ inner ++ rowEnd ++ rest) by
        rw [last]; simp)
    have ended : rowEnd <:+: y :=
      List.IsInfix.trans ⟨inner, rest, rfl⟩
        (suffix_of_append_cons plain (first.symm.trans last)).isInfix
    refine rowAt?_ne_none plain (fun e mem => ?_) ended ?_
    · cases x with
      | nil => cases mem
      | cons f x =>
        obtain ⟨rfl, -⟩ := List.cons.inj first
        cases mem
        rcases kind with rfl | space
        · exact absurd List.mem_cons_self plain
        · exact space
    · rw [← first, ← List.append_assoc]
      exact gap

/-! ## Row markers -/

theorem rowTarget?_eq_some_iff {name target : Text} :
    rowTarget? name = some target ↔ name = rowPrefix ++ target ∧ target ≠ [] := by
  simp [rowTarget?, Option.filter_eq_some_iff, Text.dropPrefix?_eq_some_iff]

/-- The name of the first row marker in a row. -/
def marker? (row : Text) : Option Text :=
  (first? (fun name => (rowTarget? name).isSome) row).map fun m => m.value.name

/-- A row without the markers of its first row name. -/
def stripped (row : Text) : Text :=
  match marker? row with
  | some name => unwrap name row
  | none => row

theorem stripped_of_none {row : Text} (h : marker? row = none) : stripped row = row := by
  rw [stripped, h]

theorem normalizeRow_of_none {row : Text} (h : marker? row = none) : normalizeRow row = row := by
  rw [marker?, Option.map_eq_none_iff] at h
  rw [normalizeRow, h]

/-- A row with a marker is stripped and enclosed. -/
theorem normalizeRow_of_marker {row name : Text} (h : marker? row = some name) :
    ∃ target, name = rowPrefix ++ target ∧
      normalizeRow row = beginMarker target ++ stripped row ++ endMarker target := by
  have strip : stripped row = unwrap name row := by rw [stripped, h]
  rw [marker?, Option.map_eq_some_iff] at h
  obtain ⟨m, found, rfl⟩ := h
  obtain ⟨here, -, matched⟩ := Pattern.eq_append_of_first? _ found
  have matched : at? (fun name => (rowTarget? name).isSome) here = some (m.value, m.after) := matched
  obtain ⟨target, named⟩ := Option.isSome_iff_exists.1 (isMarker_of_at? matched).1
  refine ⟨target, (rowTarget?_eq_some_iff.1 named).1, ?_⟩
  rw [normalizeRow, found, strip]
  simp only [named]

/-- Every row that is found is one. -/
theorem rowAt?_of_mem_rows {content row : Text} (mem : row ∈ rows content) :
    rowAt? row = some (row, []) := by
  obtain ⟨hit, found, rfl⟩ := List.mem_map.1 mem
  obtain ⟨_, _, _, -, matched⟩ := Pattern.exists_of_mem_split _ found
  simpa using rowAt?_append matched []

/-- Normalising changes the first character of a row with a marker. -/
theorem normalizeRow_append_ne {row name : Text} (isRow : rowAt? row = some (row, []))
    (marked : marker? row = some name) (t u : Text) : normalizeRow row ++ t ≠ row ++ u := by
  obtain ⟨target, -, written⟩ := normalizeRow_of_marker marked
  obtain ⟨rest, row⟩ := rowPattern_beginsWith isRow
  rw [written, beginMarker_eq_cons, row]
  intro e
  cases (List.cons.inj e).1

/-- A text stays as it is exactly when no row of it has a marker. -/
theorem normalizeRows_eq_self_iff (content : Text) :
    normalizeRows content = content ↔ ∀ row ∈ rows content, marker? row = none := by
  have whole {s row rest : Text} (h : rowPattern.match? s = some (row, rest)) : s = row ++ rest :=
    (eq_append_of_rowAt? h).1
  have differs {s row rest : Text} (h : rowPattern.match? s = some (row, rest))
      (changed : normalizeRow row ≠ row) : ∀ t u, normalizeRow row ++ t ≠ row ++ u := by
    cases marked : marker? row with
    | none => exact absurd (normalizeRow_of_none marked) changed
    | some name => exact normalizeRow_append_ne (by simpa using rowAt?_append h []) marked
  rw [normalizeRows, Pattern.replace_eq_self_iff whole differs]
  refine forall₂_congr fun row mem => ⟨fun same => ?_, normalizeRow_of_none⟩
  cases marked : marker? row with
  | none => rfl
  | some name =>
    exact absurd (congrArg (· ++ []) same)
      (normalizeRow_append_ne (rowAt?_of_mem_rows mem) marked [] [])

/-! ## A second pass -/

/-- A row that is still one row when it is stripped, and whose row name holds no `<`. -/
def Intact (row : Text) : Prop :=
  ∀ name ∈ marker? row, '<' ∉ name ∧ rowAt? (stripped row) = some (stripped row, [])

instance (row : Text) : Decidable (Intact row) :=
  inferInstanceAs (Decidable (∀ name ∈ marker? row, _))

theorem skips_beginMarker {n : Text} (plain : '<' ∉ n) : rowPattern.Skips (beginMarker n) := by
  refine rowPattern_beginsWith.skips_of_notMem ?_
  simp [beginMarker, opener, beginWord, closer, plain]

theorem skips_endMarker {n : Text} (plain : '<' ∉ n) : rowPattern.Skips (endMarker n) := by
  refine rowPattern_beginsWith.skips_of_notMem ?_
  simp [endMarker, opener, endWord, closer, plain]

/-- A scan finds the stripped row in the place of the row. -/
theorem rows_normalizeRow_append {row : Text} (isRow : rowAt? row = some (row, []))
    (intact : Intact row) (t : Text) : rows (normalizeRow row ++ t) = stripped row :: rows t := by
  cases marked : marker? row with
  | none =>
    rw [normalizeRow_of_none marked, stripped_of_none marked]
    exact Pattern.values_of_match (rowAt?_append isRow t)
  | some name =>
    obtain ⟨plain, whole⟩ := intact name marked
    obtain ⟨target, rfl, written⟩ := normalizeRow_of_marker marked
    have plain : '<' ∉ target := fun mem => plain (List.mem_append_right _ mem)
    have found : rowPattern.match? (stripped row ++ (endMarker target ++ t))
        = some (stripped row, endMarker target ++ t) := rowAt?_append whole _
    rw [written, List.append_assoc, List.append_assoc, rows,
      Pattern.values_append (skips_beginMarker plain), Pattern.values_of_match found,
      Pattern.values_append (skips_endMarker plain)]
    rfl

/-- The rows of a normalised text are the stripped rows. -/
theorem rows_normalizeRows {content : Text} (intact : ∀ row ∈ rows content, Intact row) :
    rows (normalizeRows content) = (rows content).map stripped := by
  cases found : rowPattern.first? content with
  | none =>
    rw [normalizeRows, Pattern.replace_of_none found, rows, Pattern.values_of_none found]
    rfl
  | some m =>
    obtain ⟨here, cut, matched⟩ := Pattern.eq_append_of_first? _ found
    have behind := rowPattern.length_after_first? found
    have listed : rows content = m.value :: rows m.after := Pattern.values_of_some found
    have whole : here = m.value ++ m.after := (eq_append_of_rowAt? matched).1
    subst whole
    rw [listed, List.forall_mem_cons] at intact
    have isRow : rowAt? m.value = some (m.value, []) := by simpa using rowAt?_append matched []
    -- the row is replaced by a text that begins with a bracket
    obtain ⟨c, t, written, bracket⟩ : ∃ c t, normalizeRow m.value = c :: t ∧ (c = '[' ∨ c = '<') := by
      cases marked : marker? m.value with
      | none =>
        obtain ⟨t, e⟩ := rowPattern_beginsWith isRow
        exact ⟨'<', t, (normalizeRow_of_none marked).trans e, .inr rfl⟩
      | some name =>
        obtain ⟨target, -, e⟩ := normalizeRow_of_marker marked
        rw [beginMarker_eq_cons] at e
        exact ⟨'[', _, e, .inl rfl⟩
    have gap : ∀ b, b <:+ m.before → b ≠ [] →
        rowPattern.match? (b ++ (normalizeRow m.value ++ normalizeRows m.after)) = none := by
      intro b suffix nonempty
      rw [written]
      exact rowAt?_eq_none_of_gap nonempty
        (Pattern.match?_eq_none_of_first? found cut suffix nonempty) matched bracket _
    have again : rows (normalizeRows m.after) = (rows m.after).map stripped :=
      rows_normalizeRows intact.2
    rw [listed, List.map_cons, ← again, ← rows_normalizeRow_append isRow intact.1, normalizeRows,
      Pattern.replace_of_some found, List.append_assoc]
    exact Pattern.values_append_of_unmatched gap
termination_by content.length

/-- **When a second pass changes nothing**: exactly when no row of the result holds a row marker.
If every row is intact, this is so exactly when no row holds markers of two row names, that is when
no row marker is left in a row that was stripped. -/
theorem normalizeRows_twice_iff (content : Text) :
    (normalizeRows (normalizeRows content) = normalizeRows content ↔
        ∀ row ∈ rows (normalizeRows content), marker? row = none) ∧
      ((∀ row ∈ rows content, Intact row) →
        (normalizeRows (normalizeRows content) = normalizeRows content ↔
          ∀ row ∈ rows content, marker? (stripped row) = none)) := by
  refine ⟨normalizeRows_eq_self_iff _, fun intact => ?_⟩
  rw [normalizeRows_eq_self_iff, rows_normalizeRows intact, List.forall_mem_map]

/-- Two rows, the second with a marker that spans its cells: the first pass encloses it, and a second
one changes nothing. -/
theorem normalizeRows_twice_one_name :
    let content := rowTag ++ '>' :: 'x' :: rowEnd ++ rowTag ++ " a=\"r\">".toList
      ++ wrap "row.n".toList "1</c><c>2".toList ++ rowEnd
    (∀ row ∈ rows content, Intact row) ∧ normalizeRows content ≠ content ∧
      normalizeRows (normalizeRows content) = normalizeRows content := by
  intro content
  have intact : ∀ row ∈ rows content, Intact row := by decide +kernel
  exact ⟨intact, by decide +kernel,
    ((normalizeRows_twice_iff content).2 intact).2 (by decide +kernel)⟩

/-- A row with markers of two names: the first pass moves the first name onto the row, and a second
pass moves the other one. -/
theorem normalizeRows_twice_two_names :
    let content := rowTag ++ '>' :: wrap "row.a".toList ['1'] ++ wrap "row.b".toList ['2'] ++ rowEnd
    let once := wrap "a".toList (rowTag ++ '>' :: '1' :: wrap "row.b".toList ['2'] ++ rowEnd)
    let twice := wrap "a".toList (wrap "b".toList (rowTag ++ '>' :: '1' :: '2' :: rowEnd))
    normalizeRows content = once ∧ normalizeRows (normalizeRows content) = twice ∧
      normalizeRows (normalizeRows content) ≠ normalizeRows content := by
  decide +kernel

end Region

end DocumentMerge
