import DocumentMerge.Proofs.Region.Elements

/-!
# Which row a marker is moved onto

A row marker should end up around the innermost row element that it stands in.  The row that is
enclosed is found by the nearest end tag, and no start tag on the way is counted.

* `Erased`: a text from which markers of one name were taken out.  If the markers stand apart from
  the row tags, the row tags stay (`tags_of_erased`).
* `Innermost`: a row element such that every row element of the content that goes over a marker in
  it goes over the whole row.
* `Childless`: a row that begins with a start tag and has no other start tag.
* `normalizeRows_encloses`: what is enclosed for a row is one row element, and the innermost one, if
  and only if the row is childless.  A row whose cells hold a table in front of the marker is
  not, nor is one that begins with an empty row: `normalizeRows_cuts_row`.
-/

namespace DocumentMerge

namespace Pattern

/-! ## One hit of a scan -/

/-- The gaps in front of hits and what is written for these. -/
def assemble {α : Type} (write : α → Text) (hits : List (Text × α)) : Text :=
  hits.flatMap fun hit => hit.1 ++ write hit.2

/-- A scan at one of its hits: the text is cut in front of the hit and behind it, and replacing goes
on behind it. -/
theorem exists_of_split {p : Pattern Text} (write : Text → Text)
    (whole : ∀ {s a rest}, p.match? s = some (a, rest) → s = a ++ rest)
    {s gap a : Text} {earlier later : List (Text × Text)}
    (cut : (p.split s).1 = earlier ++ (gap, a) :: later) :
    ∃ after, s = assemble id earlier ++ gap ++ (a ++ after) ∧
      p.match? (a ++ after) = some (a, after) ∧
      p.replace write s
        = assemble write earlier ++ gap ++ write a ++ p.replace write after := by
  induction earlier generalizing s with
  | nil =>
    cases found : p.first? s with
    | none => simp [split_of_none found] at cut
    | some m =>
      rw [split_of_some found] at cut
      obtain ⟨hit, -⟩ := List.cons.inj cut
      obtain ⟨rfl, rfl⟩ := Prod.mk.inj hit
      obtain ⟨here, e, matched⟩ := eq_append_of_first? _ found
      have split := whole matched
      subst split
      exact ⟨m.after, e, matched, replace_of_some found⟩
  | cons hit earlier ih =>
    cases found : p.first? s with
    | none => simp [split_of_none found] at cut
    | some m =>
      rw [split_of_some found] at cut
      obtain ⟨rfl, later⟩ := List.cons.inj cut
      obtain ⟨here, e, matched⟩ := eq_append_of_first? _ found
      obtain ⟨after, behind, again, replaced⟩ := ih later
      refine ⟨after, ?_, again, ?_⟩
      · rw [e, whole matched, behind]
        simp [assemble]
      · rw [replace_of_some found, replaced]
        simp [assemble]

end Pattern

namespace Region

variable {n : Text}

/-! ## Taking markers out -/

/-- What is left of a text when markers of a name are taken out of it. -/
inductive Erased (n : Text) : Text → Text → Prop
  | whole (s : Text) : Erased n s s
  | marker {w y z : Text} (x : Text) :
      IsMarker n w → Erased n y z → Erased n (x ++ (w ++ y)) (x ++ z)

/-- Unwrapping takes out markers and nothing else. -/
theorem erased_unwrap (n s : Text) : Erased n s (unwrap n s) := by
  rw [unwrap]
  cases found : (pattern fun m => m == n).first? s with
  | none =>
    rw [Pattern.replace_of_none found]
    exact .whole s
  | some m =>
    obtain ⟨here, cut, matched⟩ := Pattern.eq_append_of_first? _ found
    have behind := (pattern fun m => m == n).length_after_first? found
    have matched : at? (fun m => m == n) here = some (m.value, m.after) := matched
    obtain ⟨named, opening, closing⟩ := isMarker_of_at? matched
    have named : m.value.name = n := by simpa using named
    rw [named] at opening closing
    have rest : Erased n m.after ((pattern fun m => m == n).replace Region.inner m.after) :=
      erased_unwrap n m.after
    have inside := Erased.marker m.before opening (Erased.marker m.value.inner closing rest)
    rw [Pattern.replace_of_some found, cut, (eq_append_of_at? matched).1, outer]
    simpa using inside
termination_by s.length

/-- The markers of a name stand apart from row tags: no tag goes on into one, and none holds a
tag. -/
def Apart (n t : Text) : Prop :=
  ∀ x w y, t = x ++ (w ++ y) → IsMarker n w → rowTags.Settled x ∧ '<' ∉ w

theorem Apart.of_append {x y : Text} (h : Apart n (x ++ y)) : Apart n y := by
  intro u w v e marker
  obtain ⟨settled, free⟩ := h (x ++ u) w v (by rw [e]; simp) marker
  exact ⟨settled.of_suffix (List.suffix_append x u), free⟩

/-- Markers of a text without tags stand apart from the tag in front of it. -/
theorem apart_of_content {tag inner behind : Text} {k : RowTag}
    (read : rowTag? tag = some (k, [])) (left : '[' ∉ tag) (free : '<' ∉ inner)
    (right : ']' ∉ behind) : Apart n (tag ++ inner ++ behind) := by
  intro x w y e marker
  obtain ⟨inside, rfl⟩ := marker.framed
  -- the marker does not begin in the tag
  obtain ⟨a, rfl, rest⟩ : ∃ a, x = tag ++ a ∧
      inner ++ behind = a ++ ('[' :: (inside ++ [']']) ++ y) := by
    rw [List.append_assoc] at e
    rcases List.append_eq_append_iff.1 e with ⟨a, e₁, e₂⟩ | ⟨a, rfl, e₂⟩
    · exact ⟨a, e₁, e₂⟩
    · cases a with
      | nil => exact ⟨[], by simp, by simpa using e₂.symm⟩
      | cons d a =>
        obtain ⟨rfl, -⟩ := List.cons.inj e₂
        exact absurd (by simp) left
  -- and it does not end behind the text
  have within : a ++ '[' :: (inside ++ [']']) <+: inner := by
    rw [← List.append_assoc] at rest
    rcases List.append_eq_append_iff.1 rest with ⟨d, e₁, rfl⟩ | ⟨d, rfl, -⟩
    · rcases List.eq_nil_or_concat d with rfl | ⟨d, c, rfl⟩
      · exact ⟨[], by simpa using e₁⟩
      · rw [List.concat_eq_append, ← List.cons_append, ← List.append_assoc, ← List.append_assoc] at e₁
        rw [← List.singleton_inj.1 (List.append_inj' e₁ rfl).2, List.concat_eq_append] at right
        exact absurd (by simp) right
    · exact List.prefix_append _ d
  have plain : '<' ∉ a ++ '[' :: (inside ++ [']']) := fun mem => free (within.subset mem)
  rw [List.mem_append, not_or] at plain
  exact ⟨(settled_of_rowTag? read).append (rowTags_beginsWith.settled_of_notMem plain.1), plain.2⟩

theorem IsMarker.ne_rowTag {w y : Text} (h : IsMarker n w) : rowTag? (w ++ y) = none := by
  obtain ⟨inside, rfl⟩ := h.framed
  exact rowTags_beginsWith.match?_cons (by decide : '[' ≠ '<') (inside ++ [']'] ++ y)

/-- Taking out markers takes out no row tag. -/
theorem tags_of_erased {s t : Text} (h : Erased n s t) (apart : Apart n s) : tags t = tags s := by
  induction h with
  | whole s => rfl
  | @marker w y z x marker _ ih =>
    obtain ⟨settled, free⟩ := apart x w y rfl marker
    have passed : tags (w ++ y) = tags y :=
      Pattern.values_append (rowTags_beginsWith.skips_of_notMem free) y
    have later : Apart n y := apart.of_append.of_append
    calc tags (x ++ z) = tags x ++ tags z := Pattern.values_append_of_parts (settled z)
      _ = tags x ++ tags (w ++ y) := by rw [ih later, passed]
      _ = tags (x ++ (w ++ y)) := (Pattern.values_append_of_parts (settled (w ++ y))).symm

/-- The tag in front is in front of the first marker. -/
theorem rowTag?_of_erased {s t rest : Text} {k : RowTag} (h : Erased n s t) (apart : Apart n s)
    (read : rowTag? s = some (k, rest)) : ∃ rest', rowTag? t = some (k, rest') := by
  cases h with
  | whole => exact ⟨rest, read⟩
  | @marker w y z x marker _ =>
    cases x with
    | nil =>
      rw [List.nil_append, marker.ne_rowTag] at read
      cases read
    | cons c x =>
      obtain ⟨settled, -⟩ := apart (c :: x) w y rfl marker
      obtain ⟨inner, here, -⟩ := (settled (w ++ y)).exists_of_match (List.cons_ne_nil _ _) read
      exact ⟨inner ++ z, rowTag?_append here z⟩

/-- An end tag at the end of a text is behind all markers. -/
theorem rowEnd_suffix_of_append {w x y : Text} (marker : IsMarker n w)
    (ended : rowEnd <:+ x ++ (w ++ y)) : rowEnd <:+ y := by
  have last : y <:+ x ++ (w ++ y) := ⟨x ++ w, by simp⟩
  rcases List.suffix_or_suffix_of_suffix ended last with within | ⟨r, beyond⟩
  · exact within
  · -- the end tag would hold the bracket that ends the marker
    obtain ⟨inside, rfl⟩ := marker.framed
    obtain ⟨z, cut⟩ := ended
    rw [← beyond] at cut
    have cut : z ++ r = x ++ '[' :: (inside ++ [']']) := by
      refine (List.append_left_inj y).1 ?_
      simpa using cut
    rcases List.eq_nil_or_concat r with rfl | ⟨r, c, rfl⟩
    · exact ⟨[], beyond.symm⟩
    · rw [List.concat_eq_append] at cut beyond
      have bracket : c = ']' := by
        rw [← List.cons_append, ← List.append_assoc, ← List.append_assoc] at cut
        exact List.singleton_inj.1 (List.append_inj' cut rfl).2
      have mem : ']' ∈ rowEnd := by
        rw [← beyond, bracket]
        simp
      exact absurd mem (by decide)

theorem rowEnd_suffix_of_erased {s t : Text} (h : Erased n s t) (ended : rowEnd <:+ s) :
    rowEnd <:+ t := by
  induction h with
  | whole => exact ended
  | marker x marker _ ih =>
    exact (ih (rowEnd_suffix_of_append marker ended)).trans (List.suffix_append x _)

/-- The tag in front of what is left is the tag in front of the text. -/
theorem rowTag?_of_erased_left {s t rest : Text} {k : RowTag} (h : Erased n s t)
    (apart : Apart n s) (start : ∀ c ∈ s.head?, c = '<') (read : rowTag? t = some (k, rest)) :
    ∃ rest', rowTag? s = some (k, rest') := by
  cases h with
  | whole => exact ⟨rest, read⟩
  | @marker w y z x marker _ =>
    cases x with
    | nil =>
      obtain ⟨inside, rfl⟩ := marker.framed
      cases start '[' rfl
    | cons c x =>
      obtain ⟨settled, -⟩ := apart (c :: x) w y rfl marker
      obtain ⟨inner, here, -⟩ := (settled z).exists_of_match (List.cons_ne_nil _ _) read
      exact ⟨inner ++ (w ++ y), rowTag?_append here (w ++ y)⟩

/-! ## Rows without rows in them -/

/-- A row that begins with a start tag, and behind it no other row is started. -/
def Childless (row : Text) : Prop :=
  ∃ rest, rowTag? row = some (.opening, rest) ∧ .opening ∉ tags rest

/-- A row that was found has no end tag but the last one behind its first tag. -/
theorem eq_nil_of_rowEnd {row rest u v : Text} {k : RowTag} (found : rowAt? row = some (row, []))
    (read : rowTag? row = some (k, rest)) (cut : rest = u ++ (rowEnd ++ v)) : v = [] := by
  obtain ⟨tag, inner, ⟨inside, rfl, plain, -⟩, nearest, spelled, -⟩ := rowAt?_eq_some_iff.1 found
  obtain ⟨inside', -, spelled', -⟩ := exists_of_rowTag? read
  have free : '>' ∉ rowTag ++ inside := by
    rw [List.mem_append, not_or]
    exact ⟨by decide, plain⟩
  have both : rowTag ++ inside ++ '>' :: (inner ++ rowEnd) = '<' :: inside' ++ '>' :: rest := by
    rw [List.cons_append, ← spelled', spelled]
    simp
  obtain ⟨z, behind⟩ := suffix_of_append_cons free both
  -- an end tag that ends earlier would have been found
  by_contra more
  have short : (z ++ u).length < inner.length := by
    have lengths := congrArg List.length behind
    have := List.length_pos_iff.2 more
    simp only [cut, List.length_append] at lengths ⊢
    omega
  have front : z ++ u <+: inner :=
    List.prefix_of_prefix_length_le ⟨rowEnd ++ v, by rw [← behind, cut]; simp⟩
      (List.prefix_append inner rowEnd) short.le
  obtain ⟨b, rfl⟩ := front
  have nonempty : b ≠ [] := by
    rintro rfl
    simp at short
  have tail : b ++ rowEnd = rowEnd ++ v := by
    refine (List.append_right_inj (z ++ u)).1 ?_
    rw [← List.append_assoc, ← behind, cut]
    simp
  have missed := Pattern.match?_eq_none_of_first? nearest rfl (List.suffix_append (z ++ u) b) nonempty
  have hit : rowEndPattern.match? (b ++ rowEnd) = some ((), v) :=
    Pattern.literal_match?_eq_some_iff.2 tail
  rw [missed] at hit
  cases hit

/-- In a row that was found, no row is closed between its first tag and its end tag. -/
theorem closing_notMem_tags {row inner : Text} {k : RowTag} (found : rowAt? row = some (row, []))
    (read : rowTag? row = some (k, inner ++ rowEnd)) : .closing ∉ tags inner := by
  intro mem
  obtain ⟨u, v, rfl⟩ := rowEnd_infix_of_mem_tags mem
  have := eq_nil_of_rowEnd (u := u) (v := v ++ rowEnd) found read (by simp)
  simp [rowEnd] at this

theorem rowEnd_suffix_of_rowAt? {row : Text} (found : rowAt? row = some (row, [])) :
    rowEnd <:+ row := by
  obtain ⟨tag, inner, -, -, rfl, -⟩ := rowAt?_eq_some_iff.1 found
  exact List.suffix_append _ _

/-- The tags of a childless row: behind the first one there are only empty rows and the end tag. -/
theorem tags_of_childless {row : Text} (found : rowAt? row = some (row, [])) (h : Childless row) :
    ∃ rest ks, rowTag? row = some (.opening, rest) ∧ tags row = .opening :: (ks ++ [.closing]) ∧
      Nested ks := by
  obtain ⟨rest, read, free⟩ := h
  obtain ⟨inner, rfl⟩ := exists_inner read (rowEnd_suffix_of_rowAt? found)
  rw [tags_append_end, List.mem_append, not_or] at free
  exact ⟨inner ++ rowEnd, tags inner, read, by rw [tags_of_rowTag? read, tags_append_end],
    .of_notMem free.1 (closing_notMem_tags found read)⟩

/-- A row that was found and begins with a start tag is childless if its tags are nested. -/
theorem childless_of_nested {row rest : Text} (found : rowAt? row = some (row, []))
    (read : rowTag? row = some (.opening, rest)) (nested : Nested (tags row)) : Childless row := by
  obtain ⟨inner, rfl⟩ := exists_inner read (rowEnd_suffix_of_rowAt? found)
  have closed := List.count_eq_zero.2 (closing_notMem_tags found read)
  have counted := nested.count_eq
  rw [tags_of_rowTag? read, tags_append_end] at counted
  have opened : (tags inner).count .opening = 0 := by
    simpa [closed] using counted
  refine ⟨_, read, ?_⟩
  rw [tags_append_end]
  simpa using List.count_eq_zero.1 opened

/-- A childless row from which markers are taken out is one row element. -/
theorem isRow_of_erased {row t : Text} (found : rowAt? row = some (row, [])) (h : Childless row)
    (erased : Erased n row t) (apart : Apart n row) : IsRow t := by
  obtain ⟨rest, ks, read, counted, nested⟩ := tags_of_childless found h
  obtain ⟨rest', kept⟩ := rowTag?_of_erased erased apart read
  have counted : tags t = .opening :: (ks ++ [.closing]) := by
    rw [tags_of_erased erased apart, counted]
  exact isRow_of_tags kept (rowEnd_suffix_of_erased erased (rowEnd_suffix_of_rowAt? found)) counted
    nested

/-- If what is left of a row is one row element, the row is childless. -/
theorem childless_of_erased {row t : Text} (found : rowAt? row = some (row, [])) (h : IsRow t)
    (erased : Erased n row t) (apart : Apart n row) : Childless row := by
  obtain ⟨rest, read⟩ :=
    h.opening_of_suffix (rowEnd_suffix_of_erased erased (rowEnd_suffix_of_rowAt? found))
  obtain ⟨behind, e⟩ := rowPattern_beginsWith found
  obtain ⟨rest', readRow⟩ := rowTag?_of_erased_left erased apart (by simp [e]) read
  have nested := h.nested
  rw [tags_of_erased erased apart] at nested
  exact childless_of_nested found readRow nested

/-! ## The innermost row -/

/-- The piece `e` behind `x` goes over the piece `o` behind `u`, both in the same text. -/
def Around (x e u o : Text) : Prop :=
  x <+: u ∧ u ++ o <+: x ++ e

/-- One row element, the innermost one around the markers of a name that stand in it. -/
structure Innermost (n content before row : Text) : Prop where
  element : IsRow row
  innermost : ∀ a w b, row = a ++ (w ++ b) → IsMarker n w →
    ∀ x e y, content = x ++ (e ++ y) → IsRow e → Around x e (before ++ a) w → Around x e before row

/-- A row element begins with a tag, which is a start tag or all of it. -/
theorem IsRow.read {e : Text} (h : IsRow e) :
    ∃ k rest, rowTag? e = some (k, rest) ∧ (k = .opening ∨ k = .empty ∧ rest = []) := by
  cases h with
  | empty read => exact ⟨.empty, [], read, .inr ⟨rfl, rfl⟩⟩
  | element read nested => exact ⟨.opening, _, rowTag?_element read _, .inl rfl⟩

section Inside

variable {content before after row a w b x e y : Text}

/-- A row element that goes over a marker of a childless row does not begin behind the start of the
row. -/
theorem prefix_before (childless : Childless row) (apart : Apart n row)
    (whole : content = before ++ (row ++ after)) (split : row = a ++ (w ++ b))
    (marker : IsMarker n w) (cut : content = x ++ (e ++ y)) (element : IsRow e)
    (around : Around x e (before ++ a) w) : x <+: before := by
  rcases List.prefix_or_prefix_of_prefix (⟨_, cut.symm⟩ : x <+: content)
    (⟨_, whole.symm⟩ : before <+: content) with within | ⟨a₁, rfl⟩
  · exact within
  cases a₁ with
  | nil => simp
  | cons c a₁ =>
    exfalso
    -- the element begins in the row, between its start and the marker
    obtain ⟨starts, ends⟩ := around
    obtain ⟨a₂, rfl⟩ := (List.prefix_append_right_inj before).1 starts
    obtain ⟨settled, -⟩ := apart _ w b split marker
    have here : e ++ y = a₂ ++ (w ++ (b ++ after)) := by
      refine (List.append_right_inj (before ++ c :: a₁)).1 ?_
      rw [List.append_assoc before, List.append_assoc before]
      rw [whole, split] at cut
      simpa using cut.symm
    obtain ⟨k, rest, read, kind⟩ := element.read
    have nonempty : a₂ ≠ [] := by
      rintro rfl
      have := rowTag?_append read y
      rw [here, List.nil_append, marker.ne_rowTag] at this
      cases this
    -- its first tag is in front of the marker
    obtain ⟨rest₂, inner, behind⟩ :
        ∃ rest₂, rowTag? a₂ = some (k, rest₂) ∧ rest ++ y = rest₂ ++ (w ++ (b ++ after)) := by
      refine (settled.of_suffix (List.suffix_append _ a₂) _).exists_of_match nonempty ?_
      rw [← here]
      exact rowTag?_append read y
    rcases kind with rfl | ⟨rfl, rfl⟩
    · -- a second start tag
      obtain ⟨restRow, readRow, free⟩ := childless
      obtain ⟨a₃, rfl⟩ : ∃ a₃, a₂ = '<' :: a₃ := rowTags_beginsWith inner
      have readRow : rowTag? ((c :: a₁) ++ '<' :: (a₃ ++ (w ++ b))) = some (.opening, restRow) := by
        simpa [split] using readRow
      obtain ⟨rest₁, -, rfl⟩ :=
        (parts_cons (c :: a₁) (a₃ ++ (w ++ b))).exists_of_match (List.cons_ne_nil _ _) readRow
      refine free ?_
      have second : tags ('<' :: (a₃ ++ (w ++ b))) = .opening :: tags (rest₂ ++ (w ++ b)) :=
        tags_of_rowTag? (rowTag?_append inner (w ++ b))
      rw [tags_append_cons, second]
      simp
    · -- an empty row ends in front of the marker
      have lengths := congrArg List.length cut
      rw [whole, split] at lengths
      have behind := congrArg List.length behind
      have ends := ends.length_le
      have := List.length_pos_iff.2 marker.framed.ne_nil
      simp only [List.length_append, List.length_cons, List.nil_append] at lengths behind ends
      omega

/-- A row element that begins at or before a childless row and goes over a marker in it goes over all
of the row. -/
theorem row_prefix (found : rowAt? row = some (row, [])) (childless : Childless row)
    (apart : Apart n row) (whole : content = before ++ (row ++ after)) (split : row = a ++ (w ++ b))
    (marker : IsMarker n w) (cut : content = x ++ (e ++ y)) (element : IsRow e)
    (starts : x <+: before) (ends : before ++ a ++ w <+: x ++ e) : before ++ row <+: x ++ e := by
  obtain ⟨c, rfl⟩ := starts
  obtain ⟨restRow, readRow, -⟩ := childless
  have nonempty : a ≠ [] := by
    rintro rfl
    rw [split, List.nil_append, marker.ne_rowTag] at readRow
    cases readRow
  obtain ⟨settled, -⟩ := apart a w b split marker
  obtain ⟨restA, readA, behindA⟩ :
      ∃ restA, rowTag? a = some (.opening, restA) ∧ restRow = restA ++ (w ++ b) := by
    rw [split] at readRow
    exact (settled (w ++ b)).exists_of_match nonempty readRow
  obtain ⟨a', rfl⟩ : ∃ a', a = '<' :: a' := rowTags_beginsWith readA
  have reaches : c ++ '<' :: a' ++ w <+: e := by
    refine (List.prefix_append_right_inj x).1 ?_
    simpa using ends
  obtain ⟨d, cutE⟩ := reaches
  have here : e ++ y = c ++ (row ++ after) := by
    refine (List.append_right_inj x).1 ?_
    rw [← cut, whole, List.append_assoc]
  cases element with
  | empty read =>
    exfalso
    obtain ⟨inside, free, spelled, -⟩ := exists_of_rowTag? read
    rw [spelled] at cutE
    cases c with
    | nil =>
      -- the row does not begin with an empty row
      have := rowTag?_append read y
      rw [here, List.nil_append, rowTag?_append readRow after] at this
      cases this
    | cons f c =>
      have bracket : '<' ∈ inside ++ ['>'] := by
        rw [← (List.cons.inj cutE).2]
        simp
      simp [free] at bracket
  | @element tag inner read nested =>
    -- the element's own end tag is behind the marker, so it is the end tag of the row
    have ended : rowEnd <:+ c ++ '<' :: a' ++ (w ++ d) := by
      rw [← List.append_assoc, cutE]
      exact List.suffix_append _ _
    obtain ⟨d', rfl⟩ := rowEnd_suffix_of_append marker ended
    have rest : b ++ after = d' ++ rowEnd ++ y := by
      rw [← cutE, split] at here
      simpa using here.symm
    rcases List.append_eq_append_iff.1 rest with ⟨f, ahead, -⟩ | ⟨f, ahead, -⟩
    · refine ⟨f, ?_⟩
      rw [← cutE, split, ahead]
      simp
    · have behind : restRow = (restA ++ (w ++ d')) ++ (rowEnd ++ f) := by
        rw [behindA, ahead]
        simp
      have last : f = [] := eq_nil_of_rowEnd found readRow behind
      rw [← cutE, split, ahead, last]
      simp

end Inside

/-- **What is enclosed for a row**: for every row that the scan finds with a row marker, the text
between the inserted markers is the row without the markers of that name.  When these markers stand
apart from row tags, it is one complete row element exactly if the row is childless, and then the row
is the innermost one around each of them.  A row that is not childless is never the innermost row
element. -/
theorem normalizeRows_encloses {content gap row name : Text} {earlier later : List (Text × Text)}
    (cut : (rowPattern.split content).1 = earlier ++ (gap, row) :: later)
    (marked : marker? row = some name) :
    ∃ target before after, name = rowPrefix ++ target ∧
      before = Pattern.assemble id earlier ++ gap ∧ content = before ++ (row ++ after) ∧
      normalizeRows content
        = Pattern.assemble normalizeRow earlier ++ gap
          ++ (beginMarker target ++ stripped row ++ endMarker target) ++ normalizeRows after ∧
      (Innermost name content before row → Childless row) ∧
      (Apart name row → (IsRow (stripped row) ↔ Childless row) ∧
        (Childless row → Innermost name content before row)) := by
  obtain ⟨after, whole, matched, replaced⟩ := Pattern.exists_of_split normalizeRow
    (fun h => (eq_append_of_rowAt? h).1) cut
  obtain ⟨target, named, written⟩ := normalizeRow_of_marker marked
  have found : rowAt? row = some (row, []) := by simpa using rowAt?_append matched []
  have strip : stripped row = unwrap name row := by rw [stripped, marked]
  refine ⟨target, _, after, named, rfl, whole, ?_, fun good => ?_, fun apart =>
    ⟨⟨fun element => ?_, fun childless => ?_⟩, fun childless => ⟨?_, ?_⟩⟩⟩
  · rw [normalizeRows, replaced, written]
    rfl
  · obtain ⟨rest, read⟩ := good.element.opening_of_suffix (rowEnd_suffix_of_rowAt? found)
    exact childless_of_nested found read good.element.nested
  · rw [strip] at element
    exact childless_of_erased found element (erased_unwrap name row) apart
  · rw [strip]
    exact isRow_of_erased found childless (erased_unwrap name row) apart
  · exact isRow_of_erased found childless (.whole row) apart
  · intro a w b split marker x e y there element around
    have starts := prefix_before childless apart whole split marker there element around
    exact ⟨starts,
      row_prefix found childless apart whole split marker there element starts around.2⟩

/-- A row behind another one in the cell of an outer row: the search takes the outer start tag with
the first inner row, and finds the second one by itself. -/
theorem normalizeRows_encloses_second_row :
    let first := rowTag ++ '>' :: rowTag ++ '>' :: 'x' :: rowEnd
    let row := rowTag ++ '>' :: wrap "row.a".toList ['y'] ++ rowEnd
    let content := first ++ row ++ rowEnd
    (rowPattern.split content).1 = [([], first)] ++ ([], row) :: [] ∧
      marker? row = some "row.a".toList ∧
      normalizeRows content
        = first ++ wrap "a".toList (rowTag ++ '>' :: 'y' :: rowEnd) ++ rowEnd ∧
      IsRow (stripped row) ∧ Innermost "row.a".toList content first row := by
  intro first row content
  have cut : (rowPattern.split content).1 = [([], first)] ++ ([], row) :: [] := by decide +kernel
  have marked : marker? row = some "row.a".toList := by decide +kernel
  obtain ⟨target, before, after, -, start, -, -, -, moved⟩ := normalizeRows_encloses cut marked
  have start : before = first := by simpa [Pattern.assemble] using start
  subst start
  have childless : Childless row :=
    ⟨wrap "row.a".toList ['y'] ++ rowEnd, by decide +kernel, by decide +kernel⟩
  have tag : rowTag? (rowTag ++ ['>']) = some (.opening, []) := by decide +kernel
  have apart : Apart "row.a".toList (rowTag ++ ['>'] ++ wrap "row.a".toList ['y'] ++ rowEnd) :=
    apart_of_content tag (by decide +kernel) (by decide +kernel) (by decide +kernel)
  have result : normalizeRows content
      = first ++ wrap "a".toList (rowTag ++ '>' :: 'y' :: rowEnd) ++ rowEnd := by decide +kernel
  obtain ⟨enclosed, innermost⟩ := moved apart
  exact ⟨cut, marked, result, enclosed.2 childless, innermost childless⟩

/-- Rows that are nested properly, and markers that enclose no row: in the first row of a table in a
cell, a row marker encloses the start tag of the outer row too, but not its end tag. -/
theorem normalizeRows_cuts_row :
    let cell := "<table:table-cell><table:table>".toList
    let cellEnd := "</table:table></table:table-cell>".toList
    let content := rowTag ++ '>' :: (cell ++ rowTag ++ '>' :: (wrap "row.a".toList ['y'] ++ rowEnd)
      ++ cellEnd ++ rowEnd)
    let enclosed := rowTag ++ '>' :: (cell ++ rowTag ++ '>' :: 'y' :: rowEnd)
    tags content = [.opening, .opening, .closing, .closing] ∧ Nested (tags content) ∧
      normalizeRows content = wrap "a".toList enclosed ++ cellEnd ++ rowEnd ∧ ¬ IsRow enclosed := by
  intro cell cellEnd content enclosed
  have read : tags content = [.opening, .opening, .closing, .closing] := by decide +kernel
  have unbalanced : (tags enclosed).count .opening ≠ (tags enclosed).count .closing := by
    decide +kernel
  refine ⟨read, ?_, by decide +kernel, fun row => unbalanced row.nested.count_eq⟩
  rw [read]
  exact .row (.row .nil .nil) .nil

end Region

end DocumentMerge
