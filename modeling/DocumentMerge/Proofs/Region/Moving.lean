import DocumentMerge.Proofs.Region.Locating
import DocumentMerge.Proofs.Region.Nesting

/-!
# What is moved, and what is not

Moving row markers must not touch anything else.  Here it is said without the search what the rows of a
text are, and what becomes of each of them.

* `IsSpan`: a text from a start tag of a row to the nearest end tag.
* `Scanned s hits tail`: the rows of a text, each the leftmost one behind the one before, with what
  stands in front of them and what stands behind the last.  `scanned_iff`: every text is scanned in one
  way, and this is how the search splits it.
* `RowMarked row X x`: in a row, a complete region of the row name `X` stands behind `x`.
* `Moved row t`: a row without such regions stays as it is; another one loses markers of the first row
  name, and these only, and is enclosed in markers of the name's own.
* `normalizeRows_moves_markers`: between the rows nothing changes, and every row is moved in this sense.
-/

namespace DocumentMerge.Region

variable {s row rest tail : Text} {hits : List (Text × Text)}

/-! ## Rows from left to right -/

/-- A text from a start tag of a row to the nearest end tag behind it. -/
def IsSpan (row : Text) : Prop :=
  ∃ tag inner, IsTagEnd tag ∧ row = rowTag ++ tag ++ inner ++ rowEnd ∧
    ∀ x y, inner ++ rowEnd = x ++ (rowEnd ++ y) → inner.length ≤ x.length

/-- An end tag is found first where none stands earlier. -/
theorem first?_rowEnd_iff {inner : Text} :
    rowEndPattern.first? (inner ++ rowEnd) = some ⟨inner, (), []⟩ ↔
      ∀ x y, inner ++ rowEnd = x ++ (rowEnd ++ y) → inner.length ≤ x.length := by
  have read {t y : Text} : rowEndPattern.match? t = some ((), y) ↔ t = rowEnd ++ y :=
    Pattern.literal_match?_eq_some_iff
  rw [Pattern.first?_eq_some_iff_le]
  constructor
  · rintro ⟨-, -, -, leftmost⟩ x y cut
    exact leftmost x _ cut (Option.ne_none_iff_exists'.2 ⟨_, read.2 rfl⟩)
  · intro nearest
    refine ⟨rowEnd, rfl, read.2 (by simp), fun x t cut found => ?_⟩
    obtain ⟨⟨⟨⟩, y⟩, here⟩ := Option.ne_none_iff_exists'.1 found
    exact nearest x y (read.1 here ▸ cut)

/-- The row that is found at a place is the one that stands there. -/
theorem rowAt?_iff_isSpan : rowAt? s = some (row, rest) ↔ IsSpan row ∧ s = row ++ rest := by
  rw [rowAt?_eq_some_iff]
  constructor
  · rintro ⟨tag, inner, shape, nearest, whole, cut⟩
    exact ⟨⟨tag, inner, shape, whole, first?_rowEnd_iff.1 nearest⟩, cut⟩
  · rintro ⟨⟨tag, inner, shape, whole, nearest⟩, cut⟩
    exact ⟨tag, inner, shape, first?_rowEnd_iff.2 nearest, whole, cut⟩

/-- The rows of a text from left to right, each behind what stands between it and the row before, and
what stands behind the last one.  A row is the leftmost one that does not begin in the row before. -/
inductive Scanned : Text → List (Text × Text) → Text → Prop
  | done {s : Text} : (∀ x row y, IsSpan row → s ≠ x ++ (row ++ y)) → Scanned s [] s
  | row {s gap row rest tail : Text} {hits : List (Text × Text)} :
      IsSpan row → s = gap ++ (row ++ rest) →
      (∀ x row' y, IsSpan row' → s = x ++ (row' ++ y) → gap.length ≤ x.length) →
      Scanned rest hits tail → Scanned s ((gap, row) :: hits) tail

/-- A row stands somewhere in a text exactly if a row is found where it stands. -/
theorem rowAt?_ne_none_iff : rowAt? s ≠ none ↔ ∃ row y, IsSpan row ∧ s = row ++ y := by
  rw [Option.ne_none_iff_exists', Prod.exists]
  simp only [rowAt?_iff_isSpan]

/-- There is one way to scan a text, and a search for rows splits it in this way. -/
theorem scanned_iff : Scanned s hits tail ↔ rowPattern.split s = (hits, tail) := by
  have missing {s : Text} : rowPattern.first? s = none ↔ ∀ x row y, IsSpan row → s ≠ x ++ (row ++ y) := by
    rw [Pattern.first?_eq_none_iff]
    constructor
    · rintro none x row y span rfl
      exact rowAt?_ne_none_iff.2 ⟨row, y, span, rfl⟩ (none _ (List.suffix_append x _))
    · rintro rowless b ⟨x, rfl⟩
      by_contra found
      obtain ⟨row, y, span, rfl⟩ := rowAt?_ne_none_iff.1 found
      exact rowless x row y span rfl
  have leftmost {s : Text} {m : Match Text} : rowPattern.first? s = some m ↔
      IsSpan m.value ∧ s = m.before ++ (m.value ++ m.after) ∧
        ∀ x row y, IsSpan row → s = x ++ (row ++ y) → m.before.length ≤ x.length := by
    rw [Pattern.first?_eq_some_iff_le]
    constructor
    · rintro ⟨here, cut, matched, first⟩
      obtain ⟨span, rfl⟩ := rowAt?_iff_isSpan.1 matched
      exact ⟨span, cut, fun x row y span e =>
        first x _ e (rowAt?_ne_none_iff.2 ⟨row, y, span, rfl⟩)⟩
    · rintro ⟨span, cut, first⟩
      refine ⟨_, cut, rowAt?_iff_isSpan.2 ⟨span, rfl⟩, fun x t e found => ?_⟩
      obtain ⟨row, y, span, rfl⟩ := rowAt?_ne_none_iff.1 found
      exact first x row y span e
  constructor
  · intro h
    induction h with
    | done rowless => exact Pattern.split_of_none (missing.2 rowless)
    | @row s gap row rest _ _ span cut first _ ih =>
      have found : rowPattern.first? s = some ⟨gap, row, rest⟩ := leftmost.2 ⟨span, cut, first⟩
      rw [Pattern.split_of_some found, ih]
  · induction s using rowPattern.search_induct generalizing hits tail with
    | stop s none =>
      rw [Pattern.split_of_none none]
      rintro ⟨⟩
      exact .done (missing.1 none)
    | step s m found ih =>
      rw [Pattern.split_of_some found]
      rintro ⟨⟩
      obtain ⟨span, cut, first⟩ := leftmost.1 found
      exact .row span cut first (ih rfl)

/-- Gaps and rows put together again are the whole text. -/
theorem Scanned.whole (h : Scanned s hits tail) : s = Pattern.assemble id hits ++ tail := by
  induction h with
  | done => rfl
  | @row s gap row rest tail hits span cut first later ih =>
    rw [cut, ih]
    simp [Pattern.assemble]

/-! ## Rows with markers -/

/-- In a row, a complete region of a row name stands behind some text. -/
def RowMarked (row target x : Text) : Prop :=
  target ≠ [] ∧ ∃ r after, r.name = rowPrefix ++ target ∧ Region.StandsIn r row x after

/-- What moving the markers of a row may make of it. -/
inductive Moved (row : Text) : Text → Prop
  /-- Nothing changes where there is no row region. -/
  | kept : (∀ target x, ¬ RowMarked row target x) → Moved row row
  /-- The first row name is unwrapped, which takes out markers of this name only, and the row is
  enclosed. -/
  | enclosed {target x : Text} : RowMarked row target x →
      (∀ other y, RowMarked row other y → x.length ≤ y.length) →
      Erased (rowPrefix ++ target) row (unwrap (rowPrefix ++ target) row) →
      Moved row (beginMarker target ++ unwrap (rowPrefix ++ target) row ++ endMarker target)

theorem isSome_rowTarget?_iff {name : Text} :
    (rowTarget? name).isSome = true ↔ ∃ target, target ≠ [] ∧ name = rowPrefix ++ target := by
  rw [Option.isSome_iff_exists]
  simp only [rowTarget?_eq_some_iff, and_comm]

/-- Where a marker of a name is closed, a region stands. -/
theorem Opened.exists_standsIn {n x : Text} (h : Opened n s x) :
    ∃ r after, r.name = n ∧ Region.StandsIn r s x after := by
  obtain ⟨w, y, opens, rfl, closed⟩ := h
  have here : at? (fun m => m == n) (w ++ y) ≠ none :=
    at?_ne_none_iff.2 ⟨n, beq_self_eq_true n, w, y, opens, rfl, closed⟩
  obtain ⟨⟨r, after⟩, found⟩ := Option.ne_none_iff_exists'.1 here
  obtain ⟨named, stands⟩ := at?_eq_some_iff.1 found
  exact ⟨r, after, by simpa using named, stands.behind x⟩

theorem rowMarked_iff {target x : Text} :
    RowMarked row target x ↔ target ≠ [] ∧ Opened (rowPrefix ++ target) row x := by
  refine and_congr_right fun _ => ⟨?_, Opened.exists_standsIn⟩
  rintro ⟨r, after, named, stands⟩
  exact named ▸ stands.opened

/-- There is no marker for a row exactly where there is no row region. -/
theorem marker?_eq_none_iff : marker? row = none ↔ ∀ target x, ¬ RowMarked row target x := by
  rw [marker?, Option.map_eq_none_iff, first?_eq_none_iff]
  constructor
  · intro closed target x marked
    obtain ⟨nonempty, opened⟩ := rowMarked_iff.1 marked
    exact closed _ x (isSome_rowTarget?_iff.2 ⟨target, nonempty, rfl⟩) opened
  · intro unmarked n x accepted opened
    obtain ⟨target, nonempty, rfl⟩ := isSome_rowTarget?_iff.1 accepted
    exact unmarked target x (rowMarked_iff.2 ⟨nonempty, opened⟩)

/-- The marker for a row is that of its first row region. -/
theorem exists_of_marker? {name : Text} (h : marker? row = some name) :
    ∃ target x, name = rowPrefix ++ target ∧ RowMarked row target x ∧
      ∀ other y, RowMarked row other y → x.length ≤ y.length := by
  rw [marker?, Option.map_eq_some_iff] at h
  obtain ⟨m, found, rfl⟩ := h
  obtain ⟨accepted, stands, first⟩ := first?_eq_some_iff.1 found
  obtain ⟨target, nonempty, named⟩ := isSome_rowTarget?_iff.1 accepted
  refine ⟨target, m.before, named, ⟨nonempty, m.value, m.after, named, stands⟩, fun other y marked => ?_⟩
  obtain ⟨filled, opened⟩ := rowMarked_iff.1 marked
  exact first _ y (isSome_rowTarget?_iff.2 ⟨other, filled, rfl⟩) opened

theorem moved_normalizeRow (row : Text) : Moved row (normalizeRow row) := by
  cases marked : marker? row with
  | none =>
    rw [normalizeRow_of_none marked]
    exact .kept (marker?_eq_none_iff.1 marked)
  | some name =>
    obtain ⟨target, x, named, here, first⟩ := exists_of_marker? marked
    obtain ⟨target', named', written⟩ := normalizeRow_of_marker marked
    obtain rfl : target = target' := List.append_cancel_left (named.symm.trans named')
    have strip : stripped row = unwrap name row := by rw [stripped, marked]
    rw [written, strip, named]
    exact .enclosed here first (erased_unwrap _ row)

/-- A row is left as it is exactly if it has no row region. -/
theorem normalizeRow_eq_self_iff (span : IsSpan row) :
    normalizeRow row = row ↔ ∀ target x, ¬ RowMarked row target x := by
  rw [← marker?_eq_none_iff]
  refine ⟨fun same => ?_, normalizeRow_of_none⟩
  cases marked : marker? row with
  | none => rfl
  | some name =>
    have isRow : rowAt? row = some (row, []) := rowAt?_iff_isSpan.2 ⟨span, by simp⟩
    exact absurd (congrArg (· ++ []) same) (normalizeRow_append_ne isRow marked [] [])

theorem Scanned.isSpan (h : Scanned s hits tail) : ∀ hit ∈ hits, IsSpan hit.2 := by
  induction h with
  | done => simp
  | row span _ _ _ ih => exact List.forall_mem_cons.2 ⟨span, ih⟩

/-- **Moving row markers changes rows only, and only their markers.**  A text has its rows from left to
right in one way.  What stands between them is kept, in order.  In the place of a row stands the row
itself, which is so exactly if no complete region of a row name is in it, or else the row without some
markers of its first row name, in markers of the name's own. -/
theorem normalizeRows_moves_markers (content : Text) :
    ∃ hits tail, (∀ hits' tail', Scanned content hits' tail' ↔ (hits', tail') = (hits, tail)) ∧
      content = Pattern.assemble id hits ++ tail ∧
      normalizeRows content = Pattern.assemble normalizeRow hits ++ tail ∧
      ∀ hit ∈ hits, Moved hit.2 (normalizeRow hit.2) ∧
        (normalizeRow hit.2 = hit.2 ↔ ∀ target x, ¬ RowMarked hit.2 target x) := by
  have scanned : Scanned content (rowPattern.split content).1 (rowPattern.split content).2 :=
    scanned_iff.2 rfl
  refine ⟨_, _, fun hits' tail' => ?_, scanned.whole, rfl, fun hit mem =>
    ⟨moved_normalizeRow hit.2, normalizeRow_eq_self_iff (scanned.isSpan hit mem)⟩⟩
  rw [scanned_iff, eq_comm]

/-- Two rows, one of them with a marker, behind an element whose name only begins like that of a row. -/
theorem normalizeRows_moves_markers_second_row :
    let front := "<table:table-rows>".toList
    let first := rowTag ++ " a=\"1\">x".toList ++ rowEnd
    let second := rowTag ++ '>' :: wrap "row.n".toList ['y'] ++ rowEnd
    let moved := wrap "n".toList (rowTag ++ '>' :: 'y' :: rowEnd)
    let content := front ++ first ++ '|' :: second ++ ['.']
    Scanned content [(front, first), (['|'], second)] ['.'] ∧
      normalizeRows content = front ++ first ++ '|' :: moved ++ ['.'] ∧ Moved second moved := by
  intro front first second moved content
  have scanned : Scanned content [(front, first), (['|'], second)] ['.'] :=
    scanned_iff.2 (by decide +kernel)
  have written : normalizeRow first = first ∧ normalizeRow second = moved := by decide +kernel
  obtain ⟨hits, tail, unique, -, result, each⟩ := normalizeRows_moves_markers content
  obtain ⟨rfl, rfl⟩ := Prod.mk.inj ((unique _ _).1 scanned)
  refine ⟨scanned, ?_, ?_⟩
  · rw [result]
    simp [Pattern.assemble, written]
  · have := (each (['|'], second) (by simp)).1
    rwa [written.2] at this

end DocumentMerge.Region
