import DocumentMerge.Markup.Event
import DocumentMerge.Proofs.Markup.Pieces
import DocumentMerge.Proofs.Region.Rows

/-!
# Row tags and row elements

The search for rows knows one start tag and the nearest end tag.  What it should find is an element:
a start tag, a content in which rows are nested properly, and the end tag that belongs to it.  A tag
ends at a `>` outside quotes and holds no `<`.

* `rowTag?` and `tags`: the row tag at the beginning of a text, and the row tags of a text, in
  order.  A tag without content is `empty`, and no start tag.
* `Nested`: start tags and end tags that belong together in pairs.
* `IsRow`: one complete row element.
* `Pattern.Parts` and `Pattern.Settled`: what begins in a piece ends in it, whatever stands behind.
  Then the matches of the piece and of what follows are counted apart
  (`values_append_of_parts`).  A piece is parted from every text that begins with a tag
  (`parts_cons`).
* `isRow_of_tags`: a text that begins with a start tag and ends with an end tag is a row element if
  the tags between the two are nested.
-/

namespace DocumentMerge

namespace Pattern

variable {α : Type} {p : Pattern α} {s t : Text}

/-! ## Pieces that are scanned apart -/

/-- A match that begins in `s` is the same, and ends in `s`, when `t` stands behind. -/
def Parts (p : Pattern α) (s t : Text) : Prop :=
  ∀ b, b <:+ s → b ≠ [] → p.match? (b ++ t) = (p.match? b).map fun hit => (hit.1, hit.2 ++ t)

/-- No match that begins in `s` ends behind it. -/
def Settled (p : Pattern α) (s : Text) : Prop :=
  ∀ t, p.Parts s t

theorem Parts.of_suffix (h : p.Parts s t) {b : Text} (suffix : b <:+ s) : p.Parts b t :=
  fun c inner nonempty => h c (inner.trans suffix) nonempty

/-- A match that begins in the piece is a match of the piece. -/
theorem Parts.exists_of_match (h : p.Parts s t) (nonempty : s ≠ []) {a : α} {rest : Text}
    (read : p.match? (s ++ t) = some (a, rest)) :
    ∃ inner, p.match? s = some (a, inner) ∧ rest = inner ++ t := by
  rw [h s List.suffix_rfl nonempty, Option.map_eq_some_iff] at read
  obtain ⟨hit, here, e⟩ := read
  cases e
  exact ⟨hit.2, here, rfl⟩

/-- A scan finds the matches of a piece and then those behind it. -/
theorem values_append_of_parts (h : p.Parts s t) :
    p.values (s ++ t) = p.values s ++ p.values t := by
  -- the scan goes on behind a match, so the induction is on the length
  generalize size : s.length = n
  induction n using Nat.strong_induction_on generalizing s with
  | _ n ih =>
    subst size
    cases s with
    | nil => simp
    | cons c s =>
      have read := h (c :: s) List.suffix_rfl (List.cons_ne_nil _ _)
      cases here : p.match? (c :: s) with
      | none =>
        rw [here] at read
        have passed : p.values (c :: s ++ t) = p.values (s ++ t) := values_cons_of_none read
        rw [passed, values_cons_of_none here]
        exact ih _ (by simp) (h.of_suffix (List.suffix_cons c s)) rfl
      | some hit =>
        obtain ⟨a, rest⟩ := hit
        rw [here] at read
        obtain ⟨taken, -, cut⟩ := p.consumes here
        have found : p.values (c :: s ++ t) = a :: p.values (rest ++ t) :=
          values_cons_of_match read
        rw [found, values_cons_of_match here,
          ih _ (p.length_lt here) (h.of_suffix ⟨taken, cut.symm⟩) rfl]
        rfl

theorem Settled.of_suffix (h : p.Settled s) {b : Text} (suffix : b <:+ s) : p.Settled b :=
  fun t => (h t).of_suffix suffix

theorem Settled.append (hs : p.Settled s) (ht : p.Settled t) : p.Settled (s ++ t) := by
  intro u b ⟨front, cut⟩ nonempty
  rcases List.append_eq_append_iff.1 cut with ⟨a, rfl, rfl⟩ | ⟨a, -, rfl⟩
  · cases a with
    | nil => exact ht u t List.suffix_rfl nonempty
    | cons c a =>
      have inner := hs (t ++ u) (c :: a) (List.suffix_append front _) (List.cons_ne_nil _ _)
      rw [List.append_assoc, inner, hs t (c :: a) (List.suffix_append front _)
        (List.cons_ne_nil _ _), Option.map_map]
      simp [Function.comp_def]
  · exact ht u b (List.suffix_append a b) nonempty

theorem BeginsWith.settled_of_notMem {c : Char} (h : p.BeginsWith c) (free : c ∉ s) :
    p.Settled s := by
  intro t b suffix nonempty
  cases b with
  | nil => exact absurd rfl nonempty
  | cons d b =>
    have differ : d ≠ c := fun e => free (suffix.subset (e ▸ List.mem_cons_self))
    rw [List.cons_append, h.match?_cons differ, h.match?_cons differ]
    rfl

end Pattern

namespace Region

/-! ## Row tags -/

/-- The kinds of row tags. -/
inductive RowTag where
  | opening
  | closing
  | empty
  deriving DecidableEq, Repr

/-- The name of a row element. -/
def rowName : Text := "table:table-row".toList

/-- The kind of a tag by what stands between its brackets, if it is a row tag.  A start tag has
nothing or white space behind the name, and an end tag nothing. -/
def RowTag.ofInside? (inside : Text) : Option RowTag :=
  if '<' ∈ inside then none
  else if inside = '/' :: rowName then some .closing
  else
    match Text.dropPrefix? rowName inside with
    | some behind =>
      if behind = ['/'] then some .empty
      else if behind.head?.all isMarkerSpace then
        some (if behind.getLast? = some '/' then .empty else .opening)
      else none
    | none => none

theorem RowTag.eq_of_ofInside? {inside : Text} (h : ofInside? inside = some .closing) :
    inside = '/' :: rowName := by
  unfold ofInside? at h
  split_ifs at h with mem closed
  · exact closed
  · split at h
    · split_ifs at h <;> cases h
    · cases h

/-- The row tag at the beginning of a text, and what stands behind it. -/
def rowTag? (s : Text) : Option (RowTag × Text) :=
  match s with
  | '<' :: t =>
    match Markup.tagEnd? none [] t with
    | some (inside, rest) => (RowTag.ofInside? inside).map fun tag => (tag, rest)
    | none => none
  | _ => none

/-- The brackets of a row tag are the only ones up to its end, and it ends there whatever stands
behind it. -/
theorem exists_of_rowTag? {s rest : Text} {k : RowTag} (h : rowTag? s = some (k, rest)) :
    ∃ inside, '<' ∉ inside ∧ s = '<' :: (inside ++ '>' :: rest) ∧
      ∀ t, rowTag? ('<' :: (inside ++ '>' :: t)) = some (k, t) := by
  unfold rowTag? at h
  split at h
  · next t =>
    split at h
    · next tag behind ended =>
      rw [Option.map_eq_some_iff] at h
      obtain ⟨k', kind, e⟩ := h
      cases e
      obtain ⟨inside, e, rfl, again⟩ := Markup.exists_of_tagEnd? ended
      have same : tag = inside := e
      subst same
      refine ⟨tag, fun mem => ?_, rfl, fun u => ?_⟩
      · rw [RowTag.ofInside?, if_pos mem] at kind
        cases kind
      · rw [rowTag?]
        simp only [again u, kind, Option.map_some]
    · cases h
  · cases h

/-- A row tag is read whatever stands behind it. -/
theorem rowTag?_append {s rest : Text} {k : RowTag} (h : rowTag? s = some (k, rest)) (t : Text) :
    rowTag? (s ++ t) = some (k, rest ++ t) := by
  obtain ⟨inside, -, rfl, again⟩ := exists_of_rowTag? h
  simpa using again (rest ++ t)

/-- The row tags of a text. -/
def rowTags : Pattern RowTag where
  match? := rowTag?
  consumes h :=
    have ⟨inside, _, cut, _⟩ := exists_of_rowTag? h
    ⟨'<' :: (inside ++ ['>']), List.cons_ne_nil _ _, by simp [cut]⟩

theorem rowTags_beginsWith : rowTags.BeginsWith '<' := by
  intro s rest k h
  obtain ⟨inside, -, rfl, -⟩ := exists_of_rowTag? h
  exact ⟨_, rfl⟩

/-- The kinds of the row tags of a text, in order. -/
def tags (s : Text) : List RowTag :=
  rowTags.values s

@[simp] theorem tags_nil : tags [] = [] :=
  Pattern.values_nil

theorem tags_of_rowTag? {s rest : Text} {k : RowTag} (h : rowTag? s = some (k, rest)) :
    tags s = k :: tags rest :=
  Pattern.values_of_match h

/-- A tag is a piece of its own. -/
theorem settled_of_rowTag? {tag : Text} {k : RowTag} (h : rowTag? tag = some (k, [])) :
    rowTags.Settled tag := by
  obtain ⟨inside, free, rfl, -⟩ := exists_of_rowTag? h
  have here : rowTags.match? ('<' :: (inside ++ ['>'])) = some (k, []) := h
  intro t b suffix nonempty
  rcases List.suffix_cons_iff.1 suffix with rfl | within
  · rw [here]
    exact rowTag?_append h t
  · have plain : '<' ∉ inside ++ ['>'] := by simp [free]
    exact (rowTags_beginsWith.settled_of_notMem plain) t b within nonempty

/-- A bracket that does not stand in a tag stands behind its end. -/
theorem exists_of_bracket {z u inside rest : Text} (free : '<' ∉ inside)
    (h : z ++ '<' :: u = inside ++ '>' :: rest) :
    ∃ a, z = inside ++ '>' :: a ∧ rest = a ++ '<' :: u := by
  rcases List.append_eq_append_iff.1 h with ⟨a, rfl, e⟩ | ⟨a, rfl, e⟩
  · cases a with
    | nil => cases (List.cons.inj e).1
    | cons d a =>
      obtain ⟨rfl, -⟩ := List.cons.inj e
      exact absurd (by simp) free
  · cases a with
    | nil => cases (List.cons.inj e).1
    | cons d a =>
      obtain ⟨rfl, behind⟩ := List.cons.inj e
      exact ⟨a, rfl, behind⟩

/-- No tag of a piece goes on into another tag. -/
theorem parts_cons (s t : Text) : rowTags.Parts s ('<' :: t) := by
  intro b _ nonempty
  show rowTag? (b ++ '<' :: t) = (rowTag? b).map _
  cases here : rowTag? b with
  | some hit => exact rowTag?_append (show rowTag? b = some (hit.1, hit.2) from here) _
  | none =>
    cases read : rowTag? (b ++ '<' :: t) with
    | none => rfl
    | some hit =>
      exfalso
      obtain ⟨inside, free, cut, again⟩ :=
        exists_of_rowTag? (show _ = some (hit.1, hit.2) from read)
      cases b with
      | nil => exact nonempty rfl
      | cons c b =>
        rw [List.cons_append] at cut
        obtain ⟨rfl, behind⟩ := List.cons.inj cut
        obtain ⟨a, rfl, -⟩ := exists_of_bracket free behind
        rw [again a] at here
        cases here

theorem tags_append_cons (s t : Text) : tags (s ++ '<' :: t) = tags s ++ tags ('<' :: t) :=
  Pattern.values_append_of_parts (parts_cons s t)

theorem rowTag?_rowEnd (t : Text) : rowTag? (rowEnd ++ t) = some (.closing, t) := by
  have alone : rowTag? rowEnd = some (.closing, []) := by decide +kernel
  exact rowTag?_append alone t

theorem tags_append_rowEnd (s t : Text) :
    tags (s ++ (rowEnd ++ t)) = tags s ++ .closing :: tags t := by
  have behind : tags (rowEnd ++ t) = .closing :: tags t := tags_of_rowTag? (rowTag?_rowEnd t)
  rw [← behind]
  exact tags_append_cons s (rowEndTail ++ t)

theorem tags_append_end (s : Text) : tags (s ++ rowEnd) = tags s ++ [.closing] := by
  simpa using tags_append_rowEnd s []

/-- An end tag is spelled in one way. -/
theorem rowEnd_infix_of_mem_tags {s : Text} (h : .closing ∈ tags s) : rowEnd <:+: s := by
  obtain ⟨hit, mem, kind⟩ := List.mem_map.1 h
  obtain ⟨before, found, rest, rfl, matched⟩ := Pattern.exists_of_mem_split _ mem
  rw [kind] at matched
  have read : rowTag? found = some (.closing, rest) := matched
  unfold rowTag? at read
  split at read
  · next t =>
    split at read
    · next inside behind ended =>
      rw [Option.map_eq_some_iff] at read
      obtain ⟨k, spelled, e⟩ := read
      cases e
      have cut := Markup.eq_append_of_tagEnd? ended
      rw [List.reverse_nil, List.nil_append] at cut
      rw [cut, RowTag.eq_of_ofInside? spelled]
      have spelling : rowEnd = '<' :: '/' :: (rowName ++ ['>']) := by decide
      exact ⟨before, rest, by rw [spelling]; simp⟩
    · cases read
  · cases read

/-! ## Row elements -/

/-- Start tags and end tags that belong together in pairs. -/
inductive Nested : List RowTag → Prop
  | nil : Nested []
  | empty {ks : List RowTag} : Nested ks → Nested (.empty :: ks)
  | row {ks ls : List RowTag} :
      Nested ks → Nested ls → Nested (.opening :: ks ++ .closing :: ls)

/-- As many rows are closed as are opened. -/
theorem Nested.count_eq {ks : List RowTag} (h : Nested ks) :
    ks.count .opening = ks.count .closing := by
  induction h with
  | nil => rfl
  | empty _ ih => simpa using ih
  | row _ _ ihs iht => simp [ihs, iht]; omega

/-- Where no row is opened or closed, there is nothing to nest. -/
theorem Nested.of_notMem {ks : List RowTag} (opened : .opening ∉ ks) (closed : .closing ∉ ks) :
    Nested ks := by
  induction ks with
  | nil => exact .nil
  | cons k ks ih =>
    rw [List.mem_cons, not_or] at opened closed
    cases k with
    | opening => exact absurd rfl opened.1
    | closing => exact absurd rfl closed.1
    | empty => exact .empty (ih opened.2 closed.2)

/-- One complete row element: an empty tag, or a start tag, a content in which rows are nested
properly, and an end tag. -/
inductive IsRow : Text → Prop
  | empty {tag : Text} : rowTag? tag = some (.empty, []) → IsRow tag
  | element {tag inner : Text} :
      rowTag? tag = some (.opening, []) → Nested (tags inner) → IsRow (tag ++ inner ++ rowEnd)

theorem rowTag?_element {tag : Text} (h : rowTag? tag = some (.opening, [])) (inner : Text) :
    rowTag? (tag ++ inner ++ rowEnd) = some (.opening, inner ++ rowEnd) := by
  rw [List.append_assoc]
  exact rowTag?_append h (inner ++ rowEnd)

theorem tags_element {tag : Text} (h : rowTag? tag = some (.opening, [])) (inner : Text) :
    tags (tag ++ inner ++ rowEnd) = .opening :: (tags inner ++ [.closing]) := by
  rw [tags_of_rowTag? (rowTag?_element h inner), tags_append_end]

/-- The tags of a row element are nested. -/
theorem IsRow.nested {t : Text} (h : IsRow t) : Nested (tags t) := by
  cases h with
  | empty read =>
    rw [tags_of_rowTag? read, tags_nil]
    exact .empty .nil
  | element read inner =>
    rw [tags_element read]
    exact .row inner .nil

/-- A row element that ends with an end tag begins with a start tag. -/
theorem IsRow.opening_of_suffix {t : Text} (h : IsRow t) (ended : rowEnd <:+ t) :
    ∃ rest, rowTag? t = some (.opening, rest) := by
  cases h with
  | element read nested => exact ⟨_, rowTag?_element read _⟩
  | empty read =>
    exfalso
    obtain ⟨inside, free, rfl, -⟩ := exists_of_rowTag? read
    rcases List.suffix_cons_iff.1 ended with same | within
    · have closing := rowTag?_rowEnd []
      rw [List.append_nil, same, read] at closing
      cases closing
    · have mem : '<' ∈ inside ++ ['>'] := within.subset (by simp [rowEnd])
      simp [free] at mem

/-- What begins with a start tag and ends with an end tag has something, maybe nothing, between the
two. -/
theorem exists_inner {t rest : Text} (read : rowTag? t = some (.opening, rest))
    (ended : rowEnd <:+ t) : ∃ inner, rest = inner ++ rowEnd := by
  obtain ⟨inside, free, rfl, again⟩ := exists_of_rowTag? read
  obtain ⟨z, cut⟩ := ended
  cases z with
  | nil =>
    -- the end tag is no start tag
    have read : rowTag? rowEnd = some (.opening, rest) := by
      rw [← read, ← cut]
      rfl
    have closing := rowTag?_rowEnd []
    rw [List.append_nil, read] at closing
    cases closing
  | cons c z =>
    have cut : z ++ '<' :: rowEndTail = inside ++ '>' :: rest := (List.cons.inj cut).2
    obtain ⟨a, -, behind⟩ := exists_of_bracket free cut
    exact ⟨a, behind⟩

/-- What begins with a start tag and ends with an end tag is a row element if the tags between the
two are nested. -/
theorem isRow_of_tags {t rest : Text} {ks : List RowTag} (read : rowTag? t = some (.opening, rest))
    (ended : rowEnd <:+ t) (counted : tags t = .opening :: (ks ++ [.closing])) (nested : Nested ks) :
    IsRow t := by
  obtain ⟨inner, rfl⟩ := exists_inner read ended
  obtain ⟨inside, free, rfl, again⟩ := exists_of_rowTag? read
  have tag : rowTag? ('<' :: (inside ++ ['>'])) = some (.opening, []) := again []
  have split : '<' :: (inside ++ '>' :: (inner ++ rowEnd))
      = '<' :: (inside ++ ['>']) ++ inner ++ rowEnd := by simp
  rw [split] at counted ⊢
  rw [tags_element tag] at counted
  have same := List.append_cancel_right (List.cons.inj counted).2
  exact .element tag (same ▸ nested)

end Region

end DocumentMerge
