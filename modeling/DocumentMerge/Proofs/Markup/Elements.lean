import DocumentMerge.Proofs.Markup.Pieces

/-!
# Elements

The pieces of a markup text belong together: a start tag, what is in the element, and the end tag that
closes it.  The reader keeps the names of the open elements for this.  Here an element is defined by the
pieces that the reader takes one after the other, so that it can be said of a scan with a counter that
it stops at the end of an element.

* `Written.start`, `Written.empty`: how a tag is written that the reader takes.
  `TagText.written_start`: which texts are start tags.
* `Reader.meaning_cases`: what a piece does to the open elements.  `Reader.step?_relocate`: a piece is
  read whatever follows, but running text goes on up to the next bracket.
* `Reads`: the reader goes from one place to another one, and every piece satisfies a condition.
  `Reads.relocate`: it does so whatever follows, if this begins with a bracket.
* `Content`: what can stand in an element, with the tags of the elements in it.  `Element`: an empty
  tag, or a start tag with content and an end tag.  Both leave the open elements as they were.
-/

namespace DocumentMerge.Markup

/-! ## Tags -/

theorem openKind_cases (tag : Text) :
    (openKind tag = .start tag ∧ tag.getLast? ≠ some '/') ∨
      ∃ t, tag = t ++ ['/'] ∧ openKind tag = .empty t := by
  rcases List.eq_nil_or_concat tag with rfl | ⟨t, c, rfl⟩
  · exact .inl ⟨rfl, by simp⟩
  · rw [List.concat_eq_append]
    by_cases slash : c = '/'
    · subst slash
      exact .inr ⟨t, rfl, by rw [openKind, List.getLast?_concat, List.dropLast_concat]; rfl⟩
    · refine .inl ⟨?_, by simpa using slash⟩
      rw [openKind, List.getLast?_concat]
      simp [slash]

/-- How a start tag is written. -/
theorem Written.start {tag w : Text} (h : Written (.start tag) w) :
    w = '<' :: tag ++ ['>'] ∧ TagText tag ∧ tag.getLast? ≠ some '/' := by
  generalize kind : Kind.start tag = k at h
  cases h with
  | @tag t reads opens =>
    rcases openKind_cases t with ⟨same, last⟩ | ⟨t', -, other⟩
    · rw [same] at kind
      cases kind
      exact ⟨rfl, reads, last⟩
    · rw [other] at kind
      cases kind
  | comment | cdata | doctype | instruction | close => cases kind

/-- How an empty tag is written. -/
theorem Written.empty {tag w : Text} (h : Written (.empty tag) w) :
    w = '<' :: (tag ++ ['/']) ++ ['>'] ∧ TagText (tag ++ ['/']) := by
  generalize kind : Kind.empty tag = k at h
  cases h with
  | @tag t reads opens =>
    rcases openKind_cases t with ⟨other, -⟩ | ⟨t', rfl, same⟩
    · rw [other] at kind
      cases kind
    · rw [same] at kind
      cases kind
      exact ⟨rfl, reads⟩
  | comment | cdata | doctype | instruction | close => cases kind

/-- A tag that does not end with a slash is a start tag. -/
theorem TagText.written_start {tag : Text} (h : TagText tag) (opens : Opens tag)
    (last : tag.getLast? ≠ some '/') : Written (.start tag) ('<' :: tag ++ ['>']) := by
  have written := Written.tag h opens
  rcases openKind_cases tag with ⟨start, -⟩ | ⟨t, rfl, -⟩
  · rwa [start] at written
  · exact absurd List.getLast?_concat last

namespace Reader

variable {r : Reader} {s : Step}

/-! ## Steps -/

/-- The kind of a piece is known from what it means. -/
theorem meaning_cases {opened opened' : List Text} {k : Kind} {e : Event}
    (h : meaning opened k = .ok (e, opened')) :
    (e = .other ∧ opened' = opened) ∨
      (∃ tag, k = .start tag ∧ e = .start tag ∧ opened' = tagName tag :: opened) ∨
      (∃ tag, k = .empty tag ∧ e = .empty tag ∧ opened' = opened) ∨
      (∃ name, e = .close ∧ opened = name :: opened') := by
  cases k with
  | text | other => cases h; exact .inl ⟨rfl, rfl⟩
  | start tag => cases h; exact .inr (.inl ⟨tag, rfl, rfl, rfl⟩)
  | empty tag => cases h; exact .inr (.inr (.inl ⟨tag, rfl, rfl, rfl⟩))
  | close tag =>
    rw [meaning.eq_def] at h
    simp only at h
    split at h
    · cases h
    · next expected opened =>
      split at h
      · cases h
        exact .inr (.inr (.inr ⟨expected, rfl, rfl⟩))
      · cases h

/-- A start tag that was read opens an element. -/
theorem written_of_start {tag : Text} (read : r.step? = .ok (some s)) (event : s.event = .start tag) :
    Written (.start tag) s.written ∧ s.next.opened = tagName tag :: r.opened := by
  rcases step?_cases read with ⟨other, -⟩ | ⟨k, written, means⟩
  · rw [other] at event; cases event
  · rw [event] at means
    rcases meaning_cases means with ⟨other, -⟩ | ⟨t, rfl, same, opens⟩ | ⟨t, -, other, -⟩ | ⟨n, other, -⟩
    · cases other
    · cases same; exact ⟨written, opens⟩
    · cases other
    · cases other

/-- An empty tag that was read opens nothing. -/
theorem written_of_empty {tag : Text} (read : r.step? = .ok (some s)) (event : s.event = .empty tag) :
    Written (.empty tag) s.written ∧ s.next.opened = r.opened := by
  rcases step?_cases read with ⟨other, -⟩ | ⟨k, written, means⟩
  · rw [other] at event; cases event
  · rw [event] at means
    rcases meaning_cases means with ⟨other, -⟩ | ⟨t, -, other, -⟩ | ⟨t, rfl, same, opens⟩ | ⟨n, other, -⟩
    · cases other
    · cases other
    · cases same; exact ⟨written, opens⟩
    · cases other

/-- An end tag closes the innermost element. -/
theorem opened_of_close (read : r.step? = .ok (some s)) (event : s.event = .close) :
    ∃ name, r.opened = name :: s.next.opened := by
  rcases step?_cases read with ⟨other, -⟩ | ⟨k, -, means⟩
  · rw [other] at event; cases event
  · rw [event] at means
    rcases meaning_cases means with ⟨other, -⟩ | ⟨t, -, other, -⟩ | ⟨t, -, other, -⟩ | ⟨n, -, same⟩
    · cases other
    · cases other
    · cases other
    · exact ⟨n, same⟩

theorem opened_of_other (read : r.step? = .ok (some s)) (event : s.event = .other) :
    s.next.opened = r.opened := by
  rcases step?_cases read with ⟨-, same, -⟩ | ⟨k, -, means⟩
  · exact same
  · rw [event] at means
    rcases meaning_cases means with ⟨-, same⟩ | ⟨t, -, other, -⟩ | ⟨t, -, other, -⟩ | ⟨n, other, -⟩
    · exact same
    · cases other
    · cases other
    · cases other

/-- Running text ends in front of a bracket. -/
theorem step?_of_plain {t y : Text} (nonempty : t ≠ []) (plain : '<' ∉ t)
    (bracket : ∀ c ∈ y.head?, c = '<') (opened : List Text) :
    step? ⟨opened, t ++ y⟩ = .ok (some ⟨.other, t, ⟨opened, y⟩⟩) := by
  obtain ⟨c, t, rfl⟩ := List.exists_cons_of_ne_nil nonempty
  rw [List.mem_cons, not_or] at plain
  have pass : ∀ d ∈ t, (d != '<') = true := fun d mem => by
    simpa using ne_of_mem_of_not_mem mem plain.2
  rw [List.cons_append, step?_of_text (Ne.symm plain.1), List.takeWhile_append_of_pos pass,
    List.dropWhile_append_of_pos pass]
  cases y with
  | nil => simp
  | cons d y =>
    obtain rfl : d = '<' := bracket d rfl
    simp

/-- Where running text was read, a bracket or nothing follows. -/
theorem bracket_of_plain (read : r.step? = .ok (some s)) (plain : '<' ∉ s.written) :
    ∀ c ∈ s.next.rest.head?, c = '<' := by
  intro c first
  rw [step?] at read
  split at read
  · cases read
  · split at read
    · cases read
    · next p taken =>
      split at read
      · cases read
        rw [piece] at taken
        split at taken
        · next bracket =>
          have begins := (written_of_markupPiece taken).head?_eq
          exact absurd (List.mem_of_mem_head? begins) plain
        · cases taken
          have stop := List.head?_dropWhile_not (fun d => d != '<') (by assumption)
          simp only at first
          rw [first] at stop
          simpa using stop
      · cases read

/-- A piece is read again if the same follows, or a bracket. -/
theorem step?_relocate (read : r.step? = .ok (some s)) {y : Text}
    (begins : y.head? = s.next.rest.head? ∨ y.head? = some '<') :
    step? ⟨r.opened, s.written ++ y⟩ = .ok (some ⟨s.event, s.written, ⟨s.next.opened, y⟩⟩) := by
  rcases step?_cases read with ⟨other, same, plain⟩ | ⟨k, written, means⟩
  · rw [other, same]
    refine step?_of_plain (rest_eq_append read).2 plain (fun c first => ?_) r.opened
    rcases begins with next | bracket
    · exact bracket_of_plain read plain c (next ▸ first)
    · rw [bracket] at first
      exact (Option.some.inj first).symm
  · exact step?_of_written written means y

end Reader

/-! ## Places -/

/-- The reader goes from one place to another one over a text, and every piece on the way satisfies a
condition. -/
inductive Reads (P : Event → Prop) : Reader → Text → Reader → Prop
  | stop (r : Reader) : Reads P r [] r
  | step {r r' : Reader} {s : Step} {w : Text} : r.step? = .ok (some s) → P s.event →
    Reads P s.next w r' → Reads P r (s.written ++ w) r'

variable {P : Event → Prop} {r r' : Reader} {w : Text}

theorem Reads.rest_eq (h : Reads P r w r') : r.rest = w ++ r'.rest := by
  induction h with
  | stop r => rfl
  | step read _ _ ih => rw [(Reader.rest_eq_append read).1, ih, List.append_assoc]

theorem Reads.mono {Q : Event → Prop} (h : Reads P r w r') (imp : ∀ e, P e → Q e) : Reads Q r w r' := by
  induction h with
  | stop r => exact .stop r
  | step read holds _ ih => exact .step read (imp _ holds) ih

/-- What follows a piece on the way begins as what follows it after a change behind the way. -/
theorem Reads.begins (h : Reads P r w r') {y : Text} (bracket : y.head? = some '<') :
    (w ++ y).head? = r.rest.head? ∨ (w ++ y).head? = some '<' := by
  cases w with
  | nil => exact .inr bracket
  | cons c w => exact .inl (by rw [h.rest_eq]; rfl)

/-- **Reading is local.**  The way is the same whatever follows, if this begins with a bracket. -/
theorem Reads.relocate (h : Reads P r w r') {y : Text} (bracket : y.head? = some '<') :
    Reads P ⟨r.opened, w ++ y⟩ w ⟨r'.opened, y⟩ := by
  induction h with
  | stop r => exact .stop _
  | @step r r' s w read holds later ih =>
    have again := Reader.step?_relocate read (later.begins bracket)
    rw [List.append_assoc]
    exact Reads.step (s := ⟨s.event, s.written, ⟨s.next.opened, w ++ y⟩⟩) again holds ih

/-! ## Elements -/

/-- What can stand in an element: pieces that are no tags, empty tags, and start tags with content and
an end tag.  The tags that open the elements in it are listed. -/
inductive Content : Reader → List Text → Text → Reader → Prop
  | nil (r : Reader) : Content r [] [] r
  | other {r r' : Reader} {s : Step} {tags : List Text} {w : Text} : r.step? = .ok (some s) →
    s.event = .other → Content s.next tags w r' → Content r tags (s.written ++ w) r'
  | empty {r r' : Reader} {s : Step} {tag : Text} {tags : List Text} {w : Text} :
    r.step? = .ok (some s) → s.event = .empty tag → Content s.next tags w r' →
    Content r (tag :: tags) (s.written ++ w) r'
  | element {r m r' : Reader} {s e : Step} {tag : Text} {inner tags : List Text} {v w : Text} :
    r.step? = .ok (some s) → s.event = .start tag → Content s.next inner v m →
    m.step? = .ok (some e) → e.event = .close → Content e.next tags w r' →
    Content r (tag :: inner ++ tags) (s.written ++ v ++ e.written ++ w) r'

theorem Content.rest_eq {tags : List Text} (h : Content r tags w r') : r.rest = w ++ r'.rest := by
  induction h with
  | nil r => rfl
  | other read _ _ ih => rw [(Reader.rest_eq_append read).1, ih, List.append_assoc]
  | empty read _ _ ih => rw [(Reader.rest_eq_append read).1, ih, List.append_assoc]
  | element read _ _ closes _ _ ih ih' =>
    rw [(Reader.rest_eq_append read).1, ih, (Reader.rest_eq_append closes).1, ih']
    simp only [List.append_assoc]

/-- Every element in the content is closed. -/
theorem Content.opened_eq {tags : List Text} (h : Content r tags w r') : r'.opened = r.opened := by
  induction h with
  | nil r => rfl
  | other read event _ ih => rw [ih, Reader.opened_of_other read event]
  | empty read event _ ih => rw [ih, (Reader.written_of_empty read event).2]
  | element read event _ closes close _ ih ih' =>
    obtain ⟨name, opened⟩ := Reader.opened_of_close closes close
    rw [ih, (Reader.written_of_start read event).2] at opened
    rw [ih', (List.cons.inj opened).2]

/-- Content without elements. -/
theorem Content.reads (h : Content r [] w r') : Reads (· = .other) r w r' := by
  generalize none : ([] : List Text) = tags at h
  induction h with
  | nil r => exact .stop r
  | other read event _ ih => exact .step read event (ih none)
  | empty | element => cases none

/-- A whole element: its tag, the text of the tag, all that follows up to its end, and the tags of the
elements in it. -/
inductive Element : Reader → (tag first rest : Text) → List Text → Reader → Prop
  | empty {r : Reader} {s : Step} {tag : Text} : r.step? = .ok (some s) → s.event = .empty tag →
    Element r tag s.written [] [] s.next
  | closed {r m : Reader} {s e : Step} {tag w : Text} {tags : List Text} :
    r.step? = .ok (some s) → s.event = .start tag → Content s.next tags w m →
    m.step? = .ok (some e) → e.event = .close → Element r tag s.written (w ++ e.written) tags e.next

theorem Element.rest_eq {tag first rest : Text} {tags : List Text}
    (h : Element r tag first rest tags r') : r.rest = first ++ rest ++ r'.rest := by
  cases h with
  | empty read _ => rw [(Reader.rest_eq_append read).1, List.append_nil]
  | closed read _ content closes _ =>
    rw [(Reader.rest_eq_append read).1, content.rest_eq, (Reader.rest_eq_append closes).1]
    simp only [List.append_assoc]

theorem Element.opened_eq {tag first rest : Text} {tags : List Text}
    (h : Element r tag first rest tags r') : r'.opened = r.opened := by
  cases h with
  | empty read event => exact (Reader.written_of_empty read event).2
  | closed read event content closes close =>
    obtain ⟨name, opened⟩ := Reader.opened_of_close closes close
    rw [content.opened_eq, (Reader.written_of_start read event).2] at opened
    exact (List.cons.inj opened).2.symm

/-- How the tag of an element is written. -/
theorem Element.exists_tagText {tag first rest : Text} {tags : List Text}
    (h : Element r tag first rest tags r') :
    ∃ slash, first = '<' :: (tag ++ slash) ++ ['>'] ∧ TagText (tag ++ slash) ∧
      (slash = [] ∧ tag.getLast? ≠ some '/' ∨ slash = ['/']) := by
  cases h with
  | empty read event =>
    obtain ⟨text, reads⟩ := (Reader.written_of_empty read event).1.empty
    exact ⟨['/'], text, reads, .inr rfl⟩
  | closed read event =>
    obtain ⟨text, reads, last⟩ := (Reader.written_of_start read event).1.start
    exact ⟨[], by rw [List.append_nil, text], by rwa [List.append_nil], .inl ⟨rfl, last⟩⟩

end DocumentMerge.Markup
