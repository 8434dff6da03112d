import DocumentMerge.Package.Property
import DocumentMerge.Proofs.Markup.Elements
import DocumentMerge.Proofs.Markup.Tags
import DocumentMerge.Proofs.Text.Positions
import DocumentMerge.Proofs.Text.Trimming

/-!
# Setting a property in its place

The element of a property is looked for by a scan that counts bytes, and it is cut out of the text at
the positions that were counted.  Here the element is said without positions, by the pieces that the
reader takes: some in front of it that are of no interest, the element, and the rest.  The positions are
then the sizes of these parts, and cutting gives the parts back.

This is so as long as the text begins where the reader begins.  A byte order mark in front is passed
over by the reader and not counted, so that all positions are three bytes too small.

* `Named`: the tag of a property.  `isProperty_eq_true_iff`: these are the tags that the scan stops at.
* `First`: the element of the first property of a name, with what is before and behind it.
* `extentFrom_eq_some_iff`: the scan finds such an element, and answers with the sizes.
* `SetInPlace`: setting a property exchanges its element and nothing else, and never fails by cutting.
* `setInPlace_iff_unmarked`: this is so if no byte order mark is in front of a text with the property.
-/

namespace DocumentMerge.Property

open Markup (Reader Event Step Reads Content Element IsAttribute Attribute AttributeError)

/-! ## Names -/

/-- The first name in some attributes is a given one, and there is no fault up to it.  Some keys were
there before. -/
inductive Names (name : Text) : List Text → Text → Prop
  | here {seen : List Text} {a : Attribute} {w rest : Text} : IsAttribute a w → a.key ∉ seen →
    a.key = nameAttribute → Markup.unescape a.value = .ok name → Names name seen (w ++ rest)
  | behind {seen : List Text} {a : Attribute} {w rest : Text} : IsAttribute a w → a.key ∉ seen →
    a.key ≠ nameAttribute → Names name (a.key :: seen) rest → Names name seen (w ++ rest)

/-- The tag of the property of a name. -/
def Named (name tag : Text) : Prop :=
  Markup.tagName tag = element ∧ Names name [] (tag.drop element.length)

theorem find?_key_eq_none_iff {seen : List (Text × Nat)} {key : Text} :
    (seen.find? fun k => k.1 == key) = none ↔ key ∉ seen.map Prod.fst := by
  rw [List.find?_eq_none, List.mem_map, not_exists]
  refine forall_congr' fun k => ?_
  rw [not_and, beq_iff_eq]

/-- The name is the only one that is found. -/
theorem Names.namedIn_eq {name t : Text} {keys : List Text} (h : Names name keys t) (key : Text)
    {seen : List (Text × Nat)} (known : seen.map Prod.fst = keys) (position : Nat) :
    namedIn key (Markup.attributesFrom seen ⟨position, t⟩) = .ok (name == key) := by
  induction h generalizing seen position with
  | @here keys a w rest is_ new named value =>
    subst known
    obtain ⟨start, next, read⟩ :=
      Markup.attributesFrom_of_isAttribute is_ (find?_key_eq_none_iff.2 new) position rest
    obtain ⟨k, v⟩ := a
    rw [read, namedIn, if_pos named, value]
  | @behind keys a w rest is_ new other _ ih =>
    subst known
    obtain ⟨start, next, read⟩ :=
      Markup.attributesFrom_of_isAttribute is_ (find?_key_eq_none_iff.2 new) position rest
    obtain ⟨k, v⟩ := a
    rw [read, namedIn, if_neg other, ih rfl]

/-- A name that is found is written there. -/
theorem names_of_namedIn {key : Text} {seen : List (Text × Nat)} {c : Markup.Cursor}
    (h : namedIn key (Markup.attributesFrom seen c) = .ok true) :
    Names key (seen.map Prod.fst) c.rest := by
  match read : Markup.attributesFrom seen c with
  | [] => rw [read] at h; cases h
  | .error cause :: more => rw [read] at h; cases h
  | .ok a :: more =>
    obtain ⟨w, rest, start, next, is_, split, new, rfl⟩ := Markup.exists_of_attributesFrom read
    rw [find?_key_eq_none_iff] at new
    obtain ⟨k, v⟩ := a
    rw [read, namedIn] at h
    rw [split]
    by_cases named : k = nameAttribute
    · rw [if_pos named] at h
      refine .here is_ new named ?_
      cases value : Markup.unescape v with
      | error cause => rw [value] at h; cases h
      | ok t =>
        rw [value] at h
        rw [eq_of_beq (Except.ok.inj h)]
    · rw [if_neg named] at h
      obtain ⟨u, q, rfl, -⟩ := is_.exists_quote
      have shorter : rest.length < c.rest.length := by
        rw [split, List.length_append, List.length_append, List.length_singleton]
        omega
      exact .behind is_ new named (names_of_namedIn h)
termination_by c.rest.length

/-- The scan stops at the tags of the property. -/
theorem isProperty_eq_true_iff {key tag : Text} : isProperty key tag = .ok true ↔ Named key tag := by
  rw [isProperty, Named]
  constructor
  · intro h
    split at h
    · next name =>
      refine ⟨name, ?_⟩
      rw [← name]
      exact names_of_namedIn h
    · cases h
  · rintro ⟨name, names⟩
    rw [if_pos name, Markup.attributes, name]
    refine (names.namedIn_eq key rfl _).trans ?_
    rw [beq_self_eq_true]

/-- The scan for another property passes it over. -/
theorem Named.isProperty_eq_false {name tag key : Text} (h : Named name tag) (other : key ≠ name) :
    isProperty key tag = .ok false := by
  rw [isProperty, if_pos h.1, Markup.attributes, h.1]
  refine (h.2.namedIn_eq key rfl _).trans ?_
  rw [beq_false_of_ne other.symm]

/-- The attributes of the property stand behind the name of its tag. -/
theorem Named.exists_append {name tag : Text} (h : Named name tag) :
    ∃ rest, tag = element ++ rest ∧ Names name [] rest := by
  obtain ⟨named, names⟩ := h
  refine ⟨_, ?_, names⟩
  have split := List.takeWhile_append_dropWhile (p := fun c => !Markup.isSpace c) (l := tag)
  rw [show tag.takeWhile (fun c => !Markup.isSpace c) = element from named] at split
  rw [← split, List.drop_left]

/-! ## The end of an element -/

variable {r r' m : Reader} {s : Step} {key : Text}

theorem contentEnd_of_step (read : r.step? = .ok (some s)) (depth count : Nat) :
    contentEnd depth count r =
      match s.event with
      | .start _ => contentEnd (depth + 1) (count + Text.byteSize s.written) s.next
      | .close =>
        match depth with
        | 0 => .ok (some (count + Text.byteSize s.written))
        | depth + 1 => contentEnd depth (count + Text.byteSize s.written) s.next
      | .empty _ | .other => contentEnd depth (count + Text.byteSize s.written) s.next := by
  rw [contentEnd]
  split
  · next failed => rw [read] at failed; cases failed
  · next none => rw [read] at none; cases none
  · next found =>
    rw [read] at found
    cases found
    rfl

/-- There is no end if nothing more is read. -/
theorem contentEnd_of_end (ended : ∀ s, r.step? ≠ .ok (some s)) (depth count : Nat) :
    contentEnd depth count r = r.step?.map fun _ => none := by
  rw [contentEnd]
  split
  · next failed => rw [failed]; rfl
  · next none => rw [none]; rfl
  · next found => exact absurd found (ended _)

/-- Content is passed over, and its bytes are counted. -/
theorem contentEnd_of_content {tags : List Text} {w : Text} (h : Content r tags w m)
    (depth count : Nat) :
    contentEnd depth count r = contentEnd depth (count + Text.byteSize w) m := by
  induction h generalizing depth count with
  | nil r => rfl
  | other read event _ ih =>
    rw [contentEnd_of_step read, event]
    simp only
    rw [ih, Text.byteSize_append, Nat.add_assoc]
  | empty read event _ ih =>
    rw [contentEnd_of_step read, event]
    simp only
    rw [ih, Text.byteSize_append, Nat.add_assoc]
  | element read event _ closes close _ ih ih' =>
    rw [contentEnd_of_step read, event]
    simp only
    rw [ih, contentEnd_of_step closes, close]
    simp only
    rw [ih']
    simp only [Text.byteSize_append, Nat.add_assoc]

/-- Several elements are closed, the innermost one first, and each has content up to its end. -/
inductive Closes : Nat → Reader → List Text → Text → Reader → Prop
  | last {r m : Reader} {e : Step} {tags : List Text} {w : Text} : Content r tags w m →
    m.step? = .ok (some e) → e.event = .close → Closes 0 r tags (w ++ e.written) e.next
  | more {r m r' : Reader} {e : Step} {depth : Nat} {tags tags' : List Text} {w w' : Text} :
    Content r tags w m → m.step? = .ok (some e) → e.event = .close →
    Closes depth e.next tags' w' r' → Closes (depth + 1) r (tags ++ tags') (w ++ e.written ++ w') r'

/-- What can stand in front of content can stand in front of the content of the innermost element. -/
theorem Closes.prepend {depth : Nat} {tags : List Text} {w w' : Text} (h : Closes depth m tags w r')
    (tags' : List Text)
    (front : ∀ tags w r', Content m tags w r' → Content r (tags' ++ tags) (w' ++ w) r') :
    Closes depth r (tags' ++ tags) (w' ++ w) r' := by
  cases h with
  | last content closes close =>
    rw [← List.append_assoc]
    exact .last (front _ _ _ content) closes close
  | more content closes close later =>
    rw [← List.append_assoc, ← List.append_assoc, ← List.append_assoc]
    exact .more (front _ _ _ content) closes close later

/-- An end that is found closes the elements. -/
theorem exists_of_contentEnd {r : Reader} {depth count n : Nat}
    (h : contentEnd depth count r = .ok (some n)) :
    ∃ tags w r', Closes depth r tags w r' ∧ n = count + Text.byteSize w := by
  obtain ⟨s, read⟩ : ∃ s, r.step? = .ok (some s) := by
    by_contra ended
    rw [contentEnd_of_end (not_exists.1 ended)] at h
    cases read : r.step? <;> rw [read] at h <;> cases h
  have shorter := Reader.length_step? read
  rw [contentEnd_of_step read] at h
  match event : s.event with
  | .other =>
    simp only [event] at h
    obtain ⟨tags, w, r', closes, rfl⟩ := exists_of_contentEnd h
    refine ⟨tags, s.written ++ w, r', ?_, by rw [Text.byteSize_append, Nat.add_assoc]⟩
    exact closes.prepend [] fun _ _ _ content => .other read event content
  | .empty tag =>
    simp only [event] at h
    obtain ⟨tags, w, r', closes, rfl⟩ := exists_of_contentEnd h
    refine ⟨tag :: tags, s.written ++ w, r', ?_, by rw [Text.byteSize_append, Nat.add_assoc]⟩
    exact closes.prepend [tag] fun _ _ _ content => .empty read event content
  | .close =>
    simp only [event] at h
    cases depth with
    | zero =>
      cases h
      exact ⟨[], [] ++ s.written, s.next, .last (.nil r) read event, rfl⟩
    | succ depth =>
      obtain ⟨tags, w, r', closes, rfl⟩ := exists_of_contentEnd h
      refine ⟨[] ++ tags, [] ++ s.written ++ w, r', .more (.nil r) read event closes, ?_⟩
      rw [List.nil_append, Text.byteSize_append, Nat.add_assoc]
  | .start tag =>
    simp only [event] at h
    obtain ⟨tags, w, r', closes, rfl⟩ := exists_of_contentEnd h
    cases closes with
    | @more _ m _ e _ inner tags v w content ends close later =>
      refine ⟨tag :: inner ++ tags, s.written ++ v ++ e.written ++ w, r', ?_, ?_⟩
      · exact later.prepend (tag :: inner) fun _ _ _ more =>
          .element read event content ends close more
      · simp only [Text.byteSize_append, Nat.add_assoc]
termination_by r.rest.length

/-! ## The element of a property -/

/-- What the scan for a property passes over: all pieces but the tags of the property, and tags with a
fault that shows before their name. -/
def Skipped (key : Text) : Event → Prop
  | .start tag | .empty tag => isProperty key tag = .ok false
  | .close | .other => True

/-- A text in which an element stands. -/
structure Parts where
  before : Text
  /-- The tag that opens the element. -/
  tag : Text
  /-- What follows the tag, up to the end of the element. -/
  inner : Text
  after : Text

namespace Parts

/-- The whole text. -/
def whole (p : Parts) : Text :=
  p.before ++ (p.tag ++ p.inner) ++ p.after

/-- The byte range of the element. -/
def extent (p : Parts) (position : Nat) : Extent :=
  ⟨position + Text.byteSize p.before, position + Text.byteSize (p.before ++ p.tag),
    position + Text.byteSize (p.before ++ (p.tag ++ p.inner))⟩

end Parts

/-- The first property of a name: a text in front of it, its element with the tags in it, and the text
behind it. -/
inductive First (key : Text) (r : Reader) : Parts → List Text → Prop
  | mk {m r' : Reader} {before tag first rest : Text} {tags : List Text} :
    Reads (Skipped key) r before m → Element m tag first rest tags r' → Named key tag →
    First key r ⟨before, first, rest, r'.rest⟩ tags

variable {p : Parts} {tags : List Text}

theorem First.rest_eq (h : First key r p tags) : r.rest = p.whole := by
  obtain ⟨reads, element, -⟩ := h
  rw [reads.rest_eq, element.rest_eq, Parts.whole]
  simp only [List.append_assoc]

theorem extentFrom_of_step (read : r.step? = .ok (some s)) (position : Nat) :
    extentFrom key position r =
      match s.event with
      | .empty tag =>
        match isProperty key tag with
        | .error cause => .error cause
        | .ok true => .ok (some ⟨position, position + Text.byteSize s.written,
            position + Text.byteSize s.written⟩)
        | .ok false => extentFrom key (position + Text.byteSize s.written) s.next
      | .start tag =>
        match isProperty key tag with
        | .error cause => .error cause
        | .ok true =>
          (contentEnd 0 (position + Text.byteSize s.written) s.next).map fun stop? =>
            stop?.map fun stop => ⟨position, position + Text.byteSize s.written, stop⟩
        | .ok false => extentFrom key (position + Text.byteSize s.written) s.next
      | .close | .other => extentFrom key (position + Text.byteSize s.written) s.next := by
  rw [extentFrom]
  split
  · next failed => rw [read] at failed; cases failed
  · next none => rw [read] at none; cases none
  · next found =>
    rw [read] at found
    cases found
    rfl

/-- Nothing is found if nothing more is read. -/
theorem extentFrom_of_end (ended : ∀ s, r.step? ≠ .ok (some s)) (position : Nat) :
    extentFrom key position r = r.step?.map fun _ => none := by
  rw [extentFrom]
  split
  · next failed => rw [failed]; rfl
  · next none => rw [none]; rfl
  · next found => exact absurd found (ended _)

theorem extentFrom_of_skipped (read : r.step? = .ok (some s)) (skipped : Skipped key s.event)
    (position : Nat) :
    extentFrom key position r = extentFrom key (position + Text.byteSize s.written) s.next := by
  rw [extentFrom_of_step read]
  match event : s.event with
  | .start tag | .empty tag =>
    rw [event] at skipped
    simp only [Skipped] at skipped
    simp only [skipped]
  | .close | .other => rfl

theorem extentFrom_of_reads {w : Text} (h : Reads (Skipped key) r w m) (position : Nat) :
    extentFrom key position r = extentFrom key (position + Text.byteSize w) m := by
  induction h generalizing position with
  | stop r => rfl
  | step read skipped _ ih =>
    rw [extentFrom_of_skipped read skipped, ih, Text.byteSize_append, Nat.add_assoc]

/-- An element with the tag of the property is found, and where it ends. -/
theorem extentFrom_of_element {tag first rest : Text} (h : Element r tag first rest tags r')
    (named : Named key tag) (position : Nat) :
    extentFrom key position r = .ok (some ⟨position, position + Text.byteSize first,
      position + Text.byteSize (first ++ rest)⟩) := by
  have property : isProperty key tag = .ok true := isProperty_eq_true_iff.2 named
  cases h with
  | empty read event =>
    rw [extentFrom_of_step read, event]
    simp only [property, List.append_nil]
  | closed read event content closes close =>
    rw [extentFrom_of_step read, event]
    simp only [property]
    rw [contentEnd_of_content content, contentEnd_of_step closes, close]
    simp only [Except.map, Option.map_some, Text.byteSize_append, Nat.add_assoc]

/-- The range that is found is that of an element. -/
theorem exists_of_extentFrom {r : Reader} {position : Nat} {e : Extent}
    (h : extentFrom key position r = .ok (some e)) :
    ∃ p tags, First key r p tags ∧ e = p.extent position := by
  obtain ⟨s, read⟩ : ∃ s, r.step? = .ok (some s) := by
    by_contra ended
    rw [extentFrom_of_end (not_exists.1 ended)] at h
    cases read : r.step? <;> rw [read] at h <;> cases h
  have shorter := Reader.length_step? read
  have later (skipped : Skipped key s.event) : ∃ p tags, First key r p tags ∧ e = p.extent position := by
    rw [extentFrom_of_skipped read skipped] at h
    obtain ⟨_, tags, ⟨reads, element, named⟩, rfl⟩ := exists_of_extentFrom h
    refine ⟨_, tags, .mk (.step read skipped reads) element named, ?_⟩
    simp only [Parts.extent, Text.byteSize_append, Nat.add_assoc]
  have here {tag : Text} (named : Named key tag) {first rest : Text} {tags : List Text} {r' : Reader}
      (element : Element r tag first rest tags r') :
      ∃ p tags, First key r p tags ∧ e = p.extent position := by
    rw [extentFrom_of_element element named] at h
    exact ⟨_, tags, .mk (.stop r) element named, (Option.some.inj (Except.ok.inj h)).symm⟩
  match event : s.event with
  | .other | .close => exact later (by rw [event]; trivial)
  | .empty tag =>
    match property : isProperty key tag with
    | .ok false => exact later (by rw [event]; exact property)
    | .ok true => exact here (isProperty_eq_true_iff.1 property) (.empty read event)
    | .error cause =>
      rw [extentFrom_of_step read, event] at h
      simp only [property] at h
      cases h
  | .start tag =>
    match property : isProperty key tag with
    | .ok false => exact later (by rw [event]; exact property)
    | .ok true =>
      obtain ⟨n, ends⟩ : ∃ n, contentEnd 0 (position + Text.byteSize s.written) s.next
          = .ok (some n) := by
        rw [extentFrom_of_step read, event] at h
        simp only [property] at h
        cases ends : contentEnd 0 (position + Text.byteSize s.written) s.next with
        | error cause => rw [ends] at h; cases h
        | ok stop? =>
          cases stop? with
          | none => rw [ends] at h; cases h
          | some n => exact ⟨n, rfl⟩
      obtain ⟨inner, w, r', closes, -⟩ := exists_of_contentEnd ends
      cases closes with
      | last content closes close =>
        exact here (isProperty_eq_true_iff.1 property) (.closed read event content closes close)
    | .error cause =>
      rw [extentFrom_of_step read, event] at h
      simp only [property] at h
      cases h
termination_by r.rest.length

/-- **The scan for a property.**  It finds the first element with the tag of the property. -/
theorem extentFrom_eq_some_iff {position : Nat} {e : Extent} :
    extentFrom key position r = .ok (some e) ↔
      ∃ p tags, First key r p tags ∧ e = p.extent position := by
  refine ⟨exists_of_extentFrom, ?_⟩
  rintro ⟨_, tags, ⟨reads, element, named⟩, rfl⟩
  rw [extentFrom_of_reads reads, extentFrom_of_element element named]
  simp only [Parts.extent, Text.byteSize_append, Nat.add_assoc]

/-! ## Cutting the element out -/

/-- The attributes of a tag are what stands behind its name, without slashes at the end and white space
around. -/
theorem attributeText_eq {rest : Text} (h : Markup.TagText (element ++ rest)) :
    attributeText ('<' :: (element ++ rest) ++ ['>'])
      = Text.trim (Text.dropEndWhile (· == '/') rest) := by
  have opened : ('<' :: (element ++ rest) ++ ['>']).dropWhile (· == '<') = element ++ rest ++ ['>'] :=
    rfl
  have closed : Text.dropEndWhile (· == '>') (element ++ rest ++ ['>']) = element ++ rest := by
    rw [Text.dropEndWhile_append, Text.dropEndWhile_of_all rfl, List.append_nil]
    intro c last
    rw [beq_eq_false_iff_ne]
    rintro rfl
    exact h.getLast?_ne last
  have named : Text.dropEndWhile (· == '/') (element ++ rest)
      = element ++ Text.dropEndWhile (· == '/') rest :=
    Text.dropEndWhile_append (by rintro c ⟨⟩; rfl) rest
  have dropped : Text.dropPrefix? element (element ++ Text.dropEndWhile (· == '/') rest)
      = some (Text.dropEndWhile (· == '/') rest) :=
    Text.dropPrefix?_eq_some_iff.2 rfl
  rw [attributeText, opened, closed, named, dropped]
  rfl

/-- How the tag of a property is written. -/
theorem First.exists_tagText (h : First key r p tags) :
    ∃ rest, p.tag = '<' :: (element ++ rest) ++ ['>'] ∧ Markup.TagText (element ++ rest) := by
  obtain ⟨-, whole, named⟩ := h
  obtain ⟨slash, text, reads, -⟩ := whole.exists_tagText
  obtain ⟨rest, rfl, -⟩ := named.exists_append
  rw [List.append_assoc] at text reads
  exact ⟨rest ++ slash, text, reads⟩

/-- The text with another value of the property. -/
def Parts.filled (p : Parts) (value : Text) : Text :=
  p.before ++ write (attributeText p.tag) value ++ p.after

theorem cutTag?_whole (p : Parts) : cutTag? p.whole (p.extent 0) = some (p.before, p.tag) := by
  have first : Text.splitAtByte? (p.extent 0).start p.whole
      = some (p.before, p.tag ++ (p.inner ++ p.after)) :=
    Text.splitAtByte?_eq_some_iff.2 ⟨by simp [Parts.whole], by simp [Parts.extent]⟩
  have second : Text.splitAtByte? ((p.extent 0).tagStop - (p.extent 0).start)
      (p.tag ++ (p.inner ++ p.after)) = some (p.tag, p.inner ++ p.after) :=
    Text.splitAtByte?_eq_some_iff.2 ⟨rfl, by simp [Parts.extent, Text.byteSize_append]⟩
  rw [cutTag?, first]
  simp only [Option.bind_eq_bind, Option.bind_some]
  rw [second]
  rfl

/-- A text in front of which there is no byte order mark. -/
def Unmarked (t : Text) : Prop :=
  t.head? ≠ some '\ufeff'

theorem Unmarked.ofText_eq {t : Text} (h : Unmarked t) : Reader.ofText t = ⟨[], t⟩ := by
  cases t with
  | nil => rfl
  | cons c t => exact Reader.ofText_cons (fun same => h (congrArg some same)) t

variable {meta_ : Text}

theorem First.extent?_eq (h : First key (Reader.ofText meta_) p tags) :
    extent? meta_ key = .ok (some (p.extent 0)) :=
  extentFrom_eq_some_iff.2 ⟨p, tags, h, rfl⟩

theorem First.whole_eq (h : First key (Reader.ofText meta_) p tags) (unmarked : Unmarked meta_) :
    meta_ = p.whole := by
  have same := h.rest_eq
  rwa [unmarked.ofText_eq] at same

/-- A property that is there exists. -/
theorem First.existsIn_eq (h : First key (Reader.ofText meta_) p tags) (unmarked : Unmarked meta_) :
    existsIn meta_ key = .ok true := by
  rw [existsIn, h.extent?_eq]
  simp only
  rw [h.whole_eq unmarked, cutTag?_whole]

/-- Only properties that are there exist. -/
theorem exists_first_of_existsIn (there : existsIn meta_ key = .ok true) :
    ∃ p tags, First key (Reader.ofText meta_) p tags := by
  rw [existsIn] at there
  split at there
  · cases there
  · cases there
  · next e found =>
    obtain ⟨p, tags, first, -⟩ := extentFrom_eq_some_iff.1 found
    exact ⟨p, tags, first⟩

/-- A property that is there is set. -/
theorem First.set_eq (h : First key (Reader.ofText meta_) p tags) (unmarked : Unmarked meta_)
    (value : Text) : set meta_ key value = .ok (some (p.filled value)) := by
  have stop : Text.splitAtByte? (p.extent 0).stop p.whole
      = some (p.before ++ (p.tag ++ p.inner), p.after) :=
    Text.splitAtByte?_eq_some_iff.2 ⟨rfl, by simp [Parts.extent]⟩
  rw [set, h.extent?_eq]
  simp only
  rw [h.whole_eq unmarked, cutTag?_whole, stop]
  rfl

/-! ## Setting a property in its place -/

/-- Setting a property exchanges the element of the first property of the name, keeps its attributes, and
leaves the text around it as it is.  It never fails by cutting the text inside a character. -/
structure SetInPlace (meta_ key value : Text) : Prop where
  exchanged : ∀ new, set meta_ key value = .ok (some new) →
    ∃ mark p tags rest, meta_ = mark ++ p.whole ∧ First key (Reader.ofText meta_) p tags ∧
      p.tag = '<' :: (element ++ rest) ++ ['>'] ∧
      new = mark ++ p.before
        ++ ('<' :: element ++ ' ' :: Text.trim (Text.dropEndWhile (· == '/') rest) ++ '>' :: value
          ++ "</".toList ++ element ++ ['>'])
        ++ p.after
  uncut : set meta_ key value ≠ .error .insideCharacter

/-- If no element is found, none is exchanged. -/
theorem setInPlace_of_absent {value : Text}
    (absent : ¬ ∃ p tags, First key (Reader.ofText meta_) p tags) : SetInPlace meta_ key value := by
  have none_ (e : Extent) : extent? meta_ key ≠ .ok (some e) := by
    intro found
    obtain ⟨p, tags, first, -⟩ := extentFrom_eq_some_iff.1 found
    exact absent ⟨p, tags, first⟩
  have answer : (∃ cause, set meta_ key value = .error (.markup cause)) ∨
      set meta_ key value = .ok none := by
    rw [set]
    cases found : extent? meta_ key with
    | error cause => exact .inl ⟨cause, rfl⟩
    | ok e? =>
      cases e? with
      | none => exact .inr rfl
      | some e => exact absurd found (none_ e)
  rcases answer with ⟨cause, failed⟩ | nothing
  · exact ⟨fun new done => (by rw [failed] at done; cases done), by rw [failed]; exact nofun⟩
  · exact ⟨fun new done => (by rw [nothing] at done; cases done), by rw [nothing]; exact nofun⟩

theorem First.setInPlace (h : First key (Reader.ofText meta_) p tags) (unmarked : Unmarked meta_)
    (value : Text) : SetInPlace meta_ key value := by
  refine ⟨fun new done => ?_, by rw [h.set_eq unmarked]; exact nofun⟩
  obtain ⟨rest, text, reads⟩ := h.exists_tagText
  rw [h.set_eq unmarked] at done
  cases done
  refine ⟨[], p, tags, rest, h.whole_eq unmarked, h, text, ?_⟩
  rw [Parts.filled, text, attributeText_eq reads]
  rfl

/-- What is written ends with the bracket of the end tag. -/
theorem exists_write_eq (attributes value : Text) :
    ∃ front, write attributes value = front ++ "ned>".toList := by
  have name : element ++ ['>'] = "meta:user-defi".toList ++ "ned>".toList := by decide
  refine ⟨'<' :: element ++ ' ' :: attributes ++ '>' :: value ++ "</".toList
    ++ "meta:user-defi".toList, ?_⟩
  rw [write, List.append_assoc _ element, name]
  simp only [List.append_assoc]

/-- Behind a byte order mark, three bytes of the end tag are left behind the new element. -/
theorem not_setInPlace_of_marked {s value : Text} {e : Extent}
    (found : extent? ('\ufeff' :: s) key = .ok (some e)) :
    ¬ SetInPlace ('\ufeff' :: s) key value := by
  rintro ⟨exchanged, uncut⟩
  rw [set, found] at exchanged uncut
  simp only at exchanged uncut
  match tag? : cutTag? ('\ufeff' :: s) e, behind : Text.splitAtByte? e.stop ('\ufeff' :: s) with
  | none, _ => exact uncut (by rw [tag?])
  | some (before, tag), none => exact uncut (by rw [tag?, behind])
  | some (before, tag), some (passed, after) =>
    rw [tag?, behind] at exchanged
    obtain ⟨mark, q, tags, rest, whole, first, -, same⟩ := exchanged _ rfl
    have range := first.extent?_eq
    rw [found] at range
    cases range
    obtain ⟨cut, size⟩ := Text.splitAtByte?_eq_some_iff.1 behind
    have begins : s = q.whole := first.rest_eq
    obtain ⟨front, written⟩ := exists_write_eq (attributeText tag) value
    obtain ⟨front', written'⟩ :=
      exists_write_eq (Text.trim (Text.dropEndWhile (· == '/') rest)) value
    have longer : Text.byteSize after = Text.byteSize ("ed>".toList ++ q.after) := by
      have sizes := congrArg Text.byteSize cut
      have three : Text.byteSize "ed>".toList = 3 := by decide
      have mark : '\ufeff'.utf8Size = 3 := by decide
      rw [Text.byteSize_cons, begins, Parts.whole] at sizes
      simp only [Parts.extent, Text.byteSize_append, Nat.zero_add] at sizes size ⊢
      omega
    have same : before ++ write (attributeText tag) value ++ after
        = mark ++ q.before ++ write (Text.trim (Text.dropEndWhile (· == '/') rest)) value ++ q.after :=
      same
    have parts : (before ++ front ++ "ned>".toList) ++ after
        = (mark ++ q.before ++ front' ++ ['n']) ++ ("ed>".toList ++ q.after) := by
      rw [written, written'] at same
      simpa using same
    have ends := congrArg List.getLast? (Text.append_inj_of_byteSize parts longer).1
    have bracket : "ned>".toList.getLast? = some '>' := rfl
    rw [List.getLast?_append, bracket, List.getLast?_concat] at ends
    exact absurd ends (by simp)

/-- **Setting touches only the property.**  Setting a property exchanges its element and nothing else,
and never cuts inside a character, unless a byte order mark is in front of a text with such a property;
then it is never so.  Without the mark, a property that is there is set. -/
theorem setInPlace_iff_unmarked (meta_ key value : Text) :
    (SetInPlace meta_ key value ↔
      Unmarked meta_ ∨ ¬ ∃ p tags, First key (Reader.ofText meta_) p tags) ∧
    (Unmarked meta_ → ∀ p tags, First key (Reader.ofText meta_) p tags →
      set meta_ key value = .ok (some (p.filled value))) := by
  refine ⟨⟨fun inPlace => ?_, ?_⟩, fun unmarked p tags first => first.set_eq unmarked value⟩
  · by_contra marked
    rw [not_or, not_not, Unmarked, not_not] at marked
    obtain ⟨mark, p, tags, first⟩ := marked
    obtain ⟨s, rfl⟩ := List.head?_eq_some_iff.1 mark
    exact not_setInPlace_of_marked first.extent?_eq inPlace
  · rintro (unmarked | absent)
    · by_cases there : ∃ p tags, First key (Reader.ofText meta_) p tags
      · obtain ⟨p, tags, first⟩ := there
        exact first.setInPlace unmarked value
      · exact setInPlace_of_absent there
    · exact setInPlace_of_absent absent

/-- A property in a text with a byte order mark. -/
def markedMeta : Text :=
  '\ufeff' :: "<meta:user-defined meta:name=\"a\">x</meta:user-defined>".toList

/-- The element that is put in has the mark among its attributes, and the end of the old one stays. -/
theorem marked_property_misplaced :
    set markedMeta "a".toList "1".toList
        = .ok (some ("<meta:user-defined ".toList
          ++ '\ufeff' :: "<meta:user-defined meta:name=\">1</meta:user-defined>ed>".toList)) ∧
      ¬ SetInPlace markedMeta "a".toList "1".toList := by
  have found : extent? markedMeta "a".toList = .ok (some ⟨0, 33, 54⟩) := by decide +kernel
  exact ⟨by decide +kernel, not_setInPlace_of_marked found⟩

end DocumentMerge.Property
