import DocumentMerge.Proofs.Markup.Recovering
import DocumentMerge.Proofs.Package.Properties

/-!
# Setting a property again

A property that was set is there, and setting it again is the same as setting it once to the last value.
Other properties are there or not as before.  All this is a matter of the new element: it has to be read
where it stands, as the element of the same property.

Its tag holds the old attributes, trimmed.  White space is trimmed that is none for the reader, such as
`'\u1680'`, which can begin the name of an attribute; then the attributes may be others than before.

* `First.attributed`: the attributes of the property, with what is trimmed around them.
* `First.refilled`: if the new tag names the property, the new element is its first one.
* `Same`: two readers find a property or not, and come to the end of an element or not, alike.
  `Same.of_reads`: so they do if they read the same text before.
* `updates_last_iff_named`: the last value wins if the new tag names the property, and not otherwise.
-/

namespace DocumentMerge.Property

open Markup (Reader Event Step Reads Content Element Written IsAttribute IsQuote TagText openQuote)

variable {key : Text} {r r' m : Reader} {p : Parts} {tags : List Text} {meta_ : Text}

/-! ## Attributes that are trimmed -/

theorem not_isQuote_of_isBlank {c : Char} (h : Text.isBlank c = true) : ¬ IsQuote c ∧ c ≠ '/' := by
  refine ⟨?_, ?_⟩
  · rintro (rfl | rfl)
    · exact absurd h (by decide)
    · exact absurd h (by decide)
  · rintro rfl
    exact absurd h (by decide)

/-- In a tag, slashes outside quotes stand only behind the opening bracket and before the closing one. -/
def SlashesAtEnds (tag : Text) : Prop :=
  ∀ x y, tag = '<' :: (x ++ '/' :: y) ++ ['>'] → openQuote none x = none → x = [] ∨ y = []

/-- The tag of a property, with the attributes of the property and the white space around them. -/
structure Attributed (key tag lead attributes trail slash : Text) : Prop where
  text : tag = '<' :: (element ++ (lead ++ attributes ++ trail) ++ slash) ++ ['>']
  reads : TagText (element ++ (lead ++ attributes ++ trail) ++ slash)
  before : lead.all Text.isBlank = true
  behind : trail.all Text.isBlank = true
  slashed : slash = [] ∨ slash = ['/']
  first : ∀ c ∈ attributes.head?, Text.isBlank c = false
  last : ∀ c ∈ attributes.getLast?, Text.isBlank c = false
  unslashed : attributes.getLast? ≠ some '/'
  names : Names key [] (lead ++ attributes ++ trail)

/-- A slash behind which a tag has no quotes is the last character of the tag. -/
theorem SlashesAtEnds.eq_nil {x y : Text} (h : SlashesAtEnds ('<' :: (x ++ '/' :: y) ++ ['>']))
    (reads : TagText (x ++ '/' :: y)) (free : ∀ c ∈ y, ¬ IsQuote c) (nonempty : x ≠ []) : y = [] := by
  have outside : openQuote none x = none := by
    refine reads.openQuote_eq_none fun c mem => ?_
    rcases List.mem_cons.1 mem with rfl | mem
    · unfold IsQuote
      decide
    · exact free c mem
  exact (h x y rfl outside).resolve_left nonempty

/-- Something that is not blank is behind each slash of a tag but the one that marks an empty tag. -/
theorem SlashesAtEnds.not_blank_behind {x trail slash : Text}
    (h : SlashesAtEnds ('<' :: (x ++ '/' :: trail ++ slash) ++ ['>']))
    (reads : TagText (x ++ '/' :: trail ++ slash))
    (ends : slash = [] ∧ (x ++ '/' :: trail).getLast? ≠ some '/' ∨ slash = ['/']) (nonempty : x ≠ []) :
    ¬ trail.all Text.isBlank = true := by
  intro blank
  have free : ∀ c ∈ trail ++ slash, ¬ IsQuote c := by
    intro c mem
    rcases List.mem_append.1 mem with mem | mem
    · exact (not_isQuote_of_isBlank (List.all_eq_true.1 blank c mem)).1
    · rcases ends with ⟨rfl, -⟩ | rfl
      · cases mem
      · rw [List.mem_singleton.1 mem]
        unfold IsQuote
        decide
  rw [List.append_assoc, List.cons_append] at h reads
  obtain ⟨rfl, rfl⟩ := List.append_eq_nil_iff.1 (h.eq_nil reads free nonempty)
  rcases ends with ⟨-, last⟩ | same
  · exact last List.getLast?_concat
  · cases same

/-- The attributes of a property are in its tag. -/
theorem First.attributed (h : First key r p tags) (slashes : SlashesAtEnds p.tag) :
    ∃ lead trail slash, Attributed key p.tag lead (attributeText p.tag) trail slash := by
  obtain @⟨m, r', front, tag, written, inner, tags, -, whole, named⟩ := h
  simp only at slashes ⊢
  obtain ⟨slash, text, reads, ends⟩ := whole.exists_tagText
  obtain ⟨rest, rfl, names⟩ := named.exists_append
  have unslashed (x trail : Text) (split : element ++ rest = x ++ '/' :: trail)
      (blank : trail.all Text.isBlank = true) : False := by
    have nonempty : x ≠ [] := by
      rintro rfl
      exact absurd (List.cons.inj split).1 (by decide)
    rw [text, split] at slashes
    rw [split] at reads ends
    exact slashes.not_blank_behind reads ends nonempty blank
  obtain ⟨lead, trail, split, before, behind, first, last⟩ := Text.exists_of_trim rest
  have slashText : Text.dropEndWhile (· == '/') (rest ++ slash) = rest := by
    rw [Text.dropEndWhile_append, Text.dropEndWhile_of_all, List.append_nil]
    · rcases ends with ⟨rfl, -⟩ | rfl
      · rfl
      · rfl
    · intro c last
      rw [beq_eq_false_iff_ne]
      rintro rfl
      obtain ⟨x, same⟩ := List.getLast?_eq_some_iff.1 last
      exact unslashed (element ++ x) [] (by rw [same, List.append_assoc]) rfl
  have same : attributeText written = Text.trim rest := by
    rw [List.append_assoc] at text reads
    rw [text, attributeText_eq reads, slashText]
  rw [same]
  refine ⟨lead, trail, slash, ?_, ?_, before, behind, ?_, first, last, fun ended => ?_, ?_⟩
  · rw [← split, text]
  · rwa [← split]
  · exact ends.imp And.left id
  · obtain ⟨x, same⟩ := List.getLast?_eq_some_iff.1 ended
    refine unslashed (element ++ lead ++ x) trail ?_ behind
    rw [split, same]
    simp
  · rwa [← split]

/-! ## The new tag -/

/-- The tag that is written for a property with some attributes. -/
def newTag (attributes : Text) : Text :=
  element ++ ' ' :: attributes

/-- The end tag that is written. -/
def endTag : Text :=
  "</".toList ++ element ++ ['>']

theorem write_eq (attributes value : Text) :
    write attributes value = '<' :: newTag attributes ++ ['>'] ++ (value ++ endTag) := by
  simp [write, newTag, endTag]

/-- The text with another value of the property, in parts. -/
def Parts.refilled (p : Parts) (value : Text) : Parts :=
  ⟨p.before, '<' :: newTag (attributeText p.tag) ++ ['>'], value ++ endTag, p.after⟩

/-- The new tag is read as a start tag. -/
theorem Attributed.written {tag lead attributes trail slash : Text}
    (h : Attributed key tag lead attributes trail slash) :
    Written (.start (newTag attributes)) ('<' :: newTag attributes ++ ['>']) := by
  have plain : ∀ c ∈ element ++ [' '], ¬ IsQuote c ∧ c ≠ '>' := by
    refine fun c mem => ⟨?_, ?_⟩
    · rintro (rfl | rfl) <;> exact absurd mem (by decide)
    · rintro rfl
      exact absurd mem (by decide)
  have blank {t : Text} (all : t.all Text.isBlank = true) : ∀ c ∈ t, ¬ IsQuote c := fun c mem =>
    (not_isQuote_of_isBlank (List.all_eq_true.1 all c mem)).1
  have text : TagText (element ++ [' '] ++ attributes) := by
    have whole : TagText (element ++ lead ++ attributes ++ (trail ++ slash)) := by simpa using h.reads
    refine whole.exchange ?_ ?_ plain
    · intro c mem
      rcases List.mem_append.1 mem with mem | mem
      · exact (plain c (List.mem_append_left _ mem)).1
      · exact blank h.before c mem
    · intro c mem
      rcases List.mem_append.1 mem with mem | mem
      · exact blank h.behind c mem
      · rcases h.slashed with rfl | rfl
        · cases mem
        · rw [List.mem_singleton.1 mem]
          unfold IsQuote
          decide
  have same : newTag attributes = element ++ [' '] ++ attributes := by simp [newTag]
  rw [same]
  refine text.written_start (fun c begins => ?_) ?_
  · cases begins
    decide
  · rw [List.getLast?_append]
    intro last
    cases ends : attributes.getLast? with
    | none => rw [ends] at last; exact absurd last (by decide)
    | some c =>
      rw [ends] at last
      cases last
      exact h.unslashed ends

/-- The attributes of the new tag are those that were trimmed. -/
theorem Attributed.attributeText_eq {tag lead attributes trail slash : Text}
    (h : Attributed key tag lead attributes trail slash) :
    attributeText ('<' :: newTag attributes ++ ['>']) = attributes := by
  obtain ⟨-, reads, -⟩ := h.written.start
  have slashes : Text.dropEndWhile (· == '/') (' ' :: attributes) = ' ' :: attributes := by
    have stop : ∀ c ∈ (' ' :: attributes).getLast?, (c == '/') = false := by
      intro c last
      rw [beq_eq_false_iff_ne]
      rintro rfl
      cases attributes with
      | nil => exact absurd last (by decide)
      | cons d t =>
        rw [List.getLast?_cons_cons] at last
        exact h.unslashed last
    have kept := Text.dropEndWhile_append stop []
    rwa [List.append_nil, Text.dropEndWhile_of_all (t := []) rfl, List.append_nil] at kept
  have trimmed : Text.trim ([' '] ++ attributes ++ []) = attributes :=
    Text.trim_append (by decide) rfl h.first h.last
  rw [List.append_nil] at trimmed
  rw [newTag, Property.attributeText_eq reads, slashes]
  exact trimmed

/-! ## Names in the new tag -/

/-- Attributes end before what holds no quotes. -/
theorem exists_append_of_isAttribute {a : Markup.Attribute} {w rest t trail : Text}
    (h : IsAttribute a w) (split : w ++ rest = t ++ trail) (free : ∀ c ∈ trail, ¬ IsQuote c) :
    ∃ x, t = w ++ x ∧ rest = x ++ trail := by
  rcases List.append_eq_append_iff.1 split with ⟨x, rfl, rfl⟩ | ⟨x, rfl, rfl⟩
  · exact ⟨x, rfl, rfl⟩
  · obtain ⟨u, q, ends, quote⟩ := h.exists_quote
    rcases List.eq_nil_or_concat x with rfl | ⟨x, c, rfl⟩
    · exact ⟨[], by simp, by simp⟩
    · have last := congrArg List.getLast? ends
      simp only [List.concat_eq_append, ← List.append_assoc, List.getLast?_concat] at last
      cases last
      exact absurd quote (free q (by simp))

theorem Names.of_append {name t trail : Text} {seen : List Text} (h : Names name seen (t ++ trail))
    (free : ∀ c ∈ trail, ¬ IsQuote c) : Names name seen t := by
  generalize whole : t ++ trail = u at h
  induction h generalizing t with
  | here is_ new named value =>
    obtain ⟨x, rfl, -⟩ := exists_append_of_isAttribute is_ whole.symm free
    exact .here is_ new named value
  | behind is_ new other _ ih =>
    obtain ⟨x, rfl, rest⟩ := exists_append_of_isAttribute is_ whole.symm free
    exact .behind is_ new other (ih rest.symm)

/-- The white space in front of the first attribute is free. -/
theorem Names.exchange_lead {name lead t lead' : Text} {seen : List Text}
    (h : Names name seen (lead ++ t)) (blank : lead.all Markup.isSpace = true)
    (solid : ∀ c ∈ t.head?, Markup.isSpace c = false) (blank' : lead'.all Markup.isSpace = true) :
    Names name seen (lead' ++ t) := by
  have first {a : Markup.Attribute} {w rest : Text} (is_ : IsAttribute a w)
      (split : lead ++ t = w ++ rest) : ∃ w', IsAttribute a w' ∧ lead' ++ t = w' ++ rest := by
    obtain ⟨front, c, body, space, begins, rfl, any⟩ := is_.exists_body
    rw [List.append_assoc] at split
    obtain ⟨-, rfl⟩ := Markup.Cursor.append_inj_of_skip split blank solid space
      (fun d same => by cases same; exact begins)
    exact ⟨_, any lead' blank', by simp⟩
  generalize whole : lead ++ t = u at h
  cases h with
  | here is_ new named value =>
    obtain ⟨w', is', same⟩ := first is_ whole
    rw [same]
    exact .here is' new named value
  | behind is_ new other later =>
    obtain ⟨w', is', same⟩ := first is_ whole
    rw [same]
    exact .behind is' new other later

/-- The new tag names the property if the attributes begin behind the white space of markup. -/
theorem Attributed.named {tag lead attributes trail slash : Text}
    (h : Attributed key tag lead attributes trail slash)
    (begins : ∀ c ∈ ((tag.drop ('<' :: element).length).dropWhile Markup.isSpace).head?,
      Text.isBlank c = false) : Named key (newTag attributes) := by
  have space : ∀ c, Markup.isSpace c = true → Text.isBlank c = true := by
    intro c
    rw [Markup.isSpace]
    simp only [Bool.or_eq_true, beq_iff_eq]
    rintro (((rfl | rfl) | rfl) | rfl) <;> decide
  have solid : ∀ c ∈ attributes.head?, Markup.isSpace c = false := fun c first => by
    by_contra other
    rw [Bool.not_eq_false] at other
    exact absurd (h.first c first) (by rw [space c other]; decide)
  have blank : lead.all Markup.isSpace = true := by
    have behind : tag.drop ('<' :: element).length = lead ++ (attributes ++ trail ++ slash ++ ['>']) := by
      have text : tag = ('<' :: element) ++ (lead ++ (attributes ++ trail ++ slash ++ ['>'])) := by
        rw [h.text]
        simp
      rw [text, List.drop_left]
    rw [behind] at begins
    by_contra other
    rw [Bool.not_eq_true, List.all_eq_false] at other
    obtain ⟨c, mem, text⟩ := other
    have stop := List.head?_dropWhile_not Markup.isSpace lead
    cases rest : lead.dropWhile Markup.isSpace with
    | nil => exact text (List.dropWhile_eq_nil_iff.1 rest c mem)
    | cons d t =>
      rw [List.dropWhile_append, rest] at begins
      have solid : Text.isBlank d = false := begins d rfl
      have there : d ∈ lead := (List.dropWhile_sublist _).subset (rest ▸ List.mem_cons_self)
      rw [List.all_eq_true.1 h.before d there] at solid
      cases solid
  have free : ∀ c ∈ trail, ¬ IsQuote c := fun c mem =>
    (not_isQuote_of_isBlank (List.all_eq_true.1 h.behind c mem)).1
  have names : Names key [] ([' '] ++ attributes) :=
    (h.names.of_append free).exchange_lead blank solid (by decide)
  exact ⟨rfl, names⟩

/-! ## The new element -/

/-- The new element is read, and holds no elements. -/
theorem element_refilled {attributes value : Text}
    (written : Written (.start (newTag attributes)) ('<' :: newTag attributes ++ ['>']))
    (plain : '<' ∉ value) (opened : List Text) (after : Text) :
    Element ⟨opened, '<' :: newTag attributes ++ ['>'] ++ (value ++ endTag ++ after)⟩
      (newTag attributes) ('<' :: newTag attributes ++ ['>']) (value ++ endTag) []
      ⟨opened, after⟩ := by
  have name : Markup.tagName (newTag attributes) = element := rfl
  have start := Reader.step?_of_written written (rfl : Reader.meaning opened (.start _) = .ok _)
    (value ++ endTag ++ after)
  have closing : Written (.close element) endTag := .close fun y => rfl
  have means : Reader.meaning (Markup.tagName (newTag attributes) :: opened) (.close element)
      = .ok (.close, opened) := by
    rw [name]
    rfl
  have close := Reader.step?_of_written closing means after
  have content : Content ⟨Markup.tagName (newTag attributes) :: opened, value ++ (endTag ++ after)⟩ []
      value ⟨Markup.tagName (newTag attributes) :: opened, endTag ++ after⟩ := by
    by_cases nonempty : value = []
    · rw [nonempty]
      exact .nil _
    · have text := Reader.step?_of_plain nonempty plain (y := endTag ++ after)
        (fun c first => by cases first; rfl) (Markup.tagName (newTag attributes) :: opened)
      have more := Content.other text rfl (.nil _)
      rwa [List.append_nil] at more
  rw [List.append_assoc value] at start ⊢
  exact .closed start rfl content close rfl

/-- The text with another value is read the same way up to the new element. -/
theorem First.exists_reads (h : First key r p tags) :
    ∃ opened, ∀ value, Reads (Skipped key) ⟨r.opened, p.filled value⟩ p.before
      ⟨opened, '<' :: newTag (attributeText p.tag) ++ ['>'] ++ (value ++ endTag ++ p.after)⟩ := by
  obtain @⟨m, r', before, tag, first, inner, tags, reads, whole, named⟩ := h
  refine ⟨m.opened, fun value => ?_⟩
  have again := reads.relocate
    (y := '<' :: newTag (attributeText first) ++ ['>'] ++ (value ++ endTag ++ r'.rest)) rfl
  simpa [Parts.filled, write_eq] using again

/-- **The new element.**  If the new tag names the property, it is its first element. -/
theorem First.refilled (h : First key r p tags)
    (written : Written (.start (newTag (attributeText p.tag)))
      ('<' :: newTag (attributeText p.tag) ++ ['>']))
    (named : Named key (newTag (attributeText p.tag))) {value : Text} (plain : '<' ∉ value) :
    First key ⟨r.opened, p.filled value⟩ (p.refilled value) [] := by
  obtain ⟨opened, reads⟩ := h.exists_reads
  exact .mk (reads value) (element_refilled written plain opened p.after) named

/-- What is passed over is in front of the element. -/
theorem First.exists_behind {w : Text} (passed : Reads (Skipped key) r w m) (h : First key r p tags) :
    ∃ before, p.before = w ++ before ∧ First key m ⟨before, p.tag, p.inner, p.after⟩ tags := by
  induction passed generalizing p with
  | stop r => exact ⟨p.before, rfl, h⟩
  | @step r m s w read skipped _ ih =>
    obtain @⟨m', r', before, tag, first, inner, tags, reads, whole, named⟩ := h
    cases reads with
    | stop =>
      -- the tag of the property is not passed over
      have found : isProperty key tag = .ok true := isProperty_eq_true_iff.2 named
      cases whole with
      | empty read' event | closed read' event =>
        rw [read] at read'
        cases read'
        rw [event, Skipped, found] at skipped
        cases skipped
    | step read' _ later =>
      rw [read] at read'
      cases read'
      obtain ⟨before, split, first⟩ := ih (.mk later whole named)
      exact ⟨before, (congrArg (s.written ++ ·) split).trans (List.append_assoc _ _ _).symm, first⟩

theorem Unmarked.filled (h : First key (Reader.ofText meta_) p tags) (unmarked : Unmarked meta_)
    (value : Text) : Unmarked (p.filled value) := by
  have whole := h.whole_eq unmarked
  cases p with
  | mk before tag inner after =>
    cases before with
    | nil => exact fun same => by cases same
    | cons c before =>
      rw [whole] at unmarked
      exact unmarked

/-- The attributes stay as they are when the property is set again. -/
theorem Attributed.filled_refilled {lead trail slash : Text}
    (h : Attributed key p.tag lead (attributeText p.tag) trail slash) (v w : Text) :
    (p.refilled v).filled w = p.filled w := by
  rw [Parts.filled, Parts.refilled]
  simp only
  rw [h.attributeText_eq]
  rfl

/-- **The last value wins.**  The property is there after it was set, and is set again to the last
value. -/
theorem First.set_filled (h : First key (Reader.ofText meta_) p tags) (unmarked : Unmarked meta_)
    {lead trail slash : Text} (attributed : Attributed key p.tag lead (attributeText p.tag) trail slash)
    (named : Named key (newTag (attributeText p.tag))) {v : Text} (plain : '<' ∉ v) (w : Text) :
    existsIn (p.filled v) key = .ok true ∧ set (p.filled v) key w = set meta_ key w := by
  have unmarked' := unmarked.filled h v
  have first : First key (Reader.ofText (p.filled v)) (p.refilled v) [] := by
    have new := h.refilled attributed.written named plain
    rw [unmarked.ofText_eq] at new
    rwa [unmarked'.ofText_eq]
  refine ⟨first.existsIn_eq unmarked', ?_⟩
  rw [first.set_eq unmarked', h.set_eq unmarked, attributed.filled_refilled]

/-- If the last value wins, the new tag names the property. -/
theorem First.named_of_set_filled (h : First key (Reader.ofText meta_) p tags)
    (unmarked : Unmarked meta_)
    (written : Written (.start (newTag (attributeText p.tag)))
      ('<' :: newTag (attributeText p.tag) ++ ['>']))
    (there : existsIn (p.filled []) key = .ok true)
    (last : set (p.filled []) key ['a'] = set meta_ key ['a']) :
    Named key (newTag (attributeText p.tag)) := by
  have unmarked' := unmarked.filled h []
  obtain ⟨⟨front, text, inner, after⟩, tags', first⟩ := exists_first_of_existsIn there
  have whole := first.whole_eq unmarked'
  rw [first.set_eq unmarked', h.set_eq unmarked] at last
  have last := Option.some.inj (Except.ok.inj last)
  obtain ⟨opened, reads⟩ := h.exists_reads
  rw [unmarked.ofText_eq] at reads
  rw [unmarked'.ofText_eq] at first
  obtain ⟨before, split, behind⟩ := first.exists_behind (reads [])
  have start := Reader.step?_of_written written (rfl : Reader.meaning opened (.start _) = .ok _)
    ([] ++ endTag ++ p.after)
  simp only at split behind
  obtain @⟨m, r', before, tag, _, _, _, passed, element_, named⟩ := behind
  cases passed with
  | stop =>
    cases element_ with
    | empty read event =>
      rw [start] at read
      cases read
      cases event
    | closed read event =>
      rw [start] at read
      cases read
      cases event
      exact named
  | @step _ _ s w read skipped later =>
    -- the property that is found is another one, which is behind the new element
    rw [start] at read
    cases read
    exfalso
    have left : endTag ++ p.after = w ++ (text ++ inner ++ r'.rest) := by
      rw [Parts.whole, split, Parts.filled, write_eq] at whole
      simpa using whole
    have right : w ++ (write (attributeText text) ['a'] ++ r'.rest) = 'a' :: (endTag ++ p.after) := by
      rw [Parts.filled, Parts.filled, split, write_eq (attributeText p.tag)] at last
      simpa using last
    cases w with
    | nil => exact absurd (List.cons.inj right).1 (by decide)
    | cons c w =>
      have bracket : '<' = c := (List.cons.inj left).1
      exact absurd (bracket.trans (List.cons.inj right).1) (by decide)

/-! ## Other properties -/

/-- Two readers find a property or not, and come to the end of open elements or not, alike, wherever they
count from. -/
structure Same (key : Text) (r q : Reader) : Prop where
  found : ∀ i j, (extentFrom key i r).map Option.isSome = (extentFrom key j q).map Option.isSome
  closed : ∀ depth i j,
    (contentEnd depth i r).map Option.isSome = (contentEnd depth j q).map Option.isSome

namespace Same

variable {q q' : Reader} {s t : Step}

theorem symm (h : Same key r q) : Same key q r :=
  ⟨fun i j => (h.found j i).symm, fun depth i j => (h.closed depth j i).symm⟩

theorem trans (h : Same key r q) (h' : Same key q q') : Same key r q' :=
  ⟨fun i j => (h.found i 0).trans (h'.found 0 j),
    fun depth i j => (h.closed depth i 0).trans (h'.closed depth 0 j)⟩

/-- Whether an end is found does not depend on what is answered with it. -/
theorem map_isSome_map {α β : Type} (f : α → β) (x : Except Markup.Error (Option α)) :
    (x.map fun y => y.map f).map Option.isSome = x.map Option.isSome := by
  cases x with
  | error cause => rfl
  | ok y => exact congrArg Except.ok Option.isSome_map

/-- Two readers are alike if they read alike pieces and are alike behind them. -/
theorem of_step (read : r.step? = .ok (some s)) (read' : q.step? = .ok (some t))
    (event : s.event = t.event) (h : Same key s.next t.next) : Same key r q := by
  constructor
  · intro i j
    rw [extentFrom_of_step read, extentFrom_of_step read', ← event]
    generalize s.event = e
    cases e with
    | other => exact h.found _ _
    | close => exact h.found _ _
    | empty tag =>
      simp only
      rcases isProperty key tag with cause | (_ | _)
      · rfl
      · exact h.found _ _
      · rfl
    | start tag =>
      simp only
      rcases isProperty key tag with cause | (_ | _)
      · rfl
      · exact h.found _ _
      · -- the property begins here, and it ends in both texts or in neither
        simp only
        rw [map_isSome_map, map_isSome_map]
        exact h.closed _ _ _
  · intro depth i j
    rw [contentEnd_of_step read, contentEnd_of_step read', ← event]
    generalize s.event = e
    cases e with
    | other => exact h.closed _ _ _
    | empty tag => exact h.closed _ _ _
    | start tag => exact h.closed _ _ _
    | close =>
      cases depth with
      | zero => rfl
      | succ depth => exact h.closed _ _ _

theorem refl (key : Text) (r : Reader) : Same key r r := by
  by_cases read : ∃ s, r.step? = .ok (some s)
  · obtain ⟨s, read⟩ := read
    have shorter := Reader.length_step? read
    exact of_step read read rfl (refl key s.next)
  · have ended := not_exists.1 read
    constructor
    · intro i j
      rw [extentFrom_of_end ended, extentFrom_of_end ended]
    · intro depth i j
      rw [contentEnd_of_end ended, contentEnd_of_end ended]
termination_by r.rest.length

/-- An element without elements in it is passed over. -/
theorem of_element {tag first rest : Text} (h : Element r tag first rest [] r')
    (other : isProperty key tag = .ok false) : Same key r r' := by
  have self := refl key r'
  cases h with
  | empty read event =>
    constructor
    · intro i j
      rw [extentFrom_of_skipped read (by rw [event]; exact other)]
      exact self.found _ _
    · intro depth i j
      rw [contentEnd_of_step read, event]
      exact self.closed _ _ _
  | closed read event content closes close =>
    constructor
    · intro i j
      rw [extentFrom_of_skipped read (by rw [event]; exact other),
        extentFrom_of_reads (content.reads.mono fun e same => by rw [same]; trivial),
        extentFrom_of_skipped closes (by rw [close]; trivial)]
      exact self.found _ _
    · intro depth i j
      rw [contentEnd_of_step read, event]
      simp only
      rw [contentEnd_of_content content, contentEnd_of_step closes, close]
      exact self.closed _ _ _

/-- **Other properties.**  Two readers are alike if they read the same up to places where they are
alike. -/
theorem of_reads {P : Event → Prop} {w : Text} (h : Reads P r w m) {y : Text}
    (bracket : y.head? = some '<') (same : Same key m ⟨m.opened, y⟩) :
    Same key r ⟨r.opened, w ++ y⟩ := by
  induction h with
  | stop r => exact same
  | @step r m s w read _ later ih =>
    have again := Reader.step?_relocate read (later.begins bracket)
    rw [List.append_assoc]
    exact of_step read again rfl (ih same)

end Same

/-- Whether a property exists is whether its element is found. -/
theorem Unmarked.existsIn_eq (unmarked : Unmarked meta_) (key : Text) :
    existsIn meta_ key = match (extent? meta_ key).map Option.isSome with
      | .ok found => .ok found
      | .error cause => .error (.markup cause) := by
  cases found : extent? meta_ key with
  | error cause => rw [existsIn, found]; rfl
  | ok e? =>
    cases e? with
    | none => rw [existsIn, found]; rfl
    | some e =>
      obtain ⟨p, tags, first, -⟩ := extentFrom_eq_some_iff.1 found
      rw [first.existsIn_eq unmarked]
      rfl

/-- **Other properties stay.**  If there are no elements in the element of the property, and the new tag
names it, the other properties exist or not as before. -/
theorem First.existsIn_filled (h : First key (Reader.ofText meta_) p []) (unmarked : Unmarked meta_)
    (written : Written (.start (newTag (attributeText p.tag)))
      ('<' :: newTag (attributeText p.tag) ++ ['>']))
    (named : Named key (newTag (attributeText p.tag))) {v : Text} (plain : '<' ∉ v) {other : Text}
    (differ : other ≠ key) : existsIn (p.filled v) other = existsIn meta_ other := by
  have unmarked' := unmarked.filled h v
  rw [unmarked.existsIn_eq, unmarked'.existsIn_eq, extent?, extent?, unmarked.ofText_eq,
    unmarked'.ofText_eq]
  have alike : Same other ⟨[], meta_⟩ ⟨[], p.filled v⟩ := by
    rw [unmarked.ofText_eq] at h
    obtain @⟨m, r', before, tag, first, inner, _, reads, whole, named'⟩ := h
    have old : Same other m r' := .of_element whole (named'.isProperty_eq_false differ)
    have new := Same.of_element (element_refilled written plain m.opened r'.rest)
      (named.isProperty_eq_false differ)
    have opened : (⟨m.opened, r'.rest⟩ : Reader) = r' := by rw [← whole.opened_eq]
    rw [opened] at new
    have text : Parts.filled ⟨before, first, inner, r'.rest⟩ v = before
        ++ ('<' :: newTag (attributeText first) ++ ['>'] ++ (v ++ endTag ++ r'.rest)) := by
      simp [Parts.filled, write_eq]
    rw [text]
    exact .of_reads reads rfl (old.trans new.symm)
  rw [alike.found 0 0]

/-- **Updates are last-write-wins.**  A property that is there is set to every value.  The last value
wins, and the property is there after it was set, exactly if the tag that is written names the property.
It does so if the attributes begin behind the white space of markup, and then other properties exist or not
as before, if the element of the property holds no elements. -/
theorem updates_last_iff_named {meta_ key : Text} {p : Parts} {tags : List Text}
    (unmarked : Unmarked meta_) (first : First key (Reader.ofText meta_) p tags)
    (slashes : SlashesAtEnds p.tag) :
    (∀ v, set meta_ key v = .ok (some (p.filled v))) ∧
    ((∀ v w, existsIn (p.filled (Markup.escape v)) key = .ok true ∧
        set (p.filled (Markup.escape v)) key (Markup.escape w) = set meta_ key (Markup.escape w)) ↔
      Named key (newTag (attributeText p.tag))) ∧
    ((∀ c ∈ ((p.tag.drop ('<' :: element).length).dropWhile Markup.isSpace).head?,
        Text.isBlank c = false) → Named key (newTag (attributeText p.tag))) ∧
    (Named key (newTag (attributeText p.tag)) → tags = [] → ∀ v other, other ≠ key →
      existsIn (p.filled (Markup.escape v)) other = existsIn meta_ other) := by
  obtain ⟨lead, trail, slash, attributed⟩ := first.attributed slashes
  have plain (v : Text) : '<' ∉ Markup.escape v :=
    Markup.notMem_escape (by decide) v
  refine ⟨first.set_eq unmarked, ⟨fun last => ?_, fun named v w => ?_⟩, attributed.named, ?_⟩
  · have once := last [] ['a']
    exact first.named_of_set_filled unmarked attributed.written once.1 once.2
  · exact first.set_filled unmarked attributed named (plain v) (Markup.escape w)
  · rintro named rfl v other differ
    exact first.existsIn_filled unmarked attributed.written named (plain v) differ

/-! ## Two texts -/

/-- A tag without slashes but the one of an empty tag. -/
theorem slashesAtEnds_of_notMem {t : Text} (free : '/' ∉ t) : SlashesAtEnds ('<' :: (t ++ ['/']) ++ ['>']) := by
  intro x y split _
  have split : t ++ ['/'] = x ++ '/' :: y := List.append_cancel_right (List.cons.inj split).2
  rcases List.append_eq_append_iff.1 split with ⟨w, rfl, rest⟩ | ⟨w, rfl, rest⟩
  · cases w with
    | nil => exact .inr (List.cons.inj rest).2.symm
    | cons c w => exact .inr (by simp at rest)
  · cases w with
    | nil => exact .inr (by simpa using rest)
    | cons c w =>
      obtain ⟨rfl, -⟩ := List.cons_eq_cons.1 rest
      simp at free

/-- A property without a value. -/
def emptyProperty : Text :=
  "<meta:user-defined meta:name=\"k\"/>".toList

/-- A property without a value is set twice. -/
theorem updates_last_iff_named_empty :
    ∃ p, Unmarked ("<m>".toList ++ emptyProperty ++ "</m>".toList) ∧
      First "k".toList (Reader.ofText ("<m>".toList ++ emptyProperty ++ "</m>".toList)) p [] ∧
      SlashesAtEnds p.tag ∧
      ∀ v w, existsIn (p.filled (Markup.escape v)) "k".toList = .ok true ∧
        set (p.filled (Markup.escape v)) "k".toList (Markup.escape w)
          = .ok (some (p.filled (Markup.escape w))) ∧
        existsIn (p.filled (Markup.escape v)) "j".toList
          = existsIn ("<m>".toList ++ emptyProperty ++ "</m>".toList) "j".toList := by
  have unmarked : Unmarked ("<m>".toList ++ emptyProperty ++ "</m>".toList) := by
    unfold Unmarked
    decide
  have root : (Reader.ofText ("<m>".toList ++ emptyProperty ++ "</m>".toList)).step?
      = .ok (some ⟨.start ['m'], "<m>".toList, ⟨[['m']], emptyProperty ++ "</m>".toList⟩⟩) := by
    decide +kernel
  have read : (Reader.mk [['m']] (emptyProperty ++ "</m>".toList)).step?
      = .ok (some ⟨.empty "meta:user-defined meta:name=\"k\"".toList, emptyProperty,
          ⟨[['m']], "</m>".toList⟩⟩) := by
    decide +kernel
  have named : Named "k".toList "meta:user-defined meta:name=\"k\"".toList :=
    isProperty_eq_true_iff.1 (by decide +kernel)
  have skipped : isProperty "k".toList ['m'] = .ok false := rfl
  have first := First.mk (.step root skipped (.stop _)) (.empty read rfl) named
  have slashes : SlashesAtEnds emptyProperty :=
    slashesAtEnds_of_notMem (t := "meta:user-defined meta:name=\"k\"".toList) (by decide)
  obtain ⟨values, last, begins, others⟩ := updates_last_iff_named unmarked first slashes
  have named' := begins (by rintro c ⟨⟩; decide)
  refine ⟨_, unmarked, first, slashes, fun v w => ?_⟩
  obtain ⟨there, again⟩ := last.2 named' v w
  exact ⟨there, again.trans (values _), others named' rfl v _ (by decide)⟩

/-- A property with an attribute whose name begins with a character that is trimmed. -/
def blankAttribute : Text :=
  "<meta:user-defined \u1680x=\"1\" x=\"2\" meta:name=\"k\">v</meta:user-defined>".toList

/-- Two attributes have the same name after the property was set, so that it cannot be read again. -/
theorem property_lost :
    Unmarked blankAttribute ∧ existsIn blankAttribute "k".toList = .ok true ∧
      ∃ after, set blankAttribute "k".toList (Markup.escape "w".toList) = .ok (some after) ∧
        existsIn after "k".toList = .error (.markup (.attribute (.duplicate 24 18))) := by
  refine ⟨by unfold Unmarked; decide, by decide +kernel,
    "<meta:user-defined x=\"1\" x=\"2\" meta:name=\"k\">w</meta:user-defined>".toList, ?_, ?_⟩
  · decide +kernel
  · decide +kernel

end DocumentMerge.Property
