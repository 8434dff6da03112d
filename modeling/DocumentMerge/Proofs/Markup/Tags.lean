import DocumentMerge.Proofs.Markup.Attributes
import DocumentMerge.Proofs.Markup.Pieces

/-!
# Tags that are written with quoted attributes

A tag with attributes in quotes is read as it was written, if the names are names, no key is there
twice, and no value has the quote.

* `tagText` is the text of such a tag.
* `attributes_tagText`: its attributes are read back, and none is faulty.
* `tagText_iff`: which texts are those of a tag, said by the quotes that are open (`openQuote`).
* `tagEnd?_tagText`: the tag ends behind its attributes.  So an empty tag is a piece of markup
  (`written_tagText`).
-/

namespace DocumentMerge.Markup

/-- A character that can stand in the name of a tag or of an attribute. -/
def isNameChar (c : Char) : Bool :=
  c != '=' && !isSpace c && c != '"' && c != '\'' && c != '>'

/-- An attribute, as it is written behind the name of a tag or behind another attribute. -/
def attributeText (key value : Text) : Text :=
  ' ' :: key ++ '=' :: '"' :: value ++ ['"']

/-- The text of a tag with attributes. -/
def tagText (name : Text) (attributes : List Attribute) : Text :=
  name ++ attributes.flatMap fun a => attributeText a.key a.value

/-! ## Reading attributes -/

theorem isAttribute_attributeText {key value : Text} (nonempty : key ≠ [])
    (name : key.all isNameChar = true) (free : '"' ∉ value) :
    IsAttribute ⟨key, value⟩ (attributeText key value) := by
  have inKey_ (c : Char) (h : isNameChar c = true) : inKey c = true := by
    rw [isNameChar] at h
    simp only [Bool.and_eq_true] at h
    rw [inKey, Bool.and_eq_true]
    exact h.1.1.1
  obtain ⟨first, key, rfl⟩ := List.exists_cons_of_ne_nil nonempty
  rw [List.all_cons, Bool.and_eq_true] at name
  obtain ⟨letter, name⟩ := name
  have solid : isSpace first = false := by
    have inside := inKey_ first letter
    rw [inKey, Bool.and_eq_true] at inside
    simpa using inside.2
  have name : key.all inKey = true :=
    List.all_eq_true.2 fun c mem => inKey_ c (List.all_eq_true.1 name c mem)
  have text : attributeText (first :: key) value
      = [' '] ++ first :: (key ++ ([] ++ '=' :: ([] ++ '"' :: (value ++ ['"'])))) := by
    simp [attributeText]
  rw [text]
  exact .mk (by decide) solid name rfl rfl (.inl rfl) free

/-- What can be written so that it is read back. -/
def Writable (attributes : List Attribute) : Prop :=
  (attributes.map Attribute.key).Nodup ∧
    ∀ a ∈ attributes, a.key ≠ [] ∧ a.key.all isNameChar = true ∧ '"' ∉ a.value

theorem attributesFrom_tagText {attributes : List Attribute} (h : Writable attributes)
    {seen : List (Text × Nat)} (new : ∀ a ∈ attributes, a.key ∉ seen.map Prod.fst)
    (position : Nat) :
    attributesFrom seen ⟨position, attributes.flatMap fun a => attributeText a.key a.value⟩
      = attributes.map .ok := by
  induction attributes generalizing seen position with
  | nil =>
    rw [attributesFrom]
    rfl
  | cons a attributes ih =>
    obtain ⟨distinct, each⟩ := h
    rw [List.map_cons, List.nodup_cons] at distinct
    obtain ⟨nonempty, name, free⟩ := each a List.mem_cons_self
    have unseen : (seen.find? fun k => k.1 == a.key) = none := by
      rw [List.find?_eq_none]
      intro k mem
      have other : k.1 ≠ a.key := fun same =>
        new a List.mem_cons_self (same ▸ List.mem_map_of_mem mem)
      simpa using other
    obtain ⟨start, next, read⟩ := attributesFrom_of_isAttribute
      (isAttribute_attributeText nonempty name free) unseen position
      (attributes.flatMap fun a => attributeText a.key a.value)
    rw [List.flatMap_cons, read, List.map_cons,
      ih ⟨distinct.2, fun b mem => each b (List.mem_cons_of_mem a mem)⟩ fun b mem => ?_]
    rw [List.map_cons, List.mem_cons, not_or]
    refine ⟨fun same => distinct.1 ?_, new b (List.mem_cons_of_mem a mem)⟩
    have same : b.key = a.key := same
    rw [← same]
    exact List.mem_map_of_mem mem

/-- The name of a tag ends where its attributes begin. -/
theorem tagName_tagText {name : Text} (h : name.all isNameChar = true)
    (attributes : List Attribute) : tagName (tagText name attributes) = name := by
  have pass : ∀ c ∈ name, (!isSpace c) = true := by
    intro c mem
    have letter := List.all_eq_true.1 h c mem
    rw [isNameChar] at letter
    simp only [Bool.and_eq_true] at letter
    exact letter.1.1.1.2
  rw [tagName, tagText, List.takeWhile_append_of_pos pass]
  cases attributes with
  | nil => exact List.append_nil name
  | cons a attributes =>
    rw [List.flatMap_cons]
    exact List.append_nil name

/-- **Attributes are read back.** -/
theorem attributes_tagText {name : Text} (named : name.all isNameChar = true)
    {attributes : List Attribute} (h : Writable attributes) :
    Markup.attributes (tagText name attributes) = attributes.map .ok := by
  rw [Markup.attributes, tagName_tagText named, tagText, List.drop_left]
  exact attributesFrom_tagText h (fun a mem => List.not_mem_nil) _

/-! ## Quotes -/

/-- The quote that is open behind a character. -/
def quoteAfter : Option Char → Char → Option Char
  | some q, c => if c = q then none else some q
  | none, c => if c = '"' ∨ c = '\'' then some c else none

/-- The quote that is open behind a text. -/
def openQuote (quote : Option Char) (t : Text) : Option Char :=
  t.foldl quoteAfter quote

@[simp] theorem openQuote_nil (quote : Option Char) : openQuote quote [] = quote := rfl

@[simp] theorem openQuote_cons (quote : Option Char) (c : Char) (t : Text) :
    openQuote quote (c :: t) = openQuote (quoteAfter quote c) t := rfl

theorem openQuote_append (quote : Option Char) (s t : Text) :
    openQuote quote (s ++ t) = openQuote (openQuote quote s) t :=
  List.foldl_append

theorem isQuote_openQuote {quote : Option Char} {t : Text} (h : ∀ q ∈ quote, IsQuote q) :
    ∀ q ∈ openQuote quote t, IsQuote q := by
  induction t generalizing quote with
  | nil => exact h
  | cons c t ih =>
    refine ih ?_
    intro q mem
    cases quote with
    | some q' =>
      rw [quoteAfter] at mem
      split at mem
      · cases mem
      · exact h q mem
    | none =>
      rw [quoteAfter] at mem
      split at mem
      · next quote => cases mem; exact quote
      · cases mem

/-- A text without quotes neither opens nor closes one. -/
theorem openQuote_of_free {quote : Option Char} (h : ∀ q ∈ quote, IsQuote q) {t : Text}
    (free : ∀ c ∈ t, ¬ IsQuote c) : openQuote quote t = quote := by
  induction t with
  | nil => rfl
  | cons c t ih =>
    have other : ¬ IsQuote c := free c List.mem_cons_self
    have same : quoteAfter quote c = quote := by
      cases quote with
      | some q => exact if_neg fun (same : c = q) => other (same ▸ h q rfl)
      | none => exact if_neg other
    rw [openQuote_cons, same, ih fun d mem => free d (List.mem_cons_of_mem c mem)]

theorem tagEnd?_append_iff {quote : Option Char} {seen t : Text} :
    (∀ y, tagEnd? quote seen (t ++ '>' :: y) = some (seen.reverse ++ t, y)) ↔
      openQuote quote t = none ∧ ∀ x y, t = x ++ '>' :: y → openQuote quote x ≠ none := by
  induction t generalizing quote seen with
  | nil =>
    cases quote with
    | some q =>
      refine ⟨fun all => ?_, fun h => by cases h.1⟩
      have none := all []
      simp [tagEnd?] at none
    | none => simp [tagEnd?]
  | cons c t ih =>
    by_cases closes : quote = none ∧ c = '>'
    · obtain ⟨rfl, rfl⟩ := closes
      refine ⟨fun all => ?_, fun h => absurd rfl (h.2 [] t rfl)⟩
      have short := all []
      simp [tagEnd?] at short
    · have step (y : Text) : tagEnd? quote seen (c :: t ++ '>' :: y)
          = tagEnd? (quoteAfter quote c) (c :: seen) (t ++ '>' :: y) := by
        cases quote with
        | some q => rfl
        | none => exact if_neg fun same => closes ⟨rfl, same⟩
      have ends : seen.reverse ++ c :: t = (c :: seen).reverse ++ t := by simp
      simp only [step, ends]
      rw [ih, openQuote_cons]
      refine and_congr_right fun _ => ⟨fun h x y split => ?_, fun h x y split => ?_⟩
      · cases x with
        | nil =>
          obtain ⟨same, -⟩ := List.cons_eq_cons.1 split
          exact fun none => closes ⟨none, same⟩
        | cons d x =>
          obtain ⟨rfl, rest⟩ := List.cons_eq_cons.1 split
          exact h x y rest
      · exact h (c :: x) y (congrArg (c :: ·) split)

/-- The text of a tag closes its quotes, and every `>` in it is in quotes. -/
theorem tagText_iff {t : Text} :
    TagText t ↔ openQuote none t = none ∧ ∀ x y, t = x ++ '>' :: y → openQuote none x ≠ none :=
  tagEnd?_append_iff

/-- A character that stands at the end of a tag and is no quote stands there outside quotes. -/
theorem TagText.openQuote_eq_none {s : Text} {c : Char} {t : Text} (h : TagText (s ++ c :: t))
    (free : ∀ d ∈ c :: t, ¬ IsQuote d) : openQuote none s = none := by
  have closed := (tagText_iff.1 h).1
  rw [openQuote_append, openQuote_of_free (isQuote_openQuote fun q mem => by cases mem) free] at closed
  exact closed

/-- No `>` stands at the end of a tag. -/
theorem TagText.getLast?_ne {t : Text} (h : TagText t) : t.getLast? ≠ some '>' := by
  intro last
  obtain ⟨s, rfl⟩ := List.getLast?_eq_some_iff.1 last
  refine (tagText_iff.1 h).2 s [] rfl (h.openQuote_eq_none fun d mem => ?_)
  rw [List.mem_singleton.1 mem]
  unfold IsQuote
  decide

/-- The plain text around a part of a tag can be exchanged. -/
theorem TagText.exchange {lead t trail lead' : Text} (h : TagText (lead ++ t ++ trail))
    (free : ∀ c ∈ lead, ¬ IsQuote c) (free' : ∀ c ∈ trail, ¬ IsQuote c)
    (plain : ∀ c ∈ lead', ¬ IsQuote c ∧ c ≠ '>') : TagText (lead' ++ t) := by
  have none_ : ∀ q ∈ (none : Option Char), IsQuote q := fun q mem => by cases mem
  have skip {s : Text} (free : ∀ c ∈ s, ¬ IsQuote c) (t : Text) :
      openQuote none (s ++ t) = openQuote none t := by
    rw [openQuote_append, openQuote_of_free none_ free]
  have skip' := skip fun c mem => (plain c mem).1
  rw [tagText_iff] at h ⊢
  obtain ⟨closed, inside⟩ := h
  rw [List.append_assoc, skip free, openQuote_append,
    openQuote_of_free (isQuote_openQuote none_) free'] at closed
  refine ⟨by rw [skip', closed], fun x y split => ?_⟩
  rcases List.append_eq_append_iff.1 split with ⟨w, rfl, rfl⟩ | ⟨w, rfl, rest⟩
  · rw [skip']
    have quoted := inside (lead ++ w) (y ++ trail) (by simp)
    rwa [skip free] at quoted
  · cases w with
    | nil =>
      have quoted := inside lead (y ++ trail) (by simp at rest; simp [← rest])
      rw [← List.append_nil lead, skip free] at quoted
      exact absurd rfl quoted
    | cons d w =>
      obtain ⟨rfl, -⟩ := List.cons_eq_cons.1 rest
      exact absurd rfl (plain '>' (by simp)).2

/-! ## Where the tag ends -/

/-- Names do not end a tag. -/
theorem tagEnd?_name {name : Text} (h : name.all isNameChar = true) (seen s : Text) :
    tagEnd? none seen (name ++ s) = tagEnd? none (name.reverse ++ seen) s := by
  induction name generalizing seen with
  | nil => rfl
  | cons c name ih =>
    rw [List.all_cons, Bool.and_eq_true] at h
    obtain ⟨letter, h⟩ := h
    rw [isNameChar] at letter
    simp only [Bool.and_eq_true, bne_iff_ne] at letter
    rw [List.cons_append, tagEnd?, if_neg letter.2, if_neg (not_or.2 ⟨letter.1.1.2, letter.1.2⟩),
      ih h]
    simp

/-- Quoted texts do not end a tag. -/
theorem tagEnd?_quoted {value : Text} (free : '"' ∉ value) (seen s : Text) :
    tagEnd? (some '"') seen (value ++ '"' :: s) = tagEnd? none ('"' :: value.reverse ++ seen) s := by
  induction value generalizing seen with
  | nil => rfl
  | cons c value ih =>
    rw [List.mem_cons, not_or] at free
    rw [List.cons_append, tagEnd?, if_neg (Ne.symm free.1), ih free.2]
    simp

theorem tagEnd?_attributeText {key value : Text} (name : key.all isNameChar = true)
    (free : '"' ∉ value) (seen s : Text) :
    tagEnd? none seen (attributeText key value ++ s)
      = tagEnd? none ((attributeText key value).reverse ++ seen) s := by
  have text : attributeText key value ++ s = ' ' :: (key ++ '=' :: '"' :: (value ++ '"' :: s)) := by
    simp [attributeText]
  have space (t : Text) : tagEnd? none seen (' ' :: t) = tagEnd? none (' ' :: seen) t := rfl
  have equals (seen t : Text) :
      tagEnd? none seen ('=' :: '"' :: t) = tagEnd? (some '"') ('"' :: '=' :: seen) t := rfl
  rw [text, space, tagEnd?_name name, equals, tagEnd?_quoted free]
  simp [attributeText]

/-- **The end of a tag.**  Nothing in a tag with quoted attributes ends it. -/
theorem tagEnd?_tagText {name : Text} (named : name.all isNameChar = true)
    {attributes : List Attribute} (h : Writable attributes) (s : Text) :
    tagEnd? none [] (tagText name attributes ++ s)
      = tagEnd? none (tagText name attributes).reverse s := by
  have each := h.2
  rw [tagText, List.append_assoc, tagEnd?_name named, List.append_nil, List.reverse_append]
  generalize name.reverse = seen
  induction attributes generalizing seen with
  | nil => rfl
  | cons a attributes ih =>
    obtain ⟨-, key, free⟩ := each a List.mem_cons_self
    rw [List.flatMap_cons, List.append_assoc, tagEnd?_attributeText key free,
      ih ⟨(List.nodup_cons.1 h.1).2, fun b mem => each b (List.mem_cons_of_mem a mem)⟩
        fun b mem => each b (List.mem_cons_of_mem a mem)]
    simp

/-- An empty tag with quoted attributes is a piece of markup. -/
theorem written_tagText {name : Text} (nonempty : name ≠ []) (opens : Opens name)
    (named : name.all isNameChar = true) {attributes : List Attribute} (h : Writable attributes) :
    Written (.empty (tagText name attributes)) ('<' :: (tagText name attributes ++ "/>".toList)) := by
  have text : TagText (tagText name attributes ++ ['/']) := by
    intro y
    rw [List.append_assoc, tagEnd?_tagText named h]
    generalize tagText name attributes = tag
    have slash : tagEnd? none tag.reverse (['/'] ++ '>' :: y)
        = some (('/' :: tag.reverse).reverse, y) := rfl
    rw [slash]
    simp
  have opens : Opens (tagText name attributes ++ ['/']) := by
    obtain ⟨c, name, rfl⟩ := List.exists_cons_of_ne_nil nonempty
    exact opens
  have kind : openKind (tagText name attributes ++ ['/']) = .empty (tagText name attributes) := by
    rw [openKind, List.getLast?_concat, List.dropLast_concat]
    rfl
  have written := Written.tag text opens
  rw [kind] at written
  simpa using written

end DocumentMerge.Markup
