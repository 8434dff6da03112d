import DocumentMerge.Markup.Attribute
import Mathlib.Data.List.TakeWhile

/-!
# How attributes are written

The attributes of a tag are read one after the other.  An attribute ends with a closing quote, so how it
is written does not depend on what follows, and neither does what is read of it; only the white space
in front of it and around its equals sign is free.

* `IsAttribute` says how an attribute is written, without the reader.
* `attributesFrom_of_isAttribute`, `exists_of_attributesFrom`: these are the attributes that the reader
  takes, if their key is new, whatever stands behind them.
-/

namespace DocumentMerge.Markup

/-- A character of a key behind the first one. -/
def inKey (c : Char) : Bool :=
  c != '=' && !isSpace c

/-- A character that begins and ends the value of an attribute. -/
def IsQuote (c : Char) : Prop :=
  c = '"' ∨ c = '\''

/-- How an attribute is written behind the name of a tag or behind another attribute. -/
inductive IsAttribute : Attribute → Text → Prop
  | mk {lead gap gap' key value : Text} {first q : Char} : lead.all isSpace = true →
    isSpace first = false → key.all inKey = true → gap.all isSpace = true →
    gap'.all isSpace = true → IsQuote q → q ∉ value →
    IsAttribute ⟨first :: key, value⟩
      (lead ++ first :: (key ++ (gap ++ '=' :: (gap' ++ q :: (value ++ [q])))))

/-- An attribute ends with a quote. -/
theorem IsAttribute.exists_quote {a : Attribute} {w : Text} (h : IsAttribute a w) :
    ∃ u q, w = u ++ [q] ∧ IsQuote q := by
  obtain @⟨lead, gap, gap', key, value, first, q, -, -, -, -, -, quote, -⟩ := h
  exact ⟨lead ++ first :: (key ++ (gap ++ '=' :: (gap' ++ q :: value))), q, by simp, quote⟩

/-- The white space in front of an attribute is free. -/
theorem IsAttribute.exists_body {a : Attribute} {w : Text} (h : IsAttribute a w) :
    ∃ lead first body, lead.all isSpace = true ∧ isSpace first = false ∧ w = lead ++ first :: body ∧
      ∀ lead', lead'.all isSpace = true → IsAttribute a (lead' ++ first :: body) := by
  obtain ⟨blank, solid, inside, gap, gap', quote, free⟩ := h
  exact ⟨_, _, _, blank, solid, rfl, fun _ blank => .mk blank solid inside gap gap' quote free⟩

/-! ## Cursors -/

namespace Cursor

/-- A cursor stops at the first character that does not satisfy the condition. -/
theorem skip_append {p : Char → Bool} {s t : Text} (pass : s.all p = true)
    (stop : ∀ c ∈ t.head?, p c = false) (position : Nat) :
    skip ⟨position, s ++ t⟩ p = ⟨position + Text.byteSize s, t⟩ := by
  have pass := List.all_eq_true.1 pass
  rw [skip, List.takeWhile_append_of_pos pass, List.dropWhile_append_of_pos pass]
  cases t with
  | nil => simp
  | cons c t =>
    have stop : p c = false := stop c rfl
    simp [stop]

/-- There is one place where a cursor stops. -/
theorem append_inj_of_skip {p : Char → Bool} {s t s' t' : Text} (same : s ++ t = s' ++ t')
    (pass : s.all p = true) (stop : ∀ c ∈ t.head?, p c = false) (pass' : s'.all p = true)
    (stop' : ∀ c ∈ t'.head?, p c = false) : s = s' ∧ t = t' := by
  have skipped := skip_append pass stop 0
  rw [same, skip_append pass' stop' 0] at skipped
  have rest : t' = t := congrArg Cursor.rest skipped
  rw [rest] at same
  exact ⟨List.append_cancel_right same, rest.symm⟩

/-- What a cursor moves over, and where it stops. -/
theorem exists_of_skip (p : Char → Bool) (c : Cursor) :
    ∃ s, s = c.rest.takeWhile p ∧ s.all p = true ∧ c.rest = s ++ (c.skip p).rest ∧
      ∀ d ∈ (c.skip p).rest.head?, p d = false := by
  refine ⟨_, rfl, List.all_takeWhile, List.takeWhile_append_dropWhile.symm, fun d first => ?_⟩
  have stop := List.head?_dropWhile_not p c.rest
  rw [show c.rest.dropWhile p = (c.skip p).rest from rfl, first] at stop
  simpa using stop

/-- A quoted text is read up to the next quote. -/
theorem quotedText?_append {q : Char} {s : Text} (free : q ∉ s) (position : Nat) (t : Text) :
    quotedText? ⟨position, s ++ q :: t⟩ q = some (s, ⟨position + Text.byteSize s + 1, t⟩) := by
  have pass : ∀ c ∈ s, (c != q) = true := fun c mem => by
    simpa using ne_of_mem_of_not_mem mem free
  rw [quotedText?, List.takeWhile_append_of_pos pass, List.dropWhile_append_of_pos pass]
  simp

theorem exists_of_quotedText? {c next : Cursor} {q : Char} {t : Text}
    (h : c.quotedText? q = some (t, next)) : q ∉ t ∧ c.rest = t ++ q :: next.rest := by
  have split := List.takeWhile_append_dropWhile (p := fun d => d != q) (l := c.rest)
  have stop := List.head?_dropWhile_not (fun d => d != q) c.rest
  rw [quotedText?] at h
  cases ended : c.rest.dropWhile (fun d => d != q) with
  | nil => rw [ended] at h; cases h
  | cons d rest =>
    rw [ended] at h split stop
    cases h
    obtain rfl : d = q := by simpa using stop
    exact ⟨fun mem => by simpa using List.mem_takeWhile_imp mem, split.symm⟩

end Cursor

/-! ## The steps of reading -/

theorem valueStart_append {gap : Text} (blank : gap.all isSpace = true) {q : Char} (quote : IsQuote q)
    (position : Nat) (t : Text) :
    ∃ next, valueStart ⟨position, gap ++ q :: t⟩ = .quote q ⟨next, t⟩ := by
  have solid : ∀ c ∈ (q :: t).head?, isSpace c = false := by
    intro c first
    cases first
    rcases quote with rfl | rfl <;> rfl
  refine ⟨position + Text.byteSize gap + 1, ?_⟩
  rw [valueStart, Cursor.skip_append blank solid]
  exact if_pos quote

theorem exists_of_valueStart {c inside : Cursor} {q : Char} (h : valueStart c = .quote q inside) :
    ∃ gap, gap.all isSpace = true ∧ IsQuote q ∧ c.rest = gap ++ q :: inside.rest := by
  obtain ⟨gap, -, blank, split, -⟩ := Cursor.exists_of_skip isSpace c
  rw [valueStart] at h
  split at h
  · cases h
  · next d rest found =>
    split at h
    · next quote =>
      cases h
      exact ⟨gap, blank, quote, split.trans (congrArg (gap ++ ·) found)⟩
    · cases h

/-- A quoted value of a new key is read. -/
theorem attributeValue_of_quote {seen : List (Text × Nat)} {key value : Text} {c inside next : Cursor}
    {q : Char} (new : (seen.find? fun k => k.1 == key) = none)
    (begins : valueStart c = .quote q inside) (ends : inside.quotedText? q = some (value, next))
    (start : Nat) :
    attributeValue seen key start c = ⟨.ok ⟨key, value⟩, some (key, start), some next⟩ := by
  rw [attributeValue, new]
  simp only
  rw [begins]
  simp only
  rw [ends]

theorem exists_of_attributeValue {seen : List (Text × Nat)} {key : Text} {start : Nat} {c : Cursor}
    {a : Attribute} (h : (attributeValue seen key start c).outcome = .ok a) :
    ∃ q inside value next, (seen.find? fun k => k.1 == key) = none ∧
      valueStart c = .quote q inside ∧ inside.quotedText? q = some (value, next) ∧
      a = ⟨key, value⟩ := by
  rw [attributeValue] at h
  split at h
  · cases h
  · next new =>
    simp only at h
    split at h
    · next q inside begins =>
      split at h
      · next value next ends =>
        cases h
        exact ⟨q, inside, value, next, new, begins, ends, rfl⟩
      · cases h
    · cases h
    · cases h

/-- The cursor behind a key and the white space that follows. -/
def behindKey (position : Nat) (first : Char) (rest : Text) : Cursor :=
  (Cursor.skip ⟨position + first.utf8Size, rest⟩ inKey).skip isSpace

/-- The value is read behind an equals sign. -/
theorem attributeStep_of_equals {start position : Nat} {first : Char} {rest value : Text}
    (equals : behindKey start first rest = ⟨position, '=' :: value⟩) (seen : List (Text × Nat)) :
    attributeStep seen start first rest
      = attributeValue seen (first :: rest.takeWhile inKey) start ⟨position + 1, value⟩ := by
  have equals : (Cursor.skip ⟨start + first.utf8Size, rest⟩ fun d => d != '=' && !isSpace d).skip
      isSpace = ⟨position, '=' :: value⟩ := equals
  rw [attributeStep, equals]
  rfl

theorem exists_of_attributeStep {seen : List (Text × Nat)} {start : Nat} {first : Char} {rest : Text}
    {a : Attribute} (h : (attributeStep seen start first rest).outcome = .ok a) :
    ∃ position value, behindKey start first rest = ⟨position, '=' :: value⟩ := by
  rw [attributeStep] at h
  split at h
  · cases h
  · next value found =>
    exact ⟨_, value, congrArg (Cursor.mk _) found⟩
  · cases h

theorem attributesFrom_of_step {seen : List (Text × Nat)} {c next : Cursor} {start : Nat} {first : Char}
    {rest key : Text} {outcome : Except AttributeError Attribute}
    (skipped : c.skip isSpace = ⟨start, first :: rest⟩)
    (step : attributeStep seen start first rest = ⟨outcome, some (key, start), some next⟩) :
    attributesFrom seen c = outcome :: attributesFrom ((key, start) :: seen) next := by
  rw [attributesFrom]
  split
  · next none => rw [skipped] at none; cases none
  · next d t found =>
    rw [skipped] at found
    cases found
    rw [skipped]
    simp only
    rw [step]
    rfl

/-! ## Reading an attribute -/

/-- **An attribute is read as it is written.**  Reading goes on behind it. -/
theorem attributesFrom_of_isAttribute {a : Attribute} {w : Text} (h : IsAttribute a w)
    {seen : List (Text × Nat)} (new : (seen.find? fun k => k.1 == a.key) = none) (position : Nat)
    (rest : Text) :
    ∃ start next, attributesFrom seen ⟨position, w ++ rest⟩
      = .ok a :: attributesFrom ((a.key, start) :: seen) ⟨next, rest⟩ := by
  obtain @⟨lead, gap, gap', key, value, first, q, blank, solid, inside, between, between', quote,
    free⟩ := h
  have text : lead ++ first :: (key ++ (gap ++ '=' :: (gap' ++ q :: (value ++ [q])))) ++ rest
      = lead ++ first :: (key ++ (gap ++ '=' :: (gap' ++ q :: (value ++ q :: rest)))) := by
    simp
  have stop : ∀ c ∈ (gap ++ '=' :: (gap' ++ q :: (value ++ q :: rest))).head?, inKey c = false := by
    intro c same
    cases gap with
    | nil => cases same; rfl
    | cons d gap =>
      cases same
      rw [List.all_cons, Bool.and_eq_true] at between
      simp [inKey, between.1]
  have skipped := Cursor.skip_append
    (t := first :: (key ++ (gap ++ '=' :: (gap' ++ q :: (value ++ q :: rest))))) blank
    (fun c same => by cases same; exact solid) position
  generalize position + Text.byteSize lead = start at skipped
  obtain ⟨p, equals⟩ : ∃ p, behindKey start first
      (key ++ (gap ++ '=' :: (gap' ++ q :: (value ++ q :: rest))))
        = ⟨p, '=' :: (gap' ++ q :: (value ++ q :: rest))⟩ := by
    refine ⟨start + first.utf8Size + Text.byteSize key + Text.byteSize gap, ?_⟩
    rw [behindKey, Cursor.skip_append inside stop, Cursor.skip_append between]
    intro c same
    cases same
    rfl
  obtain ⟨p', begins⟩ := valueStart_append between' quote (p + 1) (value ++ q :: rest)
  have step := attributeStep_of_equals equals seen
  have taken : (key ++ (gap ++ '=' :: (gap' ++ q :: (value ++ q :: rest)))).takeWhile inKey = key := by
    obtain ⟨s, same, -, split, -⟩ := Cursor.exists_of_skip inKey
      ⟨0, key ++ (gap ++ '=' :: (gap' ++ q :: (value ++ q :: rest)))⟩
    rw [Cursor.skip_append inside stop] at split
    rw [← same]
    exact (List.append_cancel_right split).symm
  rw [taken, attributeValue_of_quote new begins (Cursor.quotedText?_append free p' rest)] at step
  rw [text]
  exact ⟨start, _, attributesFrom_of_step skipped step⟩

/-- **What is read is written so.**  An attribute that is read without a fault is the first one that is
written, and its key is new. -/
theorem exists_of_attributesFrom {seen : List (Text × Nat)} {c : Cursor} {a : Attribute}
    {more : List (Except AttributeError Attribute)} (h : attributesFrom seen c = .ok a :: more) :
    ∃ w rest start next, IsAttribute a w ∧ c.rest = w ++ rest ∧
      (seen.find? fun k => k.1 == a.key) = none ∧
      more = attributesFrom ((a.key, start) :: seen) ⟨next, rest⟩ := by
  obtain ⟨lead, -, blank, split, solid⟩ := Cursor.exists_of_skip isSpace c
  cases skipped : c.skip isSpace with
  | mk start left =>
    rw [skipped] at split solid
    cases left with
    | nil =>
      rw [attributesFrom] at h
      split at h
      · cases h
      · next found => rw [skipped] at found; cases found
    | cons first rest =>
      have solid : isSpace first = false := solid first rfl
      have ok : (attributeStep seen start first rest).outcome = .ok a := by
        rw [attributesFrom] at h
        split at h
        · cases h
        · next found =>
          rw [skipped] at found h
          cases found
          exact (List.cons.inj h).1
      obtain ⟨p, behind, equals⟩ := exists_of_attributeStep ok
      have step := attributeStep_of_equals equals seen
      rw [step] at ok
      obtain ⟨q, inside, value, next, new, begins, ends, rfl⟩ := exists_of_attributeValue ok
      rw [attributeValue_of_quote new begins ends] at step
      rw [attributesFrom_of_step skipped step] at h
      obtain ⟨gap', between', quote, valued⟩ := exists_of_valueStart begins
      obtain ⟨free, closed⟩ := Cursor.exists_of_quotedText? ends
      obtain ⟨key, same, inside', keyed, -⟩ := Cursor.exists_of_skip inKey
        ⟨start + first.utf8Size, rest⟩
      obtain ⟨gap, -, between, spaced, -⟩ := Cursor.exists_of_skip isSpace
        (Cursor.skip ⟨start + first.utf8Size, rest⟩ inKey)
      rw [behindKey] at equals
      rw [equals] at spaced
      simp only at split keyed spaced valued same
      rw [← same] at new h ⊢
      refine ⟨_, next.rest, start, next.position,
        .mk blank solid inside' between between' quote free, ?_, new, (List.cons.inj h).2.symm⟩
      rw [split, keyed, spaced, valued, closed]
      simp

end DocumentMerge.Markup
