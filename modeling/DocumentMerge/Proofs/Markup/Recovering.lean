import DocumentMerge.Markup.Escape
import DocumentMerge.Markup.Reference
import DocumentMerge.Proofs.Text.Replacing

/-!
# Values that can be recovered

A value is stored in two passes: the special characters become entities, and then the line feeds
become line breaks.  Each pass writes characters that are special to the other one, or to itself: a
line break has the brackets that the first pass writes as entities, and an entity begins with an
ampersand.  So it has to be said why a value that looks like an entity, or like a line break, is
never mistaken for one.

* `escapeChar_cases`: a character is written as an entity, or it is not special and stays.
* `unescape_escape`: who reads an escaped attribute value reads the text again.
* `stored_cases`: what is stored for a character is a line break, an entity, or the character.
* `exists_stored_of_append`: where a bracket or an ampersand stands in an encoded value, something
  that is stored for one character begins (`encodeValue_lt`, `encodeValue_amp`).
* `unescape_encodeValue`: a line break that comes into an attribute value stays there.
* `recover`: line breaks are replaced by line feeds and then, in one pass, the entities by their
  characters.  `recover_encodeValue`: this gives the value again, so no two values are stored alike.
-/

namespace DocumentMerge.Markup

/-! ## Entities -/

/-- The characters that are written as entities. -/
def specials : Text := "&<>\"'".toList

/-- The entities, each with its character. -/
def entities : List (Text × Char) :=
  specials.map fun c => (escapeChar c, c)

theorem escapeChar_cases (c : Char) :
    (escapeChar c, c) ∈ entities ∨ escapeChar c = [c] ∧ c ∉ specials := by
  by_cases special : c ∈ specials
  · exact .inl (List.mem_map_of_mem special)
  · refine .inr ⟨?_, special⟩
    simp only [specials, String.reduceToList, List.mem_cons, List.not_mem_nil, or_false, not_or]
      at special
    obtain ⟨amp, lt, gt, quot, apos⟩ := special
    unfold escapeChar
    split
    · exact absurd rfl amp
    · exact absurd rfl lt
    · exact absurd rfl gt
    · exact absurd rfl quot
    · exact absurd rfl apos
    · rfl

/-- Characters that stand in no entity, but for the ampersand in front of it. -/
def outsiders : Text := "&<>\"'\n".toList

theorem exists_of_mem_entities {e : Text × Char} (h : e ∈ entities) :
    ∃ name, e.1 = '&' :: name ∧ ∀ d ∈ outsiders, d ∉ name := by
  have all : ∀ e ∈ entities, e.1.head? = some '&' ∧
      outsiders.all (fun d => decide (d ∉ e.1.tail)) = true := by
    decide
  obtain ⟨first, apart⟩ := all e h
  obtain ⟨name, same⟩ := List.head?_eq_some_iff.1 first
  rw [same] at apart
  exact ⟨name, same, fun d mem => of_decide_eq_true (List.all_eq_true.1 apart d mem)⟩

/-- No other special character than the ampersand stands in an escaped text. -/
theorem notMem_escape {d : Char} (special : d ∈ "<>\"'".toList) (t : Text) : d ∉ escape t := by
  have specials : ∀ d ∈ "<>\"'".toList, d ∈ outsiders ∧ d ∈ specials ∧ d ≠ '&' := by
    simp [outsiders, specials]
  obtain ⟨outside, written, differ⟩ := specials d special
  rw [escape, List.mem_flatMap]
  rintro ⟨c, -, mem⟩
  rcases escapeChar_cases c with entity | ⟨plain, other⟩
  · obtain ⟨name, same, free⟩ := exists_of_mem_entities entity
    have same : escapeChar c = '&' :: name := same
    rw [same, List.mem_cons] at mem
    exact free d outside (mem.resolve_left differ)
  · rw [plain, List.mem_singleton] at mem
    exact other (mem ▸ written)

/-! ## Entities are read back -/

/-- An entity is read as its character, whatever follows. -/
theorem unescapeFrom_entity (name : Text) {c : Char} (read : Text) (position : Nat) (rest : Text)
    (free : (name.all fun d => d != '&' && d != ';') = true)
    (resolved : ∀ start, resolve start name = .ok c) :
    ∃ after, unescapeFrom read position ('&' :: name ++ ';' :: rest)
      = unescapeFrom (c :: read) after rest := by
  have inside := List.all_eq_true.1 free
  have taken : (name ++ ';' :: rest).takeWhile (fun d => d != '&' && d != ';') = name := by
    rw [List.takeWhile_append_of_pos inside]
    simp
  have dropped : (name ++ ';' :: rest).dropWhile (fun d => d != '&' && d != ';')
      = ';' :: rest := by
    rw [List.dropWhile_append_of_pos inside]
    simp
  refine ⟨position + 2 + Text.byteSize name, ?_⟩
  rw [List.cons_append, unescapeFrom]
  simp only
  split
  · next rest' same =>
    rw [dropped] at same
    cases same
    rw [taken, resolved]
  · next other => exact absurd dropped (other rest)

/-- What is written for a character is read as this character. -/
theorem unescapeFrom_escapeChar (read : Text) (position : Nat) (c : Char) (rest : Text) :
    ∃ after, unescapeFrom read position (escapeChar c ++ rest)
      = unescapeFrom (c :: read) after rest := by
  unfold escapeChar
  split
  · exact unescapeFrom_entity "amp".toList _ _ _ (by decide) fun _ => rfl
  · exact unescapeFrom_entity "lt".toList _ _ _ (by decide) fun _ => rfl
  · exact unescapeFrom_entity "gt".toList _ _ _ (by decide) fun _ => rfl
  · exact unescapeFrom_entity "quot".toList _ _ _ (by decide) fun _ => rfl
  · exact unescapeFrom_entity "#039".toList _ _ _ (by decide) fun _ => rfl
  · next plain _ _ _ _ =>
    refine ⟨position + c.utf8Size, ?_⟩
    rw [List.singleton_append, unescapeFrom]
    exact plain

/-- **Reading undoes writing.**  A text whose special characters were written as entities is read
back as it was. -/
theorem unescape_escape (t : Text) : unescape (escape t) = .ok t := by
  have reads (t read : Text) (position : Nat) :
      unescapeFrom read position (escape t) = .ok (read.reverse ++ t) := by
    induction t generalizing read position with
    | nil => rw [escape_nil, unescapeFrom, List.append_nil]
    | cons c t ih =>
      obtain ⟨after, step⟩ := unescapeFrom_escapeChar read position c (escape t)
      rw [escape_cons, step, ih, List.reverse_cons, List.append_assoc]
      rfl
  rw [unescape, reads]
  rfl

/-! ## Line feeds -/

theorem breakLines_append (t u : Text) : breakLines (t ++ u) = breakLines t ++ breakLines u :=
  List.flatMap_append

/-- A text without line feeds has no lines to break. -/
theorem breakLines_of_free {t : Text} (free : '\n' ∉ t) : breakLines t = t := by
  induction t with
  | nil => rfl
  | cons c t ih =>
    rw [List.mem_cons, not_or] at free
    rw [breakLines, List.flatMap_cons, if_neg (Ne.symm free.1)]
    exact congrArg (c :: ·) (ih free.2)

/-- Entities bring in no line feed. -/
theorem lineFeed_notMem_escape {t : Text} (free : '\n' ∉ t) : '\n' ∉ escape t := by
  rw [escape, List.mem_flatMap]
  rintro ⟨c, mem, feed⟩
  rcases escapeChar_cases c with entity | ⟨plain, -⟩
  · obtain ⟨name, same, apart⟩ := exists_of_mem_entities entity
    have same : escapeChar c = '&' :: name := same
    rw [same, List.mem_cons] at feed
    exact apart '\n' (by decide) (feed.resolve_left (by decide))
  · rw [plain, List.mem_singleton] at feed
    exact free (feed ▸ mem)

theorem lineFeed_notMem_escapeChar {c : Char} (h : c ≠ '\n') : '\n' ∉ escapeChar c := by
  have free : '\n' ∉ escape [c] := lineFeed_notMem_escape (by simpa using h.symm)
  rwa [escape_cons, escape_nil, List.append_nil] at free

/-! ## What is stored for a character -/

/-- The form in which a character of a value is stored. -/
def stored (c : Char) : Text :=
  breakLines (escapeChar c)

/-- A value is stored character by character. -/
theorem encodeValue_true (value : Text) : encodeValue true value = value.flatMap stored := by
  rw [encodeValue, if_pos rfl, breakLines, escape, List.flatMap_assoc]
  rfl

theorem stored_cases (c : Char) :
    stored c = lineBreak ∨ (stored c, c) ∈ entities ∨ stored c = [c] ∧ c ∉ specials := by
  by_cases feed : c = '\n'
  · subst feed
    exact .inl rfl
  · rw [stored, breakLines_of_free (lineFeed_notMem_escapeChar feed)]
    exact .inr (escapeChar_cases c)

/-- A character of an encoded value lies in what is stored for some character. -/
theorem exists_stored_of_append {value front back : Text} {d : Char}
    (h : encodeValue true value = front ++ d :: back) :
    ∃ c u v more, stored c = u ++ d :: v ∧ back = v ++ more := by
  rw [encodeValue_true] at h
  induction value generalizing front with
  | nil => simp at h
  | cons c value ih =>
    rw [List.flatMap_cons, List.append_eq_append_iff] at h
    rcases h with ⟨rest, -, later⟩ | ⟨part, here, beyond⟩
    · exact ih later
    · cases part with
      | nil =>
        have later : value.flatMap stored = [] ++ d :: back := beyond.symm
        exact ih later
      | cons e v =>
        obtain ⟨rfl, rfl⟩ := List.cons_eq_cons.1 beyond
        exact ⟨c, front, v, _, here, rfl⟩

/-- Every bracket in an encoded value begins a line break. -/
theorem encodeValue_lt {value front back : Text}
    (h : encodeValue true value = front ++ '<' :: back) : lineBreak <+: '<' :: back := by
  obtain ⟨c, u, v, more, here, rfl⟩ := exists_stored_of_append h
  have mem : '<' ∈ stored c := by simp [here]
  rcases stored_cases c with same | entity | ⟨plain, special⟩
  · -- the only bracket of a line break is its first character
    have single : '<' ∉ lineBreak.tail := by decide
    rw [← same, here] at single ⊢
    cases u with
    | nil => exact ⟨more, rfl⟩
    | cons e u => simp at single
  · obtain ⟨name, same, free⟩ := exists_of_mem_entities entity
    have same : stored c = '&' :: name := same
    rw [same, List.mem_cons] at mem
    exact absurd (mem.resolve_left (by decide)) (free '<' (by decide))
  · rw [plain, List.mem_singleton] at mem
    exact absurd (mem ▸ by decide) special

/-- Every ampersand in an encoded value begins an entity. -/
theorem encodeValue_amp {value front back : Text}
    (h : encodeValue true value = front ++ '&' :: back) :
    ∃ e ∈ entities, e.1 <+: '&' :: back := by
  obtain ⟨c, u, v, more, here, rfl⟩ := exists_stored_of_append h
  have mem : '&' ∈ stored c := by simp [here]
  rcases stored_cases c with same | entity | ⟨plain, special⟩
  · rw [same] at mem
    exact absurd mem (by decide)
  · obtain ⟨name, same, free⟩ := exists_of_mem_entities entity
    have same : '&' :: name = u ++ '&' :: v := same.symm.trans here
    refine ⟨_, entity, more, ?_⟩
    rw [here]
    cases u with
    | nil => rfl
    | cons e u =>
      have inside : '&' ∈ name := by simp [(List.cons_eq_cons.1 same).2]
      exact absurd inside (free '&' (by decide))
  · rw [plain, List.mem_singleton] at mem
    exact absurd (mem ▸ by decide) special

/-! ## Line breaks in attribute values -/

/-- A text without ampersands is read as it is, whatever follows. -/
theorem unescapeFrom_of_free {t : Text} (free : '&' ∉ t) (read : Text) (position : Nat) (rest : Text) :
    ∃ after, unescapeFrom read position (t ++ rest)
      = unescapeFrom (t.reverse ++ read) after rest := by
  induction t generalizing read position with
  | nil => exact ⟨position, rfl⟩
  | cons c t ih =>
    rw [List.mem_cons, not_or] at free
    obtain ⟨after, reads⟩ := ih free.2 (c :: read) (position + c.utf8Size)
    refine ⟨after, ?_⟩
    rw [List.cons_append, unescapeFrom, reads]
    · simp
    · exact Ne.symm free.1

/-- A value that was encoded and is read as that of an attribute keeps its line breaks. -/
theorem unescape_encodeValue (value : Text) :
    unescape (encodeValue true value) = .ok (breakLines value) := by
  have character (c : Char) (read : Text) (position : Nat) (rest : Text) :
      ∃ after, unescapeFrom read position (stored c ++ rest)
        = unescapeFrom ((breakLines [c]).reverse ++ read) after rest := by
    by_cases feed : c = '\n'
    · subst feed
      exact unescapeFrom_of_free (t := lineBreak) (by decide) read position rest
    · rw [stored, breakLines_of_free (lineFeed_notMem_escapeChar feed),
        breakLines_of_free (by simpa using Ne.symm feed)]
      exact unescapeFrom_escapeChar read position c rest
  have reads (t read : Text) (position : Nat) :
      unescapeFrom read position (t.flatMap stored) = .ok (read.reverse ++ breakLines t) := by
    induction t generalizing read position with
    | nil => rw [List.flatMap_nil, unescapeFrom]; exact congrArg Except.ok (List.append_nil _).symm
    | cons c t ih =>
      obtain ⟨after, step⟩ := character c read position (t.flatMap stored)
      have parts : breakLines (c :: t) = breakLines [c] ++ breakLines t := breakLines_append [c] t
      rw [List.flatMap_cons, step, ih, parts]
      simp
  rw [unescape, encodeValue_true, reads]
  rfl

theorem breakLines_eq_self_iff {t : Text} : breakLines t = t ↔ '\n' ∉ t := by
  refine ⟨fun same => ?_, breakLines_of_free⟩
  rw [← same, breakLines, List.mem_flatMap]
  rintro ⟨c, -, mem⟩
  split at mem
  · exact absurd mem (by decide)
  · next other => exact other (List.mem_singleton.1 mem).symm

/-! ## Recovering -/

/-- An entity, found as its character. -/
def entityPattern : Pattern Char where
  match? s := entities.findSome? fun e => (Text.dropPrefix? e.1 s).map fun rest => (e.2, rest)
  consumes h := by
    obtain ⟨e, mem, found⟩ := List.exists_of_findSome?_eq_some h
    obtain ⟨rest, stands, same⟩ := Option.map_eq_some_iff.1 found
    cases same
    obtain ⟨name, first, -⟩ := exists_of_mem_entities mem
    exact ⟨e.1, by rw [first]; exact List.cons_ne_nil _ _, Text.dropPrefix?_eq_some_iff.1 stands⟩

/-- Replaces entities by their characters in one pass. -/
def resolveEntities (t : Text) : Text :=
  entityPattern.replace (fun c => [c]) t

/-- Replaces line breaks by line feeds, and then entities by their characters. -/
def recover (t : Text) : Text :=
  resolveEntities (Text.replaceAll lineBreak ['\n'] t)

theorem entityPattern_beginsWith : entityPattern.BeginsWith '&' := by
  intro s rest c h
  obtain ⟨e, mem, found⟩ := List.exists_of_findSome?_eq_some h
  obtain ⟨rest', stands, -⟩ := Option.map_eq_some_iff.1 found
  obtain ⟨name, first, -⟩ := exists_of_mem_entities mem
  rw [Text.dropPrefix?_eq_some_iff, first] at stands
  exact ⟨_, stands⟩

/-- An entity is found where it stands; none of them is the beginning of another one. -/
theorem entityPattern_match? {e : Text × Char} (h : e ∈ entities) (rest : Text) :
    entityPattern.match? (e.1 ++ rest) = some (e.2, rest) := by
  obtain ⟨c, special, rfl⟩ := List.mem_map.1 h
  simp only [specials, String.reduceToList, List.mem_cons, List.not_mem_nil, or_false] at special
  rcases special with rfl | rfl | rfl | rfl | rfl <;> rfl

/-- Entities are replaced by their characters. -/
theorem resolveEntities_escape (t : Text) : resolveEntities (escape t) = t := by
  induction t with
  | nil => exact Pattern.replace_nil _
  | cons c t ih =>
    rw [resolveEntities] at ih ⊢
    rw [escape_cons]
    rcases escapeChar_cases c with entity | ⟨plain, special⟩
    · have here := entityPattern_match? entity (escape t)
      rw [Pattern.replace_of_match here, ih]
      rfl
    · have differ : c ≠ '&' := by
        rintro rfl
        exact special (by decide)
      have none := entityPattern_beginsWith.match?_cons differ (escape t)
      rw [plain, List.singleton_append, Pattern.replace_cons_of_none none, ih]

/-- Line breaks are replaced by line feeds in a text that has no bracket else. -/
theorem replaceAll_breakLines {t : Text} (free : '<' ∉ t) :
    Text.replaceAll lineBreak ['\n'] (breakLines t) = t := by
  induction t with
  | nil => exact Text.replaceAll_nil
  | cons c t ih =>
    rw [List.mem_cons, not_or] at free
    rw [breakLines] at ih ⊢
    rw [List.flatMap_cons]
    split
    · next feed =>
      rw [Text.replaceAll_append_self (by decide), ih free.2, feed]
      rfl
    · have apart (s : Text) : ¬ lineBreak <+: c :: s := by
        have begins : lineBreak = '<' :: lineBreak.tail := rfl
        rw [begins, List.cons_prefix_cons]
        exact fun stands => free.1 stands.1
      rw [List.singleton_append, Text.replaceAll_cons_of_apart (apart _), ih free.2]

theorem recover_encodeValue (value : Text) : recover (encodeValue true value) = value := by
  rw [recover, encodeValue, if_pos rfl, replaceAll_breakLines (notMem_escape (by decide) value),
    resolveEntities_escape]

/-- **Escaped values are inert and can be recovered.**  In a value that was encoded with escaping
every bracket begins a line break and every ampersand begins an entity; line feeds in the place of
the line breaks, and then characters in the place of the entities, give the value again; so two
values that are stored alike are the same. -/
theorem encoded_values_recovered :
    (∀ value front back, encodeValue true value = front ++ '<' :: back →
      lineBreak <+: '<' :: back) ∧
    (∀ value front back, encodeValue true value = front ++ '&' :: back →
      ∃ e ∈ entities, e.1 <+: '&' :: back) ∧
    (∀ value, recover (encodeValue true value) = value) ∧
    Function.Injective (encodeValue true) :=
  ⟨fun _ _ _ => encodeValue_lt, fun _ _ _ => encodeValue_amp, recover_encodeValue,
    Function.LeftInverse.injective recover_encodeValue⟩

/-- A value that looks like an entity and a line break is not taken for them. -/
example : encodeValue true "&lt;<text:line-break/>\n".toList
    = "&amp;lt;&lt;text:line-break/&gt;<text:line-break/>".toList := by
  decide

end DocumentMerge.Markup
