import DocumentMerge.Proofs.Region.Reading
import DocumentMerge.Proofs.Text.Replacing

/-!
# Reading canonical markers back

The readers of `Region.Marker` accept white space of six kinds, so a text that they read is not
determined by what they answer.  In the other direction there is no freedom: what `beginMarker`
and `endMarker` write is read back as it was written, by the reader of its own kind and for its own
name only.

A name is *sound* (`IsName`) when it holds no marker space and no bracket.  Without the first a
reader would stop inside the name, and without the second a marker could begin inside another one.

* `opening?_beginMarker`, `closing?_endMarker`: a marker is read back, whatever stands behind it.
* `closing?_endMarker_of_ne`: a closing marker closes no other name.  This is the one place where
  two names are compared, and the comparison ends at the space behind the name.
* `Marked ns t`: a text that was put together from markers of the names `ns` and from text without
  brackets.  A scan for anything with another name walks through it: `Marked.skips_closing` and
  `Marked.replaceAll_wrap` say so for the closing markers of a name and for the full text of a region.
-/

namespace DocumentMerge.Region

/-- A name that a marker gives back: it holds no marker space and no bracket. -/
structure IsName (n : Text) : Prop where
  spaceless : ∀ c ∈ n, isMarkerSpace c = false
  bracketless : '[' ∉ n

/-! ## One marker -/

theorem isOpening_beginMarker {n : Text} (spaceless : Spaceless n) : IsOpening n (beginMarker n) :=
  ⟨spaceless, ' ', ' ', ' ', rfl, rfl, rfl, rfl⟩

theorem isClosing_endMarker (n : Text) : IsClosing n (endMarker n) :=
  ⟨' ', ' ', ' ', rfl, rfl, rfl, rfl⟩

theorem opening?_beginMarker {n : Text} (h : IsName n) (rest : Text) :
    opening? (beginMarker n ++ rest) = some (⟨n, beginMarker n⟩, rest) :=
  opening?_eq_some_iff.2 ⟨isOpening_beginMarker h.spaceless, rfl⟩

/-- Nothing but a bracket opens a marker. -/
theorem opening?_eq_some_cons {s rest : Text} {o : Opening} (h : opening? s = some (o, rest)) :
    ∃ t, s = '[' :: t := by
  simp only [opening?, Option.bind_eq_bind, Option.bind_eq_some_iff,
    Text.dropPrefix?_eq_some_iff] at h
  obtain ⟨s₁, h₁, -⟩ := h
  exact ⟨_, h₁⟩

theorem closing?_endMarker (n rest : Text) :
    closing? n (endMarker n ++ rest) = some (endMarker n, rest) :=
  closing?_eq_some_iff.2 ⟨isClosing_endMarker n, rfl⟩

theorem closing?_beginMarker (n m rest : Text) : closing? n (beginMarker m ++ rest) = none := rfl

theorem closing?_eq_some_cons {n s rest written : Text}
    (h : closing? n s = some (written, rest)) : ∃ t, s = '[' :: t := by
  simp only [closing?, Option.bind_eq_bind, Option.bind_eq_some_iff,
    Text.dropPrefix?_eq_some_iff] at h
  obtain ⟨s₁, h₁, -⟩ := h
  exact ⟨_, h₁⟩

/-- A closing marker closes no other name. -/
theorem closing?_endMarker_of_ne {m n : Text} (hm : IsName m) (hn : IsName n) (differ : m ≠ n)
    (rest : Text) : closing? n (endMarker m ++ rest) = none := by
  refine Option.eq_none_iff_forall_ne_some.2 fun ⟨w, y⟩ read => differ ?_
  obtain ⟨⟨a, b, c, -, -, hc, rfl⟩, cut⟩ := closing?_eq_some_iff.1 read
  -- the space behind `n` is the space behind `m`
  have behind : m ++ ' ' :: (closer ++ rest) = n ++ c :: (closer ++ y) := by
    simp only [endMarker, List.append_assoc, List.cons_append, List.append_cancel_left_eq,
      List.cons.injEq] at cut
    exact cut.2.2
  exact eq_of_append_stop hm.spaceless hn.spaceless rfl hc behind

/-! ## Patterns -/

theorem closingPattern_beginsWith (n : Text) : (closingPattern n).BeginsWith '[' :=
  fun h => closing?_eq_some_cons h

theorem pattern_beginsWith (accept : Text → Bool) : (pattern accept).BeginsWith '[' := by
  intro s rest r h
  have h : at? accept s = some (r, rest) := h
  unfold at? at h
  split at h
  · next o behind opened => exact opening?_eq_some_cons opened
  · cases h

/-- The region of a name with canonical markers. -/
def canonical (n inner : Text) : Region :=
  ⟨n, beginMarker n, inner, endMarker n⟩

/-- A text between canonical markers. -/
def wrap (n inner : Text) : Text :=
  beginMarker n ++ inner ++ endMarker n

/-- A canonical region is found where it stands, if its inner text holds no marker that closes it
earlier. -/
theorem match?_wrap {accept : Text → Bool} {n inner : Text} (h : IsName n)
    (open_ : (closingPattern n).Skips inner) (accepted : accept n = true) (rest : Text) :
    (pattern accept).match? (wrap n inner ++ rest) = some (canonical n inner, rest) := by
  show at? accept (wrap n inner ++ rest) = _
  have closed : (closingPattern n).first? (inner ++ (endMarker n ++ rest))
      = some ⟨inner, endMarker n, rest⟩ := by
    rw [Pattern.first?_append open_, Pattern.first?_of_match (closing?_endMarker n rest)]
    simp
  have cut : wrap n inner ++ rest = beginMarker n ++ (inner ++ (endMarker n ++ rest)) := by
    simp [wrap]
  rw [at?, cut, opening?_beginMarker h]
  simp only [accepted, if_true, closed, Option.map_some]
  rfl

/-! ## Texts with markers -/

theorem beginMarker_eq_cons (n : Text) :
    beginMarker n = '[' :: ("!-- BEGIN ".toList ++ n ++ " --]".toList) := by
  simp [beginMarker, opener, beginWord, closer]

theorem endMarker_eq_cons (n : Text) :
    endMarker n = '[' :: ("!-- END ".toList ++ n ++ " --]".toList) := by
  simp [endMarker, opener, endWord, closer]

/-- A text put together from markers of the given names and from text without brackets. -/
inductive Marked (ns : List Text) : Text → Prop
  | plain {t : Text} : '[' ∉ t → Marked ns t
  | opening {n : Text} : n ∈ ns → Marked ns (beginMarker n)
  | closing {n : Text} : n ∈ ns → Marked ns (endMarker n)
  | append {s t : Text} : Marked ns s → Marked ns t → Marked ns (s ++ t)

/-- More names may be allowed. -/
theorem Marked.mono {ms ns : List Text} {t : Text} (h : Marked ms t) (sub : ms ⊆ ns) :
    Marked ns t := by
  induction h with
  | plain free => exact .plain free
  | opening mem => exact .opening (sub mem)
  | closing mem => exact .closing (sub mem)
  | append _ _ ihs iht => exact .append ihs iht

theorem Marked.inside {ns : List Text} {n inner : Text} (mem : n ∈ ns) (h : Marked ns inner) :
    Marked ns (Region.wrap n inner) :=
  .append (.append (.opening mem) h) (.closing mem)

variable {ns : List Text} {n t : Text}

/-- A scan for something that begins with a bracket walks through a marked text if it walks through
each of its markers. -/
theorem Marked.skips {α : Type} {p : Pattern α} (h : Marked ns t) (first : p.BeginsWith '[')
    (opened : ∀ m ∈ ns, ∀ rest, p.match? (beginMarker m ++ rest) = none)
    (closed : ∀ m ∈ ns, ∀ rest, p.match? (endMarker m ++ rest) = none)
    (names : ∀ m ∈ ns, IsName m) : p.Skips t := by
  induction h with
  | plain free => exact first.skips_of_notMem free
  | @opening m mem =>
    have read := opened m mem
    rw [beginMarker_eq_cons] at read ⊢
    refine first.skips_cons read ?_
    have := (names m mem).bracketless
    simp [this]
  | @closing m mem =>
    have read := closed m mem
    rw [endMarker_eq_cons] at read ⊢
    refine first.skips_cons read ?_
    have := (names m mem).bracketless
    simp [this]
  | append _ _ ihs iht => exact ihs.append iht

/-- No closing marker of a name is found in a text with markers of other names. -/
theorem Marked.skips_closing (h : Marked ns t) (names : ∀ m ∈ ns, IsName m) (hn : IsName n)
    (other : n ∉ ns) : (closingPattern n).Skips t := by
  refine h.skips (closingPattern_beginsWith n) (fun m _ rest => closing?_beginMarker n m rest)
    (fun m mem rest => ?_) names
  have differ : m ≠ n := fun e => other (e ▸ mem)
  exact closing?_endMarker_of_ne (names m mem) hn differ rest

/-- The text of a region is found in no text with markers of other names. -/
theorem Marked.replaceAll_wrap (h : Marked ns t) (names : ∀ m ∈ ns, IsName m) (hn : IsName n)
    (other : n ∉ ns) (inner new rest : Text) :
    Text.replaceAll (wrap n inner) new (t ++ rest)
      = t ++ Text.replaceAll (wrap n inner) new rest := by
  have whole : wrap n inner
      = '[' :: (("!-- BEGIN ".toList ++ n ++ " --]".toList) ++ inner ++ endMarker n) := by
    rw [Region.wrap, beginMarker_eq_cons]
    rfl
  rw [whole, Text.replaceAll_cons, Text.replaceAll_cons]
  refine Pattern.replace_append (h.skips Pattern.literal_beginsWith ?_ ?_ names) rest
  · intro m mem rest
    refine Pattern.literal_match?_eq_none ?_
    rw [← whole]
    rintro ⟨behind, e⟩
    have e : opener ++ ' ' :: (beginWord ++ ' ' :: (n ++ ' ' :: (closer ++ inner ++ endMarker n
          ++ behind)))
        = opener ++ ' ' :: (beginWord ++ ' ' :: (m ++ ' ' :: (closer ++ rest))) := by
      simpa [Region.wrap, beginMarker] using e
    have e := List.append_cancel_left e
    have e := List.append_cancel_left (List.cons.inj e).2
    have same := eq_of_append_stop hn.spaceless (names m mem).spaceless rfl rfl (List.cons.inj e).2
    exact other (same ▸ mem)
  · intro m mem rest
    refine Pattern.literal_match?_eq_none ?_
    rw [← whole]
    rintro ⟨behind, e⟩
    -- behind the opener and a space one text goes on with `B` and the other with `E`
    simp [Region.wrap, beginMarker, endMarker, opener, beginWord, endWord] at e

end DocumentMerge.Region
