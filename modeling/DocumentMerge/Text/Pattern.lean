import DocumentMerge.Text.Basic

/-!
# Leftmost scanning

Binding tags, region markers, table rows and literal fragments are all found in the same way: try
to match at each position from left to right, take the first position that succeeds, and go on
behind the match.  A `Pattern` is the part that differs, a reader which is tried at one position.
The rest is stated once here:

* `Pattern.first?` gives the leftmost match, with the text before and after it;
* `Pattern.split` cuts a text into gaps and matches;
* `Pattern.replace` puts another text in the place of every match.

A match is a beginning of the text and not empty, which is a field of the type.  So scanning
always comes to an end, and gaps and matches put together again are the whole text.
-/

namespace DocumentMerge

/-- A reader that is tried at a position: what it finds there, and the text behind it. -/
structure Pattern (α : Type) where
  /-- The match at the very beginning of a text. -/
  match? : Text → Option (α × Text)
  /-- A match takes something from the beginning of the text and leaves the rest. -/
  consumes : ∀ {s : Text} {a : α} {rest : Text}, match? s = some (a, rest) →
    ∃ taken, taken ≠ [] ∧ s = taken ++ rest

/-- A match in a text, between the text before it and the text after it. -/
structure Match (α : Type) where
  before : Text
  value : α
  after : Text
  deriving DecidableEq, Repr

namespace Pattern

variable {α : Type} (p : Pattern α)

theorem length_lt {s rest : Text} {a : α} (h : p.match? s = some (a, rest)) :
    rest.length < s.length := by
  obtain ⟨taken, nonempty, rfl⟩ := p.consumes h
  have := List.length_pos_iff.2 nonempty
  rw [List.length_append]
  omega

/-- The leftmost match behind the characters already `seen`, which are kept last one first. -/
def firstFrom (seen : Text) : Text → Option (Match α)
  | [] => none
  | c :: s =>
    match p.match? (c :: s) with
    | some (a, rest) => some ⟨seen.reverse, a, rest⟩
    | none => firstFrom (c :: seen) s

/-- The leftmost match. -/
def first? (s : Text) : Option (Match α) :=
  p.firstFrom [] s

/-- A match leaves less to read than there was. -/
theorem length_after_firstFrom {seen s : Text} {m : Match α} (h : p.firstFrom seen s = some m) :
    m.after.length < s.length := by
  induction s generalizing seen with
  | nil => simp [firstFrom] at h
  | cons c s ih =>
    rw [firstFrom] at h
    split at h
    · next a rest found =>
      cases h
      exact p.length_lt found
    · exact Nat.lt_succ_of_lt (ih h)

theorem length_after_first? {s : Text} {m : Match α} (h : p.first? s = some m) :
    m.after.length < s.length :=
  p.length_after_firstFrom h

/-- The leftmost match lies in the text where it says: what is before it, and what it matched. -/
theorem eq_append_of_firstFrom {seen s : Text} {m : Match α} (h : p.firstFrom seen s = some m) :
    ∃ found, seen.reverse ++ s = m.before ++ found ∧ p.match? found = some (m.value, m.after) := by
  induction s generalizing seen with
  | nil => simp [firstFrom] at h
  | cons c s ih =>
    rw [firstFrom] at h
    split at h
    · next found => cases h; exact ⟨_, rfl, found⟩
    · simpa using ih h

theorem eq_append_of_first? {s : Text} {m : Match α} (h : p.first? s = some m) :
    ∃ found, s = m.before ++ found ∧ p.match? found = some (m.value, m.after) :=
  p.eq_append_of_firstFrom h

/-- Cuts a text into pairs of a gap and the match behind it, and the text after the last match. -/
def split (s : Text) : List (Text × α) × Text :=
  match _found : p.first? s with
  | none => ([], s)
  | some m =>
    let (hits, tail) := split m.after
    ((m.before, m.value) :: hits, tail)
termination_by s.length
decreasing_by exact p.length_after_first? _found

/-- What a text was cut into was found in it. -/
theorem exists_of_mem_split {s : Text} {hit : Text × α} (h : hit ∈ (p.split s).1) :
    ∃ before found rest, s = before ++ found ∧ p.match? found = some (hit.2, rest) := by
  fun_induction split p s with
  | case1 => cases h
  | case2 s m found hits tail cut ih =>
    obtain ⟨here, eq, matched⟩ := p.eq_append_of_first? found
    rcases List.mem_cons.1 h with rfl | h
    · exact ⟨m.before, here, m.after, eq, matched⟩
    · rw [cut] at ih
      obtain ⟨before, later, rest, eq', matched'⟩ := ih h
      obtain ⟨taken, -, rfl⟩ := p.consumes matched
      exact ⟨m.before ++ taken ++ before, later, rest, by simp [eq, eq'], matched'⟩

/-- Writes another text in the place of every match and keeps what lies between. -/
def replace (write : α → Text) (s : Text) : Text :=
  let (hits, tail) := p.split s
  hits.flatMap (fun hit => hit.1 ++ write hit.2) ++ tail

/-- A fixed, non-empty text. -/
def literal (c : Char) (cs : Text) : Pattern Unit where
  match? s := (Text.dropPrefix? (c :: cs) s).map fun rest => ((), rest)
  consumes h := by
    simp only [Option.map_eq_some_iff, Text.dropPrefix?_eq_some_iff] at h
    obtain ⟨_, h, e⟩ := h
    cases e
    exact ⟨c :: cs, List.cons_ne_nil _ _, h⟩

end Pattern

namespace Text

/-- The text before the first occurrence of a part, and the text behind it. -/
def cutAt? (part s : Text) : Option (Text × Text) :=
  match part with
  | [] => some ([], s)
  | c :: cs => ((Pattern.literal c cs).first? s).map fun m => (m.before, m.after)

/-- Cutting loses nothing but the part. -/
theorem eq_append_of_cutAt? {part s before after : Text}
    (h : cutAt? part s = some (before, after)) : s = before ++ part ++ after := by
  unfold cutAt? at h
  split at h
  · cases h; rfl
  · rw [Option.map_eq_some_iff] at h
    obtain ⟨m, found, e⟩ := h
    cases e
    obtain ⟨t, split, here⟩ := Pattern.eq_append_of_first? _ found
    simp only [Pattern.literal, Option.map_eq_some_iff, dropPrefix?_eq_some_iff] at here
    obtain ⟨_, rfl, e⟩ := here
    cases e
    simpa using split

/-- The text before the last occurrence of a part, and the text behind it. -/
def cutAtLast? (part s : Text) : Option (Text × Text) :=
  (cutAt? part.reverse s.reverse).map fun (after, before) => (before.reverse, after.reverse)

/-- Writes `new` in the place of every occurrence of `old`, from left to right.  An empty `old`
changes nothing. -/
def replaceAll (old new : Text) (s : Text) : Text :=
  match old with
  | [] => s
  | c :: cs => (Pattern.literal c cs).replace (fun _ => new) s

end Text

end DocumentMerge
