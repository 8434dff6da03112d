import DocumentMerge.Text.Pattern

/-!
# Scanning, one character at a time

`Pattern.first?`, `Pattern.split` and `Pattern.replace` are defined by jumping from match to
match.  A proof about a text that is put together from known pieces wants the other view: what a
scan does at the first character, and what it does with a first piece.  Both are stated here, and
after that no proof opens the definitions again.

* `first?_cons_of_match` / `first?_cons_of_none`, and the same two equations for `replace` and for
  `values`, the list of everything that was matched: a match at the first character is taken, and
  otherwise that character is passed over.
* `first?_eq_some_iff`, `first?_eq_none_iff`: a search passes exactly the places where no match
  begins.
* `search_induct`, `scan_induct`: induction from match to match and from place to place.
* `Skips`: a piece in which no match begins, whatever comes behind it.  Skipping is closed under
  concatenation (`Skips.append`), and a scan walks straight through such a piece
  (`first?_append`, `replace_append`, `values_append`).
* `BeginsWith`: every match begins with one fixed character, so a piece without that character is
  skipped (`skips_of_notMem`).  Markers begin with a bracket and tags with a delimiter, which is
  how almost every `Skips` of this library is shown.
-/

namespace DocumentMerge.Pattern

variable {α : Type} (p : Pattern α)

/-- Nothing is matched in the empty text. -/
@[simp] theorem match?_nil : p.match? [] = none := by
  cases h : p.match? [] with
  | none => rfl
  | some found =>
    obtain ⟨taken, nonempty, e⟩ := p.consumes h
    exact absurd (List.append_eq_nil_iff.1 e.symm).1 nonempty

/-! ## The first match -/

/-- The characters seen before a search stand in front of what it finds. -/
theorem firstFrom_eq (seen s : Text) :
    p.firstFrom seen s
      = (p.first? s).map fun m => { m with before := seen.reverse ++ m.before } := by
  rw [first?]
  induction s generalizing seen with
  | nil => rfl
  | cons c s ih =>
    rw [firstFrom, firstFrom]
    cases p.match? (c :: s) with
    | some found => simp
    | none =>
      simp only
      rw [ih (c :: seen), ih [c], Option.map_map]
      congr 1
      funext m
      simp

@[simp] theorem first?_nil : p.first? [] = none := rfl

variable {p}

theorem first?_cons_of_match {c : Char} {s rest : Text} {a : α}
    (h : p.match? (c :: s) = some (a, rest)) : p.first? (c :: s) = some ⟨[], a, rest⟩ := by
  rw [first?, firstFrom, h]
  rfl

theorem first?_cons_of_none {c : Char} {s : Text} (h : p.match? (c :: s) = none) :
    p.first? (c :: s) = (p.first? s).map fun m => { m with before := c :: m.before } := by
  rw [first?, firstFrom, h]
  exact p.firstFrom_eq [c] s

/-! ## Replacing and listing -/

theorem split_of_none {s : Text} (h : p.first? s = none) : p.split s = ([], s) := by
  rw [split]
  split
  · rfl
  · next m found => rw [h] at found; cases found

theorem split_of_some {s : Text} {m : Match α} (h : p.first? s = some m) :
    p.split s = ((m.before, m.value) :: (p.split m.after).1, (p.split m.after).2) := by
  rw [split]
  split
  · next found => rw [h] at found; cases found
  · next m' found =>
    rw [h] at found
    cases found
    rfl

variable (p) in
/-- Everything that a scan matches, in order. -/
def values (s : Text) : List α :=
  (p.split s).1.map Prod.snd

theorem replace_of_none {write : α → Text} {s : Text} (h : p.first? s = none) :
    p.replace write s = s := by
  rw [replace, split_of_none h]
  rfl

theorem replace_of_some {write : α → Text} {s : Text} {m : Match α} (h : p.first? s = some m) :
    p.replace write s = m.before ++ write m.value ++ p.replace write m.after := by
  rw [replace, split_of_some h]
  simp [replace, List.append_assoc]

theorem values_of_none {s : Text} (h : p.first? s = none) : p.values s = [] := by
  rw [values, split_of_none h]
  rfl

theorem values_of_some {s : Text} {m : Match α} (h : p.first? s = some m) :
    p.values s = m.value :: p.values m.after := by
  rw [values, split_of_some h]
  rfl

@[simp] theorem replace_nil (write : α → Text) : p.replace write [] = [] :=
  replace_of_none p.first?_nil

@[simp] theorem values_nil : p.values [] = [] :=
  values_of_none p.first?_nil

theorem replace_cons_of_match {write : α → Text} {c : Char} {s rest : Text} {a : α}
    (h : p.match? (c :: s) = some (a, rest)) :
    p.replace write (c :: s) = write a ++ p.replace write rest := by
  rw [replace_of_some (first?_cons_of_match h)]
  rfl

theorem replace_cons_of_none {write : α → Text} {c : Char} {s : Text}
    (h : p.match? (c :: s) = none) : p.replace write (c :: s) = c :: p.replace write s := by
  have here := first?_cons_of_none h
  cases later : p.first? s with
  | none =>
    rw [later] at here
    rw [replace_of_none here, replace_of_none later]
  | some m =>
    rw [later] at here
    rw [replace_of_some here, replace_of_some later]
    rfl

theorem values_cons_of_match {c : Char} {s rest : Text} {a : α}
    (h : p.match? (c :: s) = some (a, rest)) : p.values (c :: s) = a :: p.values rest :=
  values_of_some (first?_cons_of_match h)

theorem values_cons_of_none {c : Char} {s : Text} (h : p.match? (c :: s) = none) :
    p.values (c :: s) = p.values s := by
  have here := first?_cons_of_none h
  cases later : p.first? s with
  | none =>
    rw [later] at here
    rw [values_of_none here, values_of_none later]
  | some m =>
    rw [later] at here
    rw [values_of_some here, values_of_some later]

/-! ## A match in front -/

/-- A text that is matched is not empty. -/
theorem exists_cons_of_match {s rest : Text} {a : α} (h : p.match? s = some (a, rest)) :
    ∃ c t, s = c :: t := by
  cases s with
  | nil => rw [match?_nil] at h; cases h
  | cons c t => exact ⟨c, t, rfl⟩

theorem first?_of_match {s rest : Text} {a : α} (h : p.match? s = some (a, rest)) :
    p.first? s = some ⟨[], a, rest⟩ := by
  obtain ⟨c, t, rfl⟩ := exists_cons_of_match h
  exact first?_cons_of_match h

theorem replace_of_match {write : α → Text} {s rest : Text} {a : α}
    (h : p.match? s = some (a, rest)) : p.replace write s = write a ++ p.replace write rest := by
  obtain ⟨c, t, rfl⟩ := exists_cons_of_match h
  exact replace_cons_of_match h

theorem values_of_match {s rest : Text} {a : α} (h : p.match? s = some (a, rest)) :
    p.values s = a :: p.values rest := by
  obtain ⟨c, t, rfl⟩ := exists_cons_of_match h
  exact values_cons_of_match h

/-! ## What a search passes -/

/-- Before the leftmost match no match begins. -/
theorem match?_eq_none_of_first? {s found : Text} {m : Match α} (h : p.first? s = some m)
    (cut : s = m.before ++ found) {b : Text} (suffix : b <:+ m.before) (nonempty : b ≠ []) :
    p.match? (b ++ found) = none := by
  induction s generalizing m with
  | nil => rw [first?_nil] at h; cases h
  | cons c s ih =>
    cases here : p.match? (c :: s) with
    | some hit =>
      rw [first?_cons_of_match (show p.match? (c :: s) = some (hit.1, hit.2) from here)] at h
      cases h
      exact absurd (List.suffix_nil.1 suffix) nonempty
    | none =>
      rw [first?_cons_of_none here, Option.map_eq_some_iff] at h
      obtain ⟨m', later, rfl⟩ := h
      obtain ⟨-, cut⟩ := List.cons.inj cut
      rcases List.suffix_cons_iff.1 suffix with rfl | suffix
      · have whole : s = m'.before ++ found := cut
        rw [List.cons_append, ← whole]
        exact here
      · exact ih later cut suffix

/-- A scan walks through a piece in which no match begins. -/
theorem first?_append_of_unmatched {g t : Text}
    (h : ∀ b, b <:+ g → b ≠ [] → p.match? (b ++ t) = none) :
    p.first? (g ++ t) = (p.first? t).map fun m => { m with before := g ++ m.before } := by
  induction g with
  | nil => simp
  | cons c g ih =>
    have here : p.match? (c :: (g ++ t)) = none := h (c :: g) List.suffix_rfl (List.cons_ne_nil _ _)
    rw [List.cons_append, first?_cons_of_none here,
      ih fun b suffix => h b (suffix.trans (List.suffix_cons c g)), Option.map_map]
    rfl

theorem values_append_of_unmatched {g t : Text}
    (h : ∀ b, b <:+ g → b ≠ [] → p.match? (b ++ t) = none) : p.values (g ++ t) = p.values t := by
  have walked := first?_append_of_unmatched h
  cases later : p.first? t with
  | none =>
    rw [later] at walked
    rw [values_of_none walked, values_of_none later]
  | some m =>
    rw [later] at walked
    rw [values_of_some walked, values_of_some later]

/-- A search stops at a match before which no match begins. -/
theorem first?_eq_some_iff {s : Text} {m : Match α} :
    p.first? s = some m ↔ ∃ found, s = m.before ++ found ∧
      p.match? found = some (m.value, m.after) ∧
      ∀ b, b <:+ m.before → b ≠ [] → p.match? (b ++ found) = none := by
  constructor
  · intro h
    obtain ⟨found, cut, matched⟩ := p.eq_append_of_first? h
    exact ⟨found, cut, matched, fun b suffix => match?_eq_none_of_first? h cut suffix⟩
  · rintro ⟨found, rfl, matched, passed⟩
    rw [first?_append_of_unmatched passed, first?_of_match matched, Option.map_some, List.append_nil]

/-- A search finds nothing in a text in which no match begins. -/
theorem first?_eq_none_iff {s : Text} : p.first? s = none ↔ ∀ b, b <:+ s → p.match? b = none := by
  induction s with
  | nil => simp
  | cons c s ih =>
    cases here : p.match? (c :: s) with
    | some hit =>
      rw [first?_cons_of_match (show p.match? (c :: s) = some (hit.1, hit.2) from here)]
      refine ⟨fun missing => (Option.some_ne_none _ missing).elim, fun unmatched => ?_⟩
      rw [unmatched _ List.suffix_rfl] at here
      cases here
    | none =>
      rw [first?_cons_of_none here, Option.map_eq_none_iff, ih]
      constructor
      · intro unmatched b suffix
        rcases List.suffix_cons_iff.1 suffix with rfl | suffix
        · exact here
        · exact unmatched b suffix
      · exact fun unmatched b suffix => unmatched b (suffix.trans (List.suffix_cons c s))

/-- The leftmost match is the one in front of which no match begins. -/
theorem first?_eq_some_iff_le {s : Text} {m : Match α} :
    p.first? s = some m ↔ ∃ found, s = m.before ++ found ∧
      p.match? found = some (m.value, m.after) ∧
      ∀ x t, s = x ++ t → p.match? t ≠ none → m.before.length ≤ x.length := by
  rw [first?_eq_some_iff]
  constructor
  · rintro ⟨found, rfl, matched, passed⟩
    refine ⟨found, rfl, matched, fun x t cut here => Nat.le_of_not_lt fun short => ?_⟩
    rcases List.append_eq_append_iff.1 cut with ⟨d, rfl, -⟩ | ⟨d, before, rfl⟩
    · exact absurd short (by simp)
    · refine here (passed d (before ▸ List.suffix_append x d) ?_)
      rintro rfl
      simp [before] at short
  · rintro ⟨found, rfl, matched, leftmost⟩
    refine ⟨found, rfl, matched, fun b suffix nonempty => ?_⟩
    obtain ⟨x, cut⟩ := suffix
    cases here : p.match? (b ++ found) with
    | none => rfl
    | some hit =>
      have le := leftmost x (b ++ found) (by rw [← cut, List.append_assoc]) (by simp [here])
      have := List.length_pos_iff.2 nonempty
      rw [← cut, List.length_append] at le
      omega

/-! ## Induction -/

/-- Induction along a search: nothing is found, or a match is found and the search goes on behind
it. -/
theorem search_induct {P : Text → Prop} (stop : ∀ s, p.first? s = none → P s)
    (step : ∀ s m, p.first? s = some m → P m.after → P s) (s : Text) : P s :=
  match found : p.first? s with
  | none => stop s found
  | some m => step s m found (search_induct stop step m.after)
termination_by s.length
decreasing_by exact p.length_after_first? found

/-- Induction along a scan: at every place something is matched, or a character is passed over. -/
theorem scan_induct {P : Text → Prop} (nil : P [])
    (pass : ∀ c s, p.match? (c :: s) = none → P s → P (c :: s))
    (take : ∀ s a rest, p.match? s = some (a, rest) → P rest → P s) (s : Text) : P s :=
  match s with
  | [] => nil
  | c :: s =>
    match found : p.match? (c :: s) with
    | none => pass c s found (scan_induct nil pass take s)
    | some (a, rest) => take _ a rest found (scan_induct nil pass take rest)
termination_by s.length
decreasing_by
  · exact Nat.lt_succ_self s.length
  · exact p.length_lt found

/-! ## Pieces without a match -/

variable (p) in
/-- No match begins in a piece, whatever comes behind it. -/
def Skips : Text → Prop
  | [] => True
  | c :: s => (∀ rest, p.match? (c :: (s ++ rest)) = none) ∧ Skips s

@[simp] theorem skips_nil : p.Skips [] := trivial

/-- A piece is skipped if in all texts that go on behind it no match begins before its end. -/
theorem skips_of_forall {s : Text} (h : ∀ x t rest, s ++ rest = x ++ t → p.match? t ≠ none →
    s.length ≤ x.length) : p.Skips s := by
  induction s with
  | nil => exact skips_nil
  | cons c s ih =>
    refine ⟨fun rest => ?_, ih fun x t rest cut found => ?_⟩
    · cases found : p.match? (c :: (s ++ rest)) with
      | none => rfl
      | some hit =>
        have := h [] (c :: (s ++ rest)) rest rfl (by simp [found])
        simp at this
    · have := h (c :: x) t rest (congrArg (c :: ·) cut) found
      simpa using this

theorem Skips.append {s t : Text} (hs : p.Skips s) (ht : p.Skips t) : p.Skips (s ++ t) := by
  induction s with
  | nil => exact ht
  | cons c s ih =>
    refine ⟨fun rest => ?_, ih hs.2⟩
    show p.match? (c :: ((s ++ t) ++ rest)) = none
    rw [List.append_assoc]
    exact hs.1 (t ++ rest)

theorem first?_append {s : Text} (h : p.Skips s) (t : Text) :
    p.first? (s ++ t) = (p.first? t).map fun m => { m with before := s ++ m.before } := by
  induction s with
  | nil => simp
  | cons c s ih =>
    rw [List.cons_append, first?_cons_of_none (h.1 t), ih h.2, Option.map_map]
    rfl

theorem replace_append {write : α → Text} {s : Text} (h : p.Skips s) (t : Text) :
    p.replace write (s ++ t) = s ++ p.replace write t := by
  induction s with
  | nil => rfl
  | cons c s ih =>
    rw [List.cons_append, replace_cons_of_none (h.1 t), ih h.2]
    rfl

theorem values_append {s : Text} (h : p.Skips s) (t : Text) :
    p.values (s ++ t) = p.values t := by
  induction s with
  | nil => rfl
  | cons c s ih => rw [List.cons_append, values_cons_of_none (h.1 t), ih h.2]

theorem replace_of_skips {write : α → Text} {s : Text} (h : p.Skips s) :
    p.replace write s = s := by
  have : p.replace write (s ++ []) = s ++ p.replace write [] := replace_append h []
  simpa using this

variable (p) in
/-- Every match begins with one fixed character. -/
def BeginsWith (c : Char) : Prop :=
  ∀ {s rest : Text} {a : α}, p.match? s = some (a, rest) → ∃ t, s = c :: t

theorem BeginsWith.match?_cons {c d : Char} (h : p.BeginsWith c) (differ : d ≠ c) (s : Text) :
    p.match? (d :: s) = none := by
  cases found : p.match? (d :: s) with
  | none => rfl
  | some hit =>
    obtain ⟨t, e⟩ := h found
    exact absurd (List.cons.inj e).1 differ

theorem BeginsWith.skips_of_notMem {c : Char} (h : p.BeginsWith c) {s : Text} (free : c ∉ s) :
    p.Skips s := by
  induction s with
  | nil => exact skips_nil
  | cons d s ih =>
    rw [List.mem_cons, not_or] at free
    exact ⟨fun rest => h.match?_cons (Ne.symm free.1) _, ih free.2⟩

/-- A piece in whose front no match begins, and which has the first character of matches nowhere
else, is skipped. -/
theorem BeginsWith.skips_cons {c d : Char} (h : p.BeginsWith c) {s : Text}
    (here : ∀ rest, p.match? (d :: (s ++ rest)) = none) (free : c ∉ s) : p.Skips (d :: s) :=
  ⟨here, h.skips_of_notMem free⟩

end DocumentMerge.Pattern
