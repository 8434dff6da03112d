import DocumentMerge.Text.Basic

/-!
# Positions in bytes

A text is a list of characters, and a position in it counts the bytes of its UTF-8 form.  The position
behind a piece is the size of the piece, and a text can be cut there and at no other positions.

* `byteSize_append`, `size_toBytes`: the size of a text is that of its UTF-8 form, and sizes add up.
* `splitAtByte?_eq_some_iff`: cutting at a position gives a piece of that size and what is behind it.
  `append_inj_of_byteSize`: so a text is cut in one way only.
-/

namespace DocumentMerge.Text

/-! ## Sizes -/

@[simp] theorem byteSize_nil : byteSize [] = 0 := rfl

theorem byteSize_append (s t : Text) : byteSize (s ++ t) = byteSize s + byteSize t := by
  have sum (t : Text) (n : Nat) :
      t.foldl (fun n c => n + c.utf8Size) n = n + byteSize t := by
    rw [byteSize]
    induction t generalizing n with
    | nil => rfl
    | cons c t ih =>
      rw [List.foldl_cons, List.foldl_cons, ih, ih (0 + c.utf8Size)]
      omega
  rw [byteSize, List.foldl_append, sum]
  rfl

theorem byteSize_cons (c : Char) (t : Text) : byteSize (c :: t) = c.utf8Size + byteSize t := by
  have single : byteSize [c] = c.utf8Size := by simp [byteSize]
  rw [← List.singleton_append, byteSize_append, single]

/-- Only the empty text has no size. -/
theorem byteSize_pos {t : Text} (h : t ≠ []) : 0 < byteSize t := by
  obtain ⟨c, t, rfl⟩ := List.exists_cons_of_ne_nil h
  rw [byteSize_cons]
  exact Nat.add_pos_left c.utf8Size_pos _

theorem size_toBytes (t : Text) : t.toBytes.size = byteSize t := by
  induction t with
  | nil => rfl
  | cons c t ih =>
    rw [byteSize_cons, ← ih]
    simp [toBytes, List.utf8Encode]

/-! ## Cutting -/

/-- Walking on by a number of bytes comes behind the piece of that size. -/
theorem go_eq_some_iff {passed s a b : Text} {n : Nat} :
    splitAtByte?.go passed n s = some (a, b) ↔
      ∃ piece, a = passed.reverse ++ piece ∧ s = piece ++ b ∧ n = byteSize piece := by
  match n, s with
  | 0, s =>
    rw [splitAtByte?.go, Option.some.injEq, Prod.mk.injEq]
    constructor
    · rintro ⟨rfl, rfl⟩
      exact ⟨[], by simp, rfl, rfl⟩
    · rintro ⟨piece, rfl, rfl, size⟩
      rcases piece with _ | ⟨c, piece⟩
      · simp
      · have := byteSize_pos (List.cons_ne_nil c piece)
        omega
  | n + 1, [] =>
    rw [splitAtByte?.go]
    refine ⟨fun found => (Option.some_ne_none _ found.symm).elim, ?_⟩
    rintro ⟨piece, -, whole, size⟩
    rw [(List.append_eq_nil_iff.1 whole.symm).1] at size
    cases size
  | n + 1, c :: s =>
    rw [splitAtByte?.go]
    constructor
    · intro h
      split at h
      · next fits =>
        obtain ⟨piece, rfl, rfl, size⟩ := go_eq_some_iff.1 h
        refine ⟨c :: piece, by simp, rfl, ?_⟩
        rw [byteSize_cons]
        omega
      · cases h
    · rintro ⟨piece, rfl, whole, size⟩
      rcases piece with _ | ⟨d, piece⟩
      · cases size
      · obtain ⟨rfl, rfl⟩ := List.cons.inj whole
        rw [byteSize_cons] at size
        rw [if_pos (by omega)]
        exact go_eq_some_iff.2 ⟨piece, by simp, rfl, by omega⟩

/-- A text is cut at the size of a piece in front, and nowhere else. -/
theorem splitAtByte?_eq_some_iff {s a b : Text} {n : Nat} :
    splitAtByte? n s = some (a, b) ↔ s = a ++ b ∧ n = byteSize a := by
  rw [splitAtByte?, go_eq_some_iff]
  simp

/-- Two ways to cut a text are the same if what is behind has the same size. -/
theorem append_inj_of_byteSize {s t s' t' : Text} (same : s ++ t = s' ++ t')
    (size : byteSize t = byteSize t') : s = s' ∧ t = t' := by
  have sizes := congrArg byteSize same
  rw [byteSize_append, byteSize_append] at sizes
  have cut : splitAtByte? (byteSize s) (s ++ t) = some (s, t) := splitAtByte?_eq_some_iff.2 ⟨rfl, rfl⟩
  have cut' : splitAtByte? (byteSize s) (s ++ t) = some (s', t') :=
    splitAtByte?_eq_some_iff.2 ⟨same, by omega⟩
  rw [cut] at cut'
  cases cut'
  exact ⟨rfl, rfl⟩

end DocumentMerge.Text
