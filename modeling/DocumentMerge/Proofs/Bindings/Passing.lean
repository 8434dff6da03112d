import DocumentMerge.Proofs.Bindings.Lookup
import DocumentMerge.Proofs.Text.Replacing
import Mathlib.Data.List.Nodup

/-!
# Pieces that a substitution passes over

A payload may contain a piece that is not meant to be a template any more, such as a value that was
put there before.  A substitution does not know of it: it takes the longest bound tag wherever one
begins, and the tag may begin in the piece, end in it, or cover it.

* `longestAt_eq_none_iff`, `length_le_of_longestAt`: what stands in front of a text is the longest
  bound tag there.  So it does not matter how a text goes on behind the tag
  (`match?_of_match?_append`).
* `Passes b v y x`: the scan of `x ++ v ++ y` takes tags that end within `x`, and none in `v`.
* `revalued`: the same tags, bound to other values.
* `passes_iff`: the piece is passed over exactly when it stands between what the text before it and
  the text behind it become, whatever the tags are bound to.
* `passes_of_clear`: so it is if no bound tag overlaps the piece.
-/

namespace DocumentMerge

namespace Bindings

/-! ## The longest tag -/

section Longest

variable {entries : List (Text × Text)} {tag replacement s rest : Text} {e : Text × Text}

theorem longestAt_cons_of_not (h : tag ≠ [] → ¬ tag <+: s) :
    longestAt ((tag, replacement) :: entries) s = longestAt entries s := by
  have nothing : (if tag.isEmpty then none else Text.dropPrefix? tag s) = none := by
    split
    · rfl
    · next nonempty =>
      cases found : Text.dropPrefix? tag s with
      | none => rfl
      | some rest =>
        have front := Text.dropPrefix?_eq_some_iff.1 found
        exact absurd ⟨rest, front.symm⟩ (h (by simpa using nonempty))
  rw [longestAt, nothing]

/-- A tag in front is found, unless a later one that is longer is in front as well. -/
theorem longestAt_cons_of_append (nonempty : tag ≠ []) :
    longestAt ((tag, replacement) :: entries) (tag ++ rest)
      = some (((longestAt entries (tag ++ rest)).filter fun hit =>
          tag.length < hit.1.1.length).getD ((tag, replacement), rest)) := by
  have found : (if tag.isEmpty then none else Text.dropPrefix? tag (tag ++ rest)) = some rest := by
    rw [if_neg (by simpa using nonempty)]
    exact Text.dropPrefix?_eq_some_iff.2 rfl
  rw [longestAt, found]
  cases longestAt entries (tag ++ rest) with
  | none => rfl
  | some hit =>
    by_cases less : tag.length < hit.1.1.length
    · simp [Option.filter_some, less]
    · simp [Option.filter_some, less]

/-- Nothing is found only where no tag stands in front. -/
theorem longestAt_eq_none_iff :
    longestAt entries s = none ↔ ∀ e ∈ entries, e.1 ≠ [] → ¬ e.1 <+: s := by
  induction entries with
  | nil => simp [longestAt]
  | cons head entries ih =>
    obtain ⟨tag, replacement⟩ := head
    rw [List.forall_mem_cons, ← ih]
    by_cases here : tag ≠ [] ∧ tag <+: s
    · obtain ⟨nonempty, rest, rfl⟩ := here
      rw [longestAt_cons_of_append nonempty]
      refine ⟨fun missing => absurd missing (Option.some_ne_none _), fun away => ?_⟩
      exact absurd ⟨rest, rfl⟩ (away.1 nonempty)
    · rw [not_and] at here
      rw [longestAt_cons_of_not here]
      exact (and_iff_right here).symm

/-- No tag in front is longer than the one that is found. -/
theorem length_le_of_longestAt (h : longestAt entries s = some (e, rest)) :
    ∀ d ∈ entries, d.1 <+: s → d.1.length ≤ e.1.length := by
  induction entries generalizing e rest with
  | nil => exact fun d mem => absurd mem List.not_mem_nil
  | cons head entries ih =>
    obtain ⟨tag, replacement⟩ := head
    rw [List.forall_mem_cons]
    by_cases here : tag ≠ [] ∧ tag <+: s
    · obtain ⟨nonempty, rest', rfl⟩ := here
      rw [longestAt_cons_of_append nonempty, Option.some.injEq] at h
      cases later : longestAt entries (tag ++ rest') with
      | none =>
        rw [later] at h
        cases h
        refine ⟨fun _ => Nat.le_refl _, fun d mem front => ?_⟩
        by_cases empty : d.1 = []
        · simp [empty]
        · exact absurd front (longestAt_eq_none_iff.1 later d mem empty)
      | some hit =>
        have below := ih (show _ = some (hit.1, hit.2) from later)
        by_cases less : tag.length < hit.1.1.length
        · simp only [later, Option.filter_some, less, decide_true, if_true, Option.getD_some] at h
          cases h
          exact ⟨fun _ => Nat.le_of_lt less, below⟩
        · simp only [later, Option.filter_some, less, decide_false, Bool.false_eq_true, if_false,
            Option.getD_none] at h
          cases h
          exact ⟨fun _ => Nat.le_refl _, fun d mem front =>
            Nat.le_trans (below d mem front) (Nat.not_lt.1 less)⟩
    · rw [not_and] at here
      rw [longestAt_cons_of_not here] at h
      refine ⟨fun front => ?_, ih h⟩
      by_cases empty : tag = []
      · simp [empty]
      · exact absurd front (here empty)

end Longest

variable {b : Bindings} {s t rest x y v : Text} {e : Text × Text}

/-- What is found in front of a text is the same if the text goes on differently behind it. -/
theorem match?_of_match?_append (h : b.pattern.match? (e.1 ++ s ++ t) = some (e, s ++ t)) :
    b.pattern.match? (e.1 ++ s) = some (e, s) := by
  obtain ⟨mem, nonempty, -⟩ := longestAt_eq_some h
  cases found : b.pattern.match? (e.1 ++ s) with
  | none => exact absurd ⟨s, rfl⟩ (longestAt_eq_none_iff.1 found e mem nonempty)
  | some hit =>
    obtain ⟨d, rest⟩ := hit
    obtain ⟨memd, -, front⟩ := longestAt_eq_some found
    -- both tags stand in front of both texts, so they are equally long
    have inner : d.1 <+: e.1 ++ s := ⟨rest, front.symm⟩
    have le := length_le_of_longestAt found e mem ⟨s, rfl⟩
    have ge := length_le_of_longestAt h d memd (inner.trans ⟨t, rfl⟩)
    have same : d.1 = e.1 :=
      (List.append_inj front.symm (Nat.le_antisymm ge le)).1
    obtain rfl := List.inj_on_of_nodup_map b.ascending.nodup_keys memd mem same
    rw [(List.append_right_inj d.1).1 front]

theorem match?_eq_none_of_append (h : b.pattern.match? (s ++ t) = none) :
    b.pattern.match? s = none :=
  longestAt_eq_none_iff.2 fun e mem nonempty front =>
    longestAt_eq_none_iff.1 h e mem nonempty (front.trans ⟨t, rfl⟩)

/-! ## Other values -/

/-- The same tags, each bound to what a function gives. -/
def revalued (b : Bindings) (f : Text → Text) : Bindings where
  entries := b.entries.map fun e => (e.1, f e.1)
  ascending := List.pairwise_map.2 (b.ascending.imp fun less => less)

theorem get?_revalued (b : Bindings) (f : Text → Text) (tag : Text) :
    (b.revalued f).get? tag = (b.get? tag).map fun _ => f tag := by
  show Keyed.find? tag (b.entries.map fun e => (e.1, f e.1))
    = (Keyed.find? tag b.entries).map fun _ => f tag
  induction b.entries with
  | nil => rfl
  | cons head entries ih =>
    rw [List.map_cons, Keyed.find?, Keyed.find?, ih]
    split
    · next same => rw [same]; rfl
    · rfl

theorem match?_revalued (b : Bindings) (f : Text → Text) (s : Text) :
    (b.revalued f).pattern.match? s
      = (b.pattern.match? s).map fun hit => ((hit.1.1, f hit.1.1), hit.2) := by
  show longestAt (b.entries.map fun e => (e.1, f e.1)) s
    = (longestAt b.entries s).map fun hit => ((hit.1.1, f hit.1.1), hit.2)
  induction b.entries with
  | nil => rfl
  | cons head entries ih =>
    obtain ⟨tag, replacement⟩ := head
    rw [List.map_cons]
    by_cases here : tag ≠ [] ∧ tag <+: s
    · obtain ⟨nonempty, rest, rfl⟩ := here
      rw [longestAt_cons_of_append nonempty, longestAt_cons_of_append nonempty, ih, Option.map_some,
        Option.filter_map]
      let renew (hit : (Text × Text) × Text) := ((hit.1.1, f hit.1.1), hit.2)
      exact congrArg some (Option.getD_map renew ((tag, replacement), rest) _)
    · rw [not_and] at here
      rw [longestAt_cons_of_not here, longestAt_cons_of_not here, ih]

/-- Substituting other values writes them in the place of the same tags. -/
theorem apply_revalued (noEmpty : b.get? [] = none) (f : Text → Text) (s : Text) :
    (b.revalued f).apply s = b.pattern.replace (fun e => f e.1) s := by
  have noEmpty' : (b.revalued f).get? [] = none := by
    rw [get?_revalued, noEmpty]
    rfl
  rw [apply, noEmpty']
  simp only
  induction s using Pattern.scan_induct (p := b.pattern) with
  | nil => rw [Pattern.replace_nil, Pattern.replace_nil]
  | pass c s none ih =>
    have none' : (b.revalued f).pattern.match? (c :: s) = .none := by
      rw [match?_revalued, none]
      rfl
    rw [Pattern.replace_cons_of_none none', Pattern.replace_cons_of_none none, ih]
  | take s e rest found ih =>
    have found' : (b.revalued f).pattern.match? s = some ((e.1, f e.1), rest) := by
      rw [match?_revalued, found]
      rfl
    rw [Pattern.replace_of_match found', Pattern.replace_of_match found, ih]

/-! ## Pieces that are passed over -/

/-- The scan of `x ++ v ++ y` goes from one character to the next or from one tag to the next, takes
only tags that end within `x`, and finds none that begins in `v`. -/
inductive Passes (b : Bindings) (v y : Text) : Text → Prop
  | here : (∀ u, u <:+ v → u ≠ [] → b.pattern.match? (u ++ y) = none) → Passes b v y []
  | char {c : Char} {x : Text} : b.pattern.match? (c :: (x ++ v ++ y)) = none →
    Passes b v y x → Passes b v y (c :: x)
  | tag {e : Text × Text} {x : Text} :
    b.pattern.match? (e.1 ++ (x ++ v ++ y)) = some (e, x ++ v ++ y) →
    Passes b v y x → Passes b v y (e.1 ++ x)

section Passes

variable {write : Text × Text → Text}

/-- A piece in which no tag begins is walked through. -/
theorem replace_append_of_none (h : ∀ u, u <:+ v → u ≠ [] → b.pattern.match? (u ++ y) = none) :
    b.pattern.replace write (v ++ y) = v ++ b.pattern.replace write y := by
  induction v with
  | nil => rfl
  | cons c v ih =>
    have here : b.pattern.match? (c :: (v ++ y)) = none :=
      h (c :: v) (List.suffix_refl _) (List.cons_ne_nil _ _)
    rw [List.cons_append, Pattern.replace_cons_of_none here,
      ih fun u behind => h u (behind.trans (List.suffix_cons c v))]
    rfl

theorem Passes.replace_eq (h : b.Passes v y x) :
    b.pattern.replace write (x ++ v ++ y)
      = b.pattern.replace write x ++ v ++ b.pattern.replace write y := by
  induction h with
  | here none =>
    rw [Pattern.replace_nil]
    exact replace_append_of_none none
  | @char c x none _ ih =>
    have whole : b.pattern.match? (c :: x ++ (v ++ y)) = .none := by simpa using none
    rw [List.cons_append, List.cons_append, Pattern.replace_cons_of_none none, ih,
      Pattern.replace_cons_of_none (match?_eq_none_of_append whole)]
    rfl
  | @tag e x found _ ih =>
    have whole : b.pattern.match? (e.1 ++ x ++ (v ++ y)) = some (e, x ++ (v ++ y)) := by
      simpa using found
    rw [List.append_assoc e.1, List.append_assoc e.1, Pattern.replace_of_match found, ih,
      Pattern.replace_of_match (match?_of_match?_append whole)]
    simp only [List.append_assoc]

/-- A piece is passed over if something is known of the text before it from which it follows that no
tag begins in the piece when nothing stands before it, that a tag found in front ends before the
piece, and that the same is known of what is left when the scan goes on. -/
theorem passes_of_step {P : Text → Prop}
    (here : P [] → ∀ u, u <:+ v → u ≠ [] → b.pattern.match? (u ++ y) = none)
    (fits : ∀ {x e rest}, P x → b.pattern.match? (x ++ v ++ y) = some (e, rest) →
      e.1.length ≤ x.length)
    (char : ∀ {c x}, P (c :: x) → b.pattern.match? (c :: (x ++ v ++ y)) = none → P x)
    (tag : ∀ {e x}, P (e.1 ++ x) →
      b.pattern.match? (e.1 ++ (x ++ v ++ y)) = some (e, x ++ v ++ y) → P x)
    {x : Text} (h : P x) : b.Passes v y x := by
  induction len : x.length using Nat.strongRecOn generalizing x with
  | ind n ih =>
    subst len
    match x with
    | [] => exact .here (here h)
    | c :: x =>
      cases found : b.pattern.match? (c :: x ++ v ++ y) with
      | none => exact .char found (ih x.length (Nat.lt_succ_self _) (char h found) rfl)
      | some hit =>
        obtain ⟨e, rest⟩ := hit
        obtain ⟨-, nonempty, front⟩ := longestAt_eq_some found
        obtain ⟨x', cut⟩ : e.1 <+: c :: x := by
          refine List.prefix_of_prefix_length_le ⟨rest, front.symm⟩ ?_ (fits h found)
          exact ⟨v ++ y, by rw [List.append_assoc]⟩
        have shorter : x'.length < (c :: x).length := by
          have := List.length_pos_iff.2 nonempty
          rw [← cut, List.length_append]
          omega
        rw [← cut, List.append_assoc, List.append_assoc, List.append_right_inj, ← List.append_assoc]
          at front
        subst front
        rw [← cut, List.append_assoc, List.append_assoc, ← List.append_assoc x'] at found
        rw [← cut] at h ⊢
        exact .tag found (ih x'.length shorter (tag h found) rfl)

/-- A piece is passed over if no bound tag overlaps it. -/
theorem passes_of_clear (nonempty : v ≠ []) (clear : ∀ tag ∈ b.tags, Text.Clear tag x v y) :
    b.Passes v y x := by
  refine passes_of_step (P := fun x => ∀ tag ∈ b.tags, Text.Clear tag x v y) (fun clear => ?_)
    (fun clear found => ?_) (fun clear _ tag mem => ?_) (fun clear _ tag mem => ?_) clear
  · rintro u ⟨w, rfl⟩ some
    cases found : b.pattern.match? (u ++ y) with
    | none => rfl
    | some hit =>
      obtain ⟨mem, full, front⟩ := longestAt_eq_some (show _ = Option.some (hit.1, hit.2) from found)
      have whole : [] ++ (w ++ u) ++ y = w ++ hit.1.1 ++ hit.2 := by
        rw [List.nil_append, List.append_assoc, front, List.append_assoc]
      rcases clear hit.1.1 (List.mem_map_of_mem mem) w hit.2 whole with before | behind
      · exact absurd (List.append_eq_nil_iff.1 (List.prefix_nil.1 before)).2 full
      · have short := behind.length_le
        have := List.length_pos_iff.2 some
        rw [List.nil_append, List.length_append] at short
        omega
  · obtain ⟨mem, -, front⟩ := longestAt_eq_some found
    rcases clear _ (List.mem_map_of_mem mem) [] _ (by rw [List.nil_append, front])
      with before | behind
    · rw [List.nil_append] at before
      exact before.length_le
    · exact absurd (List.append_eq_nil_iff.1 (List.prefix_nil.1 behind)).2 nonempty
  · exact Text.Clear.of_append (a := [_]) (clear tag mem)
  · exact Text.Clear.of_append (clear tag mem)

/-! ### Pieces that stay whatever the values are -/

/-- As many times a character as a tag has characters. -/
def blank (z : Char) (tag : Text) : Text :=
  List.replicate tag.length z

/-- Blanked tags take as much room as the tags. -/
theorem length_replace_blank (z : Char) (s : Text) :
    (b.pattern.replace (fun e => blank z e.1) s).length = s.length := by
  induction s using Pattern.scan_induct (p := b.pattern) with
  | nil => rw [Pattern.replace_nil]
  | pass c s none ih =>
    rw [Pattern.replace_cons_of_none none, List.length_cons, List.length_cons, ih]
  | take s e rest found ih =>
    obtain ⟨-, -, front⟩ := longestAt_eq_some found
    rw [Pattern.replace_of_match found, List.length_append, ih, blank, List.length_replicate, front,
      List.length_append]

/-- The piece stands in the result between what the text before it and the text behind it become,
whatever the tags are bound to. -/
def Kept (b : Bindings) (v y x : Text) : Prop :=
  ∀ f : Text → Text, b.pattern.replace (fun e => f e.1) (x ++ v ++ y)
    = b.pattern.replace (fun e => f e.1) x ++ v ++ b.pattern.replace (fun e => f e.1) y

namespace Kept

/-- A tag that is found ends before the piece: otherwise the first character of the piece would be
blanked with the tag. -/
theorem length_le (h : b.Kept v y x) (nonempty : v ≠ [])
    (found : b.pattern.match? (x ++ v ++ y) = some (e, rest)) : e.1.length ≤ x.length := by
  by_contra long
  obtain ⟨c, v, rfl⟩ := List.exists_cons_of_ne_nil nonempty
  obtain ⟨z, other⟩ : ∃ z, z ≠ c := by
    by_cases same : c = 'a'
    · exact ⟨'b', by simp [same]⟩
    · exact ⟨'a', Ne.symm same⟩
  have whole := h (blank z)
  rw [Pattern.replace_of_match found, List.append_assoc] at whole
  have place := congrArg (fun t : Text => t[x.length]?) whole
  rw [List.getElem?_append_left (by rw [blank, List.length_replicate]; omega),
    List.getElem?_append_right (Nat.le_of_eq (length_replace_blank z x)), length_replace_blank, blank,
    List.getElem?_replicate, if_pos (by omega), Nat.sub_self, List.cons_append,
    List.getElem?_cons_zero, Option.some.injEq] at place
  exact other place

theorem char {c : Char} (h : b.Kept v y (c :: x))
    (none : b.pattern.match? (c :: (x ++ v ++ y)) = none) : b.Kept v y x := by
  intro f
  have front : b.pattern.match? (c :: x) = .none := by
    have none : b.pattern.match? (c :: x ++ (v ++ y)) = .none := by simpa using none
    exact match?_eq_none_of_append none
  have whole := h f
  rw [List.cons_append, List.cons_append, Pattern.replace_cons_of_none none,
    Pattern.replace_cons_of_none front] at whole
  exact (List.cons.inj whole).2

theorem tag (h : b.Kept v y (e.1 ++ x))
    (found : b.pattern.match? (e.1 ++ (x ++ v ++ y)) = some (e, x ++ v ++ y)) : b.Kept v y x := by
  intro f
  have front : b.pattern.match? (e.1 ++ x) = some (e, x) := by
    have found : b.pattern.match? (e.1 ++ x ++ (v ++ y)) = some (e, x ++ (v ++ y)) := by
      simpa using found
    exact match?_of_match?_append found
  have whole := h f
  rw [List.append_assoc e.1, List.append_assoc e.1, Pattern.replace_of_match found,
    Pattern.replace_of_match front] at whole
  simpa using whole

/-- No tag begins in a piece before which nothing stands. -/
theorem match?_eq_none (h : b.Kept v y []) :
    ∀ u, u <:+ v → u ≠ [] → b.pattern.match? (u ++ y) = none := by
  induction v with
  | nil => exact fun u behind nonempty => absurd (List.suffix_nil.1 behind) nonempty
  | cons c v ih =>
    have here : b.pattern.match? (c :: (v ++ y)) = none := by
      cases found : b.pattern.match? (c :: (v ++ y)) with
      | none => rfl
      | some hit =>
        obtain ⟨e, rest⟩ := hit
        have short := h.length_le (List.cons_ne_nil c v) found
        exact absurd (List.length_eq_zero_iff.1 (Nat.le_zero.1 short)) (longestAt_eq_some found).2.1
    have later : b.Kept v y [] := by
      intro f
      have whole := h f
      rw [Pattern.replace_nil] at whole ⊢
      have whole : b.pattern.replace (fun e => f e.1) (c :: (v ++ y))
        = c :: (v ++ b.pattern.replace (fun e => f e.1) y) := whole
      rw [Pattern.replace_cons_of_none here] at whole
      exact (List.cons.inj whole).2
    intro u behind nonempty
    rcases List.suffix_cons_iff.1 behind with rfl | behind
    · exact here
    · exact ih later u behind nonempty

end Kept

/-- **When a substitution passes over a piece.**  It does exactly when, whatever the bound tags are
bound to, the piece stands between what the text before it becomes by itself and what the text behind
it becomes. -/
theorem passes_iff (noEmpty : b.get? [] = none) (nonempty : v ≠ []) :
    b.Passes v y x ↔ ∀ f, (b.revalued f).apply (x ++ v ++ y)
      = (b.revalued f).apply x ++ v ++ (b.revalued f).apply y := by
  simp only [apply_revalued noEmpty]
  exact ⟨fun passes f => passes.replace_eq, passes_of_step Kept.match?_eq_none
    (fun kept found => kept.length_le nonempty found) Kept.char Kept.tag⟩

/-- A piece that is passed over stands in the result. -/
theorem Passes.apply_eq (h : b.Passes v y x) (noEmpty : b.get? [] = none) :
    b.apply (x ++ v ++ y) = b.apply x ++ v ++ b.apply y := by
  simp only [apply, noEmpty]
  exact h.replace_eq

end Passes

end Bindings

end DocumentMerge
