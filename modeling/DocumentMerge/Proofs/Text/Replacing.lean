import DocumentMerge.Proofs.Text.Scanning

/-!
# Replacing a fixed text

`Text.replaceAll` scans for a fixed text.  Three questions are answered here.

* When does it do anything?  Exactly when the text occurs (`cutAt?_eq_none_iff`); what it does at
  the first occurrence is `replaceAll_of_cutAt?`, and without an occurrence nothing changes
  (`replaceAll_of_not_infix`).
* What does it do with a text put together from pieces?  `replaceAll_append_self` takes an
  occurrence in front, and `Pattern.replace_append` walks through a piece that is skipped.
* When does a piece in the middle stay?  `Clear part a o b` says that every occurrence of `part`
  in `a ++ o ++ b` ends within `a` or begins behind `o`.  Then the two sides are replaced each by
  itself (`replaceAll_of_clear`), so `o` is still there.
-/

namespace DocumentMerge

namespace Pattern

variable {c : Char} {cs : Text}

/-- A fixed text is matched exactly where it stands. -/
theorem literal_match?_eq_some_iff {s rest : Text} {u : Unit} :
    (literal c cs).match? s = some (u, rest) ↔ s = (c :: cs) ++ rest := by
  show (Text.dropPrefix? (c :: cs) s).map (fun rest => ((), rest)) = some (u, rest) ↔ _
  rw [Option.map_eq_some_iff]
  constructor
  · rintro ⟨rest', h, e⟩
    cases e
    exact Text.dropPrefix?_eq_some_iff.1 h
  · intro h
    exact ⟨rest, Text.dropPrefix?_eq_some_iff.2 h, rfl⟩

theorem literal_match?_eq_none {s : Text} (h : ¬ (c :: cs) <+: s) :
    (literal c cs).match? s = none := by
  cases found : (literal c cs).match? s with
  | none => rfl
  | some hit =>
    have e := literal_match?_eq_some_iff.1 (show _ = some (hit.1, hit.2) from found)
    exact absurd ⟨hit.2, e.symm⟩ h

theorem literal_beginsWith : (literal c cs).BeginsWith c := by
  intro s rest u h
  exact ⟨cs ++ rest, literal_match?_eq_some_iff.1 h⟩

/-- A search for a fixed text fails only where the text does not occur. -/
theorem literal_first?_eq_none_iff {s : Text} :
    (literal c cs).first? s = none ↔ ¬ (c :: cs) <:+: s := by
  induction s with
  | nil => simp
  | cons d s ih =>
    rw [List.infix_cons_iff, not_or, ← ih]
    by_cases here : (c :: cs) <+: d :: s
    · obtain ⟨rest, e⟩ := here
      have matched : (literal c cs).match? (d :: s) = some ((), rest) :=
        literal_match?_eq_some_iff.2 e.symm
      rw [first?_of_match matched]
      simp [← e]
    · rw [first?_cons_of_none (literal_match?_eq_none here), Option.map_eq_none_iff]
      exact (and_iff_right here).symm

end Pattern

namespace Text

open Pattern (literal)

variable {part new : Text}

/-- Whether a part occurs is decided by `occursIn`. -/
theorem occursIn_iff {s : Text} : part.occursIn s = true ↔ part <:+: s := by
  induction s with
  | nil => rw [occursIn, List.isEmpty_iff, List.infix_nil]
  | cons c s ih => rw [occursIn, Bool.or_eq_true, List.isPrefixOf_iff_prefix, ih,
      List.infix_cons_iff]

theorem cutAt?_eq_none_iff {s : Text} : cutAt? part s = none ↔ ¬ part <:+: s := by
  cases part with
  | nil => simp [cutAt?, List.nil_infix]
  | cons c cs =>
    show ((literal c cs).first? s).map _ = none ↔ _
    rw [Option.map_eq_none_iff, Pattern.literal_first?_eq_none_iff]

theorem replaceAll_cons (c : Char) (cs new s : Text) :
    replaceAll (c :: cs) new s = (literal c cs).replace (fun _ => new) s := rfl

/-- Where a part does not occur, replacing it changes nothing. -/
theorem replaceAll_of_not_infix {s : Text} (h : ¬ part <:+: s) : replaceAll part new s = s := by
  cases part with
  | nil => rfl
  | cons c cs =>
    rw [replaceAll_cons, Pattern.replace_of_none (Pattern.literal_first?_eq_none_iff.2 h)]

/-- The first occurrence is replaced, and replacing goes on behind it. -/
theorem replaceAll_of_cutAt? {s a b : Text} (nonempty : part ≠ [])
    (h : cutAt? part s = some (a, b)) :
    replaceAll part new s = a ++ new ++ replaceAll part new b := by
  cases part with
  | nil => exact absurd rfl nonempty
  | cons c cs =>
    have h : ((literal c cs).first? s).map (fun m => (m.before, m.after)) = some (a, b) := h
    rw [Option.map_eq_some_iff] at h
    obtain ⟨m, found, e⟩ := h
    cases e
    rw [replaceAll_cons, replaceAll_cons, Pattern.replace_of_some found]

theorem replaceAll_append_self (nonempty : part ≠ []) (s : Text) :
    replaceAll part new (part ++ s) = new ++ replaceAll part new s := by
  cases part with
  | nil => exact absurd rfl nonempty
  | cons c cs =>
    have here : (literal c cs).match? ((c :: cs) ++ s) = some ((), s) :=
      Pattern.literal_match?_eq_some_iff.2 rfl
    rw [replaceAll_cons, replaceAll_cons, Pattern.replace_of_match here]

theorem replaceAll_cons_of_apart {c : Char} {s : Text} (h : ¬ part <+: c :: s) :
    replaceAll part new (c :: s) = c :: replaceAll part new s := by
  cases part with
  | nil => rfl
  | cons d ds =>
    rw [replaceAll_cons, replaceAll_cons,
      Pattern.replace_cons_of_none (Pattern.literal_match?_eq_none h)]

@[simp] theorem replaceAll_nil : replaceAll part new [] = [] := by
  cases part with
  | nil => rfl
  | cons c cs => rw [replaceAll_cons, Pattern.replace_nil]

/-! ## A piece that stays -/

/-- Every occurrence of a part in `a ++ o ++ b` ends within `a` or begins behind `o`. -/
def Clear (part a o b : Text) : Prop :=
  ∀ u v, a ++ o ++ b = u ++ part ++ v → (u ++ part) <+: a ∨ (a ++ o) <+: u

/-- A piece that is passed over stays clear when what stands before it is shortened. -/
theorem Clear.of_append {a a' o b : Text} (h : Clear part (a ++ a') o b) : Clear part a' o b := by
  intro u v e
  have whole : (a ++ a') ++ o ++ b = (a ++ u) ++ part ++ v := by
    rw [List.append_assoc a a' o, List.append_assoc a (a' ++ o) b, e]
    simp only [List.append_assoc]
  rcases h (a ++ u) v whole with h | h
  · rw [List.append_assoc, List.prefix_append_right_inj] at h
    exact .inl h
  · rw [List.append_assoc, List.prefix_append_right_inj] at h
    exact .inr h

/-- The first character of a piece that begins at once may be dropped from it. -/
theorem Clear.tail {c : Char} {o b : Text} (h : Clear part [] (c :: o) b) : Clear part [] o b := by
  intro u v e
  have whole : [] ++ (c :: o) ++ b = (c :: u) ++ part ++ v := by
    simpa using e
  rcases h (c :: u) v whole with h | h
  · cases List.prefix_nil.1 h
  · exact .inr (List.cons_prefix_cons.1 h).2

theorem replaceAll_of_clear_nil (nonempty : part ≠ []) {o b : Text} (h : Clear part [] o b) :
    replaceAll part new (o ++ b) = o ++ replaceAll part new b := by
  induction o with
  | nil => rfl
  | cons c o ih =>
    have apart : ¬ part <+: c :: (o ++ b) := by
      rintro ⟨v, e⟩
      rcases h [] v e.symm with h | h
      · exact nonempty (List.prefix_nil.1 h)
      · cases List.prefix_nil.1 h
    rw [List.cons_append, replaceAll_cons_of_apart apart, ih h.tail]
    rfl

/-- What stands before a piece and what stands behind it are replaced each by itself. -/
theorem replaceAll_of_clear (nonempty : part ≠ []) {a o b : Text} (h : Clear part a o b) :
    replaceAll part new (a ++ o ++ b) = replaceAll part new a ++ o ++ replaceAll part new b := by
  match a with
  | [] =>
    rw [replaceAll_nil]
    exact replaceAll_of_clear_nil nonempty h
  | c :: a =>
    by_cases here : part <+: (c :: a) ++ o ++ b
    · -- an occurrence in front ends within `c :: a`, and what it leaves there is shorter
      obtain ⟨v, e⟩ := here
      have within : part <+: c :: a := by
        rcases h [] v e.symm with h | h
        · exact h
        · cases List.prefix_nil.1 h
      obtain ⟨a', e'⟩ := within
      have shorter : a'.length < (c :: a).length := by
        have := List.length_pos_iff.2 nonempty
        rw [← e', List.length_append]
        omega
      rw [← e', List.append_assoc part, List.append_assoc part, replaceAll_append_self nonempty,
        replaceAll_append_self nonempty,
        replaceAll_of_clear nonempty (Clear.of_append (a := part) (e' ▸ h))]
      simp only [List.append_assoc]
    · have apart : ¬ part <+: c :: a := fun ⟨v, e⟩ => here ⟨v ++ o ++ b, by simp [← e]⟩
      rw [replaceAll_cons_of_apart apart, List.cons_append, List.cons_append,
        replaceAll_cons_of_apart (by simpa using here),
        replaceAll_of_clear nonempty (Clear.of_append (a := [c]) h)]
      rfl
termination_by a.length
decreasing_by
  · exact shorter
  · exact Nat.lt_succ_self a.length

end Text

end DocumentMerge
