import DocumentMerge.Proofs.Region.Locating
import DocumentMerge.Proofs.Text.Replacing

/-!
# A piece that survives

When a row is finished, the markers of the segment's own name are taken away, and with them nothing
else.  So a piece of the row stays unless some marker overlaps it.

* `IsMarker n w`: the text `w` is read as an opening or a closing marker of the name `n`.
* `infix_unwrap`: a piece that is clear of every marker of a name is still there when the regions of
  that name are unwrapped.  The induction is on what stands before the piece: a region that ends
  there is passed over, and one that goes on behind it keeps its inner text.
* `Framed`: a text that begins and ends with a bracket, as every marker and every region does.  A
  piece without brackets is clear of every framed text that is shorter (`Clear.of_framed`).
-/

namespace DocumentMerge

/-! ## Texts between brackets -/

/-- A text that begins with an opening bracket and ends with a closing one. -/
def Text.Framed (t : Text) : Prop :=
  ∃ inside, t = '[' :: (inside ++ [']'])

namespace Text

theorem Framed.ne_nil {t : Text} (h : Framed t) : t ≠ [] := by
  obtain ⟨inside, rfl⟩ := h
  exact List.cons_ne_nil _ _

/-- A text that begins as one framed text does and ends as another one does. -/
theorem Framed.between {s t : Text} (hs : Framed s) (inner : Text) (ht : Framed t) :
    Framed (s ++ inner ++ t) := by
  obtain ⟨x, rfl⟩ := hs
  obtain ⟨y, rfl⟩ := ht
  exact ⟨x ++ ']' :: inner ++ '[' :: y, by simp⟩

/-- A piece without brackets is clear of a framed text that is shorter: an occurrence can neither
begin nor end in the piece, and it has not the length to go over all of it. -/
theorem Clear.of_framed {part o : Text} (framed : Framed part) (short : part.length < o.length)
    (left : '[' ∉ o) (right : ']' ∉ o) (a b : Text) : Clear part a o b := by
  intro u v e
  have lengths := congrArg List.length e
  simp only [List.length_append] at lengths
  by_cases within : u.length + part.length ≤ a.length
  · left
    have here : (u ++ part) <+: a ++ (o ++ b) := ⟨v, by rw [← e]; simp⟩
    refine List.prefix_of_prefix_length_le here (List.prefix_append a _) ?_
    rw [List.length_append]
    exact within
  · by_cases behind : a.length + o.length ≤ u.length
    · right
      have here : u <+: a ++ o ++ b := ⟨part ++ v, by rw [e]; simp⟩
      refine List.prefix_of_prefix_length_le (List.prefix_append (a ++ o) b) here ?_
      rw [List.length_append]
      exact behind
    · exfalso
      obtain ⟨inside, rfl⟩ := framed
      simp only [List.length_cons, List.length_append, List.length_nil] at short within
      -- the character of the whole text at a place inside the piece
      have inPiece : ∀ i, a.length ≤ i → i < a.length + o.length →
          ∃ c ∈ o, (a ++ o ++ b)[i]? = some c := by
        intro i low high
        have bound : i - a.length < o.length := by omega
        refine ⟨o[i - a.length], List.getElem_mem bound, ?_⟩
        rw [List.append_assoc, List.getElem?_append_right low, List.getElem?_append_left bound,
          List.getElem?_eq_getElem bound]
      by_cases early : u.length < a.length
      · -- the end lies in the piece
        obtain ⟨c, mem, at_⟩ := inPiece (u.length + (inside.length + 1)) (by omega) (by omega)
        rw [e, List.append_assoc, List.getElem?_append_right (by omega)] at at_
        have last : ('[' :: (inside ++ [']']) ++ v)[u.length + (inside.length + 1) - u.length]?
            = some ']' := by
          rw [Nat.add_sub_cancel_left]
          simp
        rw [last] at at_
        cases at_
        exact right mem
      · -- the beginning lies in the piece
        obtain ⟨c, mem, at_⟩ := inPiece u.length (by omega) (by omega)
        rw [e, List.append_assoc, List.getElem?_append_right (Nat.le_refl _), Nat.sub_self] at at_
        cases at_
        exact left mem

end Text

/-! ## Markers as written -/

namespace Region

open Text (Clear Framed)

/-- A text that is read as a marker of a name. -/
def IsMarker (n w : Text) : Prop :=
  (∃ rest, opening? (w ++ rest) = some (⟨n, w⟩, rest)) ∨
    ∃ rest, closing? n (w ++ rest) = some (w, rest)

theorem IsWritten.framed {word n w : Text} (h : IsWritten word n w) : Framed w := by
  obtain ⟨a, b, c, -, -, -, rfl⟩ := h
  exact ⟨"!--".toList ++ a :: word ++ b :: n ++ c :: "--".toList, by simp [opener, closer]⟩

namespace IsMarker

variable {n w : Text}

/-- A marker has one of two words. -/
theorem isWritten (h : IsMarker n w) : IsWritten beginWord n w ∨ IsWritten endWord n w := by
  rcases h with ⟨rest, read⟩ | ⟨rest, read⟩
  · exact .inl (opening?_eq_some_iff.1 read).1.2
  · exact .inr (closing?_eq_some_iff.1 read).1

theorem framed (h : IsMarker n w) : Framed w :=
  h.isWritten.elim IsWritten.framed IsWritten.framed

/-- A marker is little longer than its name. -/
theorem length_le (h : IsMarker n w) : w.length ≤ n.length + 15 := by
  rcases h.isWritten with opens | closes
  · exact Nat.le_of_eq opens.length_eq
  · rw [closes.length_eq]
    exact Nat.add_le_add_left (by decide) _

end IsMarker

/-- The markers of a region that was found are markers of its name. -/
theorem isMarker_of_at? {accept : Text → Bool} {s rest : Text} {r : Region}
    (h : at? accept s = some (r, rest)) :
    accept r.name = true ∧ IsMarker r.name r.opening ∧ IsMarker r.name r.closing := by
  obtain ⟨accepted, stands⟩ := at?_eq_some_iff.1 h
  exact ⟨accepted, .inl ⟨[], opening?_eq_some_iff.2 ⟨stands.opens, rfl⟩⟩,
    .inr ⟨[], closing?_eq_some_iff.2 ⟨stands.closes, rfl⟩⟩⟩

/-- The text of a region begins and ends with a bracket. -/
theorem StandsIn.framed {s before after : Text} {r : Region} (h : r.StandsIn s before after) :
    Framed r.outer :=
  h.opens.2.framed.between r.inner (IsWritten.framed h.closes)

/-! ## Unwrapping -/

/-- A piece that is clear of every marker of a name is still there when the regions of that name are
unwrapped. -/
theorem infix_unwrap {n a o b : Text} (h : ∀ w, IsMarker n w → Clear w a o b) :
    o <:+: unwrap n (a ++ o ++ b) := by
  rw [unwrap]
  cases found : (pattern fun m => m == n).first? (a ++ o ++ b) with
  | none =>
    rw [Pattern.replace_of_none found]
    exact ⟨a, b, rfl⟩
  | some m =>
    obtain ⟨here, cut, matched⟩ := Pattern.eq_append_of_first? _ found
    have matched : at? (fun m => m == n) here = some (m.value, m.after) := matched
    obtain ⟨named, opening, closing⟩ := isMarker_of_at? matched
    have named : m.value.name = n := by simpa using named
    obtain ⟨whole, nonempty⟩ := eq_append_of_at? matched
    rw [named] at opening closing
    rw [Pattern.replace_of_some found]
    have opened : a ++ o ++ b
        = m.before ++ m.value.opening ++ (m.value.inner ++ m.value.closing ++ m.after) := by
      rw [cut, whole, outer]
      simp only [List.append_assoc]
    have closed : a ++ o ++ b
        = m.before ++ m.value.opening ++ m.value.inner ++ m.value.closing ++ m.after := by
      rw [opened]
      simp only [List.append_assoc]
    rcases h _ opening _ _ opened with before | ⟨x, behind⟩
    · rcases h _ closing _ _ closed with ⟨a', inside⟩ | around
      · -- the region ends before the piece
        have shorter : a'.length < a.length := by
          have := List.length_pos_iff.2 nonempty
          rw [← inside]
          simp only [List.length_append]
          omega
        have later : m.after = a' ++ o ++ b := by
          rw [← inside] at closed
          simpa using closed.symm
        have rest := infix_unwrap fun w marker =>
          Clear.of_append (show Clear w ((m.before ++ m.value.opening ++ m.value.inner
            ++ m.value.closing) ++ a') o b from inside ▸ h w marker)
        rw [later]
        exact rest.trans (List.suffix_append _ _).isInfix
      · -- the region goes on behind the piece
        obtain ⟨a', inside⟩ := before
        rw [← inside, List.append_assoc, List.prefix_append_right_inj] at around
        have kept : o <:+: m.value.inner := (List.suffix_append a' o).isInfix.trans around.isInfix
        refine kept.trans ⟨m.before, (pattern fun m => m == n).replace Region.inner m.after, ?_⟩
        rfl
    · -- the region begins behind the piece
      refine ⟨a, x ++ m.value.inner ++ (pattern fun m => m == n).replace Region.inner m.after, ?_⟩
      rw [← behind]
      simp only [List.append_assoc]
termination_by a.length
decreasing_by exact shorter

end Region

end DocumentMerge
