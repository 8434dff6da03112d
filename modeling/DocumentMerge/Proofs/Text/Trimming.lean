import DocumentMerge.Text.Basic
import Mathlib.Data.List.DropRight
import Mathlib.Data.List.TakeWhile

/-!
# Trimming

What is dropped at the ends of a text, and what stays.

* `exists_of_dropEndWhile`, `dropEndWhile_append`: characters are dropped up to the last one that is not
  of their kind.
* `exists_of_trim`, `trim_append`: a trimmed text neither begins nor ends with white space, and it is
  what stands between white space.
-/

namespace DocumentMerge.Text

variable {drop : Char → Bool} {s t : Text}

/-- The text is what stays and what was dropped. -/
theorem exists_of_dropEndWhile (drop : Char → Bool) (t : Text) :
    ∃ trail, t = dropEndWhile drop t ++ trail ∧ trail.all drop = true ∧
      ∀ c ∈ (dropEndWhile drop t).getLast?, drop c = false := by
  refine ⟨t.rtakeWhile drop, List.rdropWhile_append_rtakeWhile.symm, ?_, fun c last => ?_⟩
  · exact List.all_eq_true.2 fun c => List.mem_rtakeWhile_imp
  · rw [dropEndWhile, List.getLast?_reverse] at last
    have stop := List.head?_dropWhile_not drop t.reverse
    rw [last] at stop
    simpa using stop

/-- Dropping goes no further than to a character that stays. -/
theorem dropEndWhile_append (stop : ∀ c ∈ s.getLast?, drop c = false) (t : Text) :
    dropEndWhile drop (s ++ t) = s ++ dropEndWhile drop t := by
  obtain ⟨trail, split, dropped, -⟩ := exists_of_dropEndWhile drop t
  generalize kept : dropEndWhile drop t = k at split
  rw [dropEndWhile, List.reverse_append, List.dropWhile_append]
  split
  · next all =>
    obtain rfl : k = [] := by
      rw [← kept, dropEndWhile, List.isEmpty_iff.1 all, List.reverse_nil]
    have stays : s.reverse.dropWhile drop = s.reverse := by
      rw [List.dropWhile_eq_self_iff]
      intro nonempty
      rw [Bool.not_eq_true]
      refine stop _ ?_
      rw [← List.head?_reverse, Option.mem_def]
      exact List.head?_eq_getElem? ▸ List.getElem?_eq_getElem nonempty
    rw [stays, List.reverse_reverse, List.append_nil]
  · rw [List.reverse_append, List.reverse_reverse, ← kept]
    rfl

theorem dropEndWhile_of_all (all : t.all drop = true) : dropEndWhile drop t = [] :=
  List.rdropWhile_eq_nil_iff.2 (List.all_eq_true.1 all)

/-- The text is what stays and the white space around it. -/
theorem exists_of_trim (t : Text) :
    ∃ lead trail, t = lead ++ trim t ++ trail ∧ lead.all isBlank = true ∧ trail.all isBlank = true ∧
      (∀ c ∈ (trim t).head?, isBlank c = false) ∧ ∀ c ∈ (trim t).getLast?, isBlank c = false := by
  obtain ⟨trail, split, dropped, last⟩ := exists_of_dropEndWhile isBlank (t.dropWhile isBlank)
  have stop := List.head?_dropWhile_not isBlank t
  refine ⟨t.takeWhile isBlank, trail, ?_, List.all_takeWhile, dropped, fun c first => ?_, last⟩
  · rw [List.append_assoc, trim, ← split, List.takeWhile_append_dropWhile]
  · have begins : (t.dropWhile isBlank).head? = some c := by
      rw [split, List.head?_append_of_ne_nil]
      · exact first
      · rintro none
        rw [trim, none] at first
        cases first
    rw [begins] at stop
    simpa using stop

/-- What stands between white space stays. -/
theorem trim_append {lead trail : Text} (before : lead.all isBlank = true)
    (behind : trail.all isBlank = true) (first : ∀ c ∈ t.head?, isBlank c = false)
    (last : ∀ c ∈ t.getLast?, isBlank c = false) : trim (lead ++ t ++ trail) = t := by
  have front : (lead ++ t ++ trail).dropWhile isBlank = (t ++ trail).dropWhile isBlank := by
    rw [List.append_assoc, List.dropWhile_append_of_pos (List.all_eq_true.1 before)]
  rw [trim, front]
  cases t with
  | nil =>
    rw [List.nil_append, List.dropWhile_eq_nil_iff.2 (List.all_eq_true.1 behind)]
    rfl
  | cons c t =>
    have solid : isBlank c = false := first c rfl
    rw [List.cons_append, List.dropWhile_cons, solid, if_neg (by decide), ← List.cons_append,
      dropEndWhile_append last, dropEndWhile_of_all behind, List.append_nil]

end DocumentMerge.Text
