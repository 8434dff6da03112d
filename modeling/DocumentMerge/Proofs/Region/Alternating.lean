import DocumentMerge.Proofs.Region.Locating
import DocumentMerge.Proofs.Region.Nesting
import Mathlib.Data.List.Chain

/-!
# Unwrapping where markers alternate

To unwrap a name is to go from region to region, and what a region is depends on which closing marker
is the nearest.  When the opening and the closing markers of the name take turns, none of this matters:
all of them go, and nothing else does.

* `Listed n s hits rest`: the text `s` with all its markers of the name `n`, each with its kind and what
  stands between it and the marker before.  `listed_split`: every text can be written so.
* `Alternating`: opening and closing markers take turns, from an opening one to a closing one.
* `Listed.first`: a marker in a listed text is the first one, or begins behind it.  With this a list is
  taken apart from the front, two markers at a time, in the induction of `Listed.unwrap`.
* `unwrap_eq_self_iff`: nothing is unwrapped exactly where no opening marker has a closing one behind it.
* `unwrap_removes_markers`: all of this for one text and one name.
-/

namespace DocumentMerge.Region

variable {n s t w x y rest gap : Text}

/-! ## All markers of a name -/

/-- The two kinds of markers. -/
inductive MarkKind where
  | opening
  | closing
  deriving DecidableEq, Repr

/-- A marker as written. -/
structure Mark where
  kind : MarkKind
  written : Text
  deriving DecidableEq, Repr

/-- A marker has a name. -/
def Mark.Names (m : Mark) (n : Text) : Prop :=
  match m.kind with
  | .opening => IsOpening n m.written
  | .closing => IsClosing n m.written

/-- The word of a kind of markers. -/
def MarkKind.word : MarkKind → Text
  | .opening => beginWord
  | .closing => endWord

theorem MarkKind.word_spec (k : MarkKind) : '[' ∉ k.word ∧ k.word ≠ [] ∧ '-' ∉ k.word := by
  cases k <;> decide

theorem Mark.Names.isWritten {m : Mark} (h : m.Names n) : IsWritten m.kind.word n m.written := by
  obtain ⟨_ | _, w⟩ := m
  · exact And.right h
  · exact h

theorem Mark.Names.ne_nil {m : Mark} (h : m.Names n) : m.written ≠ [] :=
  h.isWritten.ne_nil

/-- A text with all its markers of a name, each behind what stands between it and the one before, and
what stands behind the last one. -/
structure Listed (n s : Text) (hits : List (Text × Mark)) (rest : Text) : Prop where
  whole : s = Pattern.assemble Mark.written hits ++ rest
  names : ∀ hit ∈ hits, hit.2.Names n
  complete : ∀ (m : Mark) x y, m.Names n → s = x ++ (m.written ++ y) →
    ∃ earlier gap later, hits = earlier ++ (gap, m) :: later ∧
      x = Pattern.assemble Mark.written earlier ++ gap

variable {hits : List (Text × Mark)} {m : Mark}

theorem assemble_cons {α : Type} (write : α → Text) (gap : Text) (a : α) (hits : List (Text × α)) :
    Pattern.assemble write ((gap, a) :: hits) = gap ++ write a ++ Pattern.assemble write hits :=
  List.flatMap_cons

/-- What is behind the first marker of a list. -/
theorem Listed.cut (h : Listed n s ((gap, m) :: hits) rest) :
    s = gap ++ (m.written ++ (Pattern.assemble Mark.written hits ++ rest)) := by
  rw [h.whole, assemble_cons]
  simp only [List.append_assoc]

/-- A marker of the name is the first one of the list, or it begins behind that one. -/
theorem Listed.first (h : Listed n s ((gap, m) :: hits) rest) {m' : Mark} (names : m'.Names n)
    (e : s = x ++ (m'.written ++ y)) :
    (x = gap ∧ m' = m) ∨
      ∃ earlier gap' later, hits = earlier ++ (gap', m') :: later ∧
        x = gap ++ (m.written ++ (Pattern.assemble Mark.written earlier ++ gap')) := by
  obtain ⟨earlier, gap', later, split, rfl⟩ := h.complete m' x y names e
  cases earlier with
  | nil =>
    obtain ⟨head, -⟩ := List.cons.inj split
    cases head
    exact .inl ⟨rfl, rfl⟩
  | cons hit earlier =>
    obtain ⟨head, behind⟩ := List.cons.inj split
    refine .inr ⟨earlier, gap', later, behind, ?_⟩
    rw [← head, assemble_cons]
    simp only [List.append_assoc]

theorem Listed.le_length (h : Listed n s ((gap, m) :: hits) rest) {m' : Mark} (names : m'.Names n)
    (e : s = x ++ (m'.written ++ y)) : gap.length ≤ x.length := by
  rcases h.first names e with ⟨rfl, -⟩ | ⟨_, _, _, -, rfl⟩
  · exact Nat.le_refl _
  · rw [List.length_append]
    omega

/-- The text behind the first marker has the other markers. -/
theorem Listed.tail (h : Listed n s ((gap, m) :: hits) rest) :
    Listed n (Pattern.assemble Mark.written hits ++ rest) hits rest := by
  refine ⟨rfl, fun hit mem => h.names hit (List.mem_cons_of_mem _ mem), fun m' x y names e => ?_⟩
  have whole : s = (gap ++ (m.written ++ x)) ++ (m'.written ++ y) := by
    rw [h.cut, e]
    simp only [List.append_assoc]
  have nonempty := List.length_pos_iff.2 (h.names (gap, m) List.mem_cons_self).ne_nil
  rcases h.first names whole with ⟨here, -⟩ | ⟨earlier, gap', later, split, behind⟩
  · have := congrArg List.length here
    simp only [List.length_append] at this nonempty
    omega
  · exact ⟨earlier, gap', later, split, List.append_cancel_left (List.append_cancel_left behind)⟩

/-! ## Every text can be listed -/

/-- The marker of a name at the beginning of a text. -/
def mark? (n s : Text) : Option (Mark × Text) :=
  match opening? s with
  | some (o, rest) => if o.name = n then some (⟨.opening, o.written⟩, rest) else none
  | none => (closing? n s).map fun (written, rest) => (⟨.closing, written⟩, rest)

theorem mark?_eq_some_iff : mark? n s = some (m, rest) ↔ m.Names n ∧ s = m.written ++ rest := by
  constructor
  · intro h
    rw [mark?] at h
    split at h
    · next o behind opened =>
      split at h
      · next named =>
        cases h
        obtain ⟨opens, cut⟩ := opening?_eq_some_iff.1 opened
        exact ⟨named ▸ opens, cut⟩
      · cases h
    · rw [Option.map_eq_some_iff] at h
      obtain ⟨⟨w, behind⟩, closed, e⟩ := h
      cases e
      exact closing?_eq_some_iff.1 closed
  · obtain ⟨k, w⟩ := m
    rintro ⟨names, cut⟩
    cases k with
    | opening =>
      have opened : opening? s = some (⟨n, w⟩, rest) := opening?_eq_some_iff.2 ⟨names, cut⟩
      rw [mark?, opened]
      exact if_pos rfl
    | closing =>
      have unopened : opening? s = none := by
        refine Option.eq_none_iff_forall_ne_some.2 fun ⟨o, behind⟩ opened => ?_
        obtain ⟨opens, cut'⟩ := opening?_eq_some_iff.1 opened
        exact opens.not_closing names (cut'.symm.trans cut)
      have closed : closing? n s = some (w, rest) := closing?_eq_some_iff.2 ⟨names, cut⟩
      rw [mark?, unopened]
      simp only [closed, Option.map_some]

/-- The markers of a name. -/
def marks (n : Text) : Pattern Mark where
  match? := mark? n
  consumes h :=
    have ⟨names, cut⟩ := mark?_eq_some_iff.1 h
    ⟨_, names.ne_nil, cut⟩

/-- A marker does not begin inside another one of its name. -/
theorem Mark.Names.apart {m m' : Mark} (h : m.Names n) (h' : m'.Names n) (spaceless : Spaceless n)
    (e : m.written ++ t = x ++ (m'.written ++ y)) :
    x = [] ∨ ∃ behind, x = m.written ++ behind ∧ t = behind ++ (m'.written ++ y) := by
  rcases List.append_eq_append_iff.1 e with ⟨behind, rfl, cut⟩ | ⟨u, inside, cut⟩
  · exact .inr ⟨behind, rfl, cut⟩
  · cases u with
    | nil => exact .inr ⟨[], by simpa using inside.symm, cut.symm⟩
    | cons c u =>
      have whole : c :: u = m.written :=
        h.isWritten.eq_of_suffix m.kind.word_spec.1 spaceless h'.isWritten m'.kind.word_spec.2.1
          m'.kind.word_spec.2.2 ⟨x, inside.symm⟩ (List.cons_ne_nil _ _) cut.symm
      left
      rw [← whole] at inside
      exact List.self_eq_append_left.1 inside

/-- A search for markers finds all of them. -/
theorem listed_split (spaceless : Spaceless n) (s : Text) :
    Listed n s ((marks n).split s).1 ((marks n).split s).2 := by
  induction s using (marks n).search_induct with
  | stop s missing =>
    rw [Pattern.split_of_none missing]
    refine ⟨rfl, by simp, fun m x y names e => ?_⟩
    have here : mark? n (m.written ++ y) = some (m, y) := mark?_eq_some_iff.2 ⟨names, rfl⟩
    have none : mark? n (m.written ++ y) = none := Pattern.first?_eq_none_iff.1 missing _ ⟨x, e.symm⟩
    rw [here] at none
    cases none
  | step s first found ih =>
    rw [Pattern.split_of_some found]
    obtain ⟨here, split, matched, leftmost⟩ := Pattern.first?_eq_some_iff_le.1 found
    obtain ⟨named, rfl⟩ := mark?_eq_some_iff.1 matched
    refine ⟨?_, fun hit mem => ?_, fun m x y names e => ?_⟩
    · rw [assemble_cons, List.append_assoc, ← ih.whole, split, List.append_assoc]
    · rcases List.mem_cons.1 mem with rfl | mem
      · exact named
      · exact ih.names hit mem
    · have begins : mark? n (m.written ++ y) = some (m, y) := mark?_eq_some_iff.2 ⟨names, rfl⟩
      have le : first.before.length ≤ x.length :=
        leftmost x _ e (Option.ne_none_iff_exists'.2 ⟨_, begins⟩)
      have both : first.before ++ (first.value.written ++ first.after) = x ++ (m.written ++ y) :=
        split.symm.trans e
      obtain ⟨x, rfl⟩ : first.before <+: x :=
        List.prefix_of_prefix_length_le ⟨_, both⟩ (List.prefix_append x _) le
      rw [List.append_assoc, List.append_cancel_left_eq] at both
      rcases named.apart names spaceless both with rfl | ⟨behind, rfl, later⟩
      · have same : mark? n (first.value.written ++ first.after) = some (m, y) :=
          mark?_eq_some_iff.2 ⟨names, both⟩
        have matched : mark? n (first.value.written ++ first.after)
            = some (first.value, first.after) := matched
        rw [matched] at same
        cases same
        exact ⟨[], first.before, _, rfl, by simp [Pattern.assemble]⟩
      · obtain ⟨earlier, gap, rest, list, rfl⟩ := ih.complete m behind y names later
        refine ⟨(first.before, first.value) :: earlier, gap, rest, by rw [list]; rfl, ?_⟩
        rw [assemble_cons]
        simp only [List.append_assoc]

/-! ## Taking turns -/

/-- Opening and closing markers take turns, the first one is an opening one and the last one a closing
one. -/
structure Alternating (ks : List MarkKind) : Prop where
  turns : ks.IsChain (· ≠ ·)
  first : ∀ k ∈ ks.head?, k = .opening
  last : ∀ k ∈ ks.getLast?, k = .closing

/-- There are no markers at all, or the first two are a pair. -/
theorem Alternating.cases {ks : List MarkKind} (h : Alternating ks) :
    ks = [] ∨ ∃ ls, ks = .opening :: .closing :: ls ∧ Alternating ls := by
  match ks, h with
  | [], _ => exact .inl rfl
  | [k], h =>
    have opens : k = .opening := h.first k rfl
    have closes : k = .closing := h.last k rfl
    rw [opens] at closes
    cases closes
  | k :: l :: ls, h =>
    obtain rfl : k = .opening := h.first k rfl
    obtain ⟨differ, rest⟩ := List.isChain_cons_cons.1 h.turns
    obtain rfl : l = .closing := by
      cases l with
      | opening => exact absurd rfl differ
      | closing => rfl
    refine .inr ⟨ls, rfl, rest.tail, fun k mem => ?_, fun k mem => ?_⟩
    · cases ls with
      | nil => cases mem
      | cons l ls =>
        obtain rfl : l = k := by simpa using mem
        have differ := (List.isChain_cons_cons.1 rest).1
        cases l with
        | opening => rfl
        | closing => exact absurd rfl differ
    · cases ls with
      | nil => cases mem
      | cons l ls => exact h.last k (by simpa using mem)

/-- The first two markers enclose the first region of the name. -/
theorem Listed.find? {v : Text} {gap' : Text}
    (h : Listed n s ((gap, ⟨.opening, w⟩) :: (gap', ⟨.closing, v⟩) :: hits) rest) :
    find? n s = some ⟨gap, ⟨n, w, gap', v⟩, Pattern.assemble Mark.written hits ++ rest⟩ := by
  have opens : IsOpening n w := h.names _ List.mem_cons_self
  have closes : IsClosing n v := h.tail.names _ List.mem_cons_self
  refine first?_eq_some_iff.2 ⟨beq_self_eq_true n, ⟨?_, opens, closes, fun x w' y marker e => ?_⟩,
    fun m x named opened => ?_⟩
  · rw [h.cut, h.tail.cut, outer_append]
  · have whole := h.tail.cut.trans e
    have names : Mark.Names ⟨.closing, w'⟩ n := marker
    exact h.tail.le_length names whole
  · obtain ⟨w', y, marker, e, -⟩ := opened
    obtain rfl : m = n := by simpa using named
    have names : Mark.Names ⟨.opening, w'⟩ m := marker
    exact h.le_length names e

/-- What is left when markers are taken out is not longer. -/
theorem Erased.length_le (h : Erased n s t) : t.length ≤ s.length := by
  induction h with
  | whole => exact Nat.le_refl _
  | marker x _ _ ih =>
    simp only [List.length_append]
    omega

/-- Nothing is unwrapped exactly where no opening marker has a closing one behind it. -/
theorem unwrap_eq_self_iff : unwrap n s = s ↔ ∀ x, ¬ Opened n s x := by
  constructor
  · intro same x opened
    cases found : find? n s with
    | none => exact first?_eq_none_iff.1 found n x (beq_self_eq_true n) opened
    | some m =>
      obtain ⟨-, stands, -⟩ := first?_eq_some_iff.1 found
      have shorter := (erased_unwrap n m.after).length_le
      have opener := List.length_pos_iff.2 stands.opens.2.ne_nil
      have replaced : unwrap n s = m.before ++ m.value.inner ++ unwrap n m.after :=
        Pattern.replace_of_some found
      have lengths := congrArg List.length (replaced.symm.trans (same.trans stands.whole))
      simp only [outer, List.length_append] at lengths
      omega
  · intro closed
    have missing : find? n s = none := first?_eq_none_iff.2 fun m x named => by
      obtain rfl : m = n := by simpa using named
      exact closed x
    exact Pattern.replace_of_none missing

/-- Where the markers take turns, all of them go and nothing else. -/
theorem Listed.unwrap {n s rest : Text} {hits : List (Text × Mark)} (h : Listed n s hits rest)
    (alternating : Alternating (hits.map fun hit => hit.2.kind)) :
    unwrap n s = Pattern.assemble (fun _ => []) hits ++ rest := by
  match hits, h with
  | [], h =>
    rw [h.whole]
    refine unwrap_eq_self_iff.2 fun x opened => ?_
    obtain ⟨w, y, marker, e, -⟩ := opened
    obtain ⟨_, _, _, none, -⟩ := h.complete ⟨.opening, w⟩ x y marker (h.whole.trans e)
    simp at none
  | [_], h => simpa using alternating.cases
  | (gap, ⟨k, w⟩) :: (gap', ⟨l, v⟩) :: hits, h =>
    rcases alternating.cases with none | ⟨ls, kinds, later⟩
    · cases none
    · obtain ⟨opens, behind⟩ := List.cons.inj kinds
      obtain ⟨closes, others⟩ := List.cons.inj behind
      obtain rfl : k = .opening := opens
      obtain rfl : l = .closing := closes
      rw [← others] at later
      have replaced : Region.unwrap n s
          = gap ++ gap' ++ Region.unwrap n (Pattern.assemble Mark.written hits ++ rest) :=
        Pattern.replace_of_some h.find?
      rw [replaced, h.tail.tail.unwrap later, assemble_cons, assemble_cons]
      simp only [List.append_nil, List.append_assoc]

/-- **Unwrapping removes the markers of one name and nothing else.**  If the name can be that of an
opening marker, every text is what it is with all markers of the name listed.  Where they take turns,
from an opening one to a closing one, what is left is all that stands between them, in order.  A text
stays as it is exactly if no opening marker of the name has a closing one of that name behind it. -/
theorem unwrap_removes_markers (n s : Text) :
    (Spaceless n → ∃ hits rest, Listed n s hits rest) ∧
      (∀ hits rest, Listed n s hits rest → Alternating (hits.map fun hit => hit.2.kind) →
        unwrap n s = Pattern.assemble (fun _ => []) hits ++ rest) ∧
      (unwrap n s = s ↔ ∀ x, ¬ Opened n s x) :=
  ⟨fun spaceless => ⟨_, _, listed_split spaceless s⟩, fun _ _ listed => listed.unwrap,
    unwrap_eq_self_iff⟩

/-- Two regions of one name, the first with a marker of another name inside whose region goes on behind
it, and white space of several kinds in the markers. -/
theorem unwrap_removes_markers_across :
    let n := ['x']
    let hits : List (Text × Mark) :=
      [(['<'], ⟨.opening, "[!--\tBEGIN x\n--]".toList⟩),
        ("a[!-- BEGIN y --]".toList, ⟨.closing, "[!-- END x --]".toList⟩),
        ("b[!-- END y --]".toList, ⟨.opening, beginMarker n⟩), ([], ⟨.closing, endMarker n⟩)]
    let s := Pattern.assemble Mark.written hits ++ ['>']
    Spaceless n ∧ Listed n s hits ['>'] ∧ Alternating (hits.map fun hit => hit.2.kind) ∧
      unwrap n s = "<a[!-- BEGIN y --]b[!-- END y --]>".toList := by
  intro n hits s
  have spaceless : Spaceless n := by simp [Spaceless, n, isMarkerSpace]
  have cut : (marks n).split s = (hits, ['>']) := by decide +kernel
  have listed : Listed n s hits ['>'] := by simpa only [cut] using listed_split spaceless s
  have alternating : Alternating (hits.map fun hit => hit.2.kind) :=
    ⟨by decide, by decide, by decide⟩
  exact ⟨spaceless, listed, alternating, (unwrap_removes_markers n s).2.1 _ _ listed alternating⟩

end DocumentMerge.Region
