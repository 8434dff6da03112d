import DocumentMerge.Proofs.Region.Reading
import DocumentMerge.Proofs.Text.Positions

/-!
# Which regions are found

Regions are found by a search that passes some markers over: those in a region that was found before,
those of names that are not wanted and those that are never closed.  Here it is said without the search
which regions are found and where they stand.

* `StandsIn r s before after`: the region `r` stands in a text, closed by the nearest closing marker
  of its name, and `Located.StandsIn` says the same with the byte positions of its ends.
* `Opened n s x`: in a text, an opening marker of the name `n` stands behind `x` and some closing
  marker of that name stands anywhere behind the opening one.
* `at?_eq_some_iff`, `first?_eq_some_iff`, `first?_eq_none_iff`: what is found at one place, and the
  leftmost region of a text.
* `StandsIn.within`: an opening marker that begins in a region lies in it.
* `closed_markers_found`: the regions of a text, in order and with their positions, and all opening
  markers outside of them are never closed.
-/

namespace DocumentMerge.Region

/-- A region stands in a text between what is before it and what is after it.  Its markers have its
name, and no closing marker of that name begins between them. -/
structure StandsIn (r : Region) (s before after : Text) : Prop where
  whole : s = before ++ (r.outer ++ after)
  opens : IsOpening r.name r.opening
  closes : IsClosing r.name r.closing
  nearest : ∀ x w y, IsClosing r.name w → r.inner ++ (r.closing ++ after) = x ++ (w ++ y) →
    r.inner.length ≤ x.length

/-- A region stands in a text where its positions say, which are positions between characters. -/
structure Located.StandsIn (l : Located) (s before after : Text) : Prop where
  region : l.region.StandsIn s before after
  start : Text.splitAtByte? l.start s = some (before, l.region.outer ++ after)
  stop : Text.splitAtByte? l.stop s = some (before ++ l.region.outer, after)

/-- A closing marker of a name stands somewhere in a text. -/
def Closed (n s : Text) : Prop :=
  ∃ w, IsClosing n w ∧ w <:+: s

/-- Behind `x` an opening marker of a name stands in a text, and anywhere behind it a closing one of
that name. -/
def Opened (n s x : Text) : Prop :=
  ∃ w y, IsOpening n w ∧ s = x ++ (w ++ y) ∧ Closed n y

variable {accept : Text → Bool} {n s t x y w before after rest : Text} {r : Region}

theorem outer_append (r : Region) (rest : Text) :
    r.outer ++ rest = r.opening ++ (r.inner ++ (r.closing ++ rest)) := by
  simp only [outer, List.append_assoc]

/-! ## What is found at a place -/

theorem StandsIn.here (h : r.StandsIn s before after) : r.StandsIn (r.outer ++ after) [] after :=
  ⟨rfl, h.opens, h.closes, h.nearest⟩

theorem StandsIn.behind (h : r.StandsIn t [] after) (before : Text) :
    r.StandsIn (before ++ t) before after :=
  ⟨by rw [h.whole, List.nil_append], h.opens, h.closes, h.nearest⟩

theorem StandsIn.opened (h : r.StandsIn s before after) : Opened r.name s before :=
  ⟨r.opening, r.inner ++ (r.closing ++ after), h.opens, by rw [h.whole, outer_append],
    r.closing, h.closes, r.inner, after, by rw [List.append_assoc]⟩

/-- Where a region stands is a matter of its own text: it stands between any other texts as well, since
closing markers of one name are equally long and none that begins inside the region ends behind it. -/
theorem StandsIn.between (h : r.StandsIn s before after) (before' after' : Text) :
    r.StandsIn (before' ++ (r.outer ++ after')) before' after' := by
  refine ⟨rfl, h.opens, h.closes, fun x w y marker e => ?_⟩
  by_contra short
  have lengths := (IsWritten.length_eq h.closes).trans (IsWritten.length_eq marker).symm
  have longer : r.inner ++ r.closing <+: x ++ w ++ y :=
    ⟨after', by rw [List.append_assoc, e, List.append_assoc]⟩
  have inside : x ++ w <+: r.inner ++ r.closing := by
    refine List.prefix_of_prefix_length_le (List.prefix_append _ y) longer ?_
    simp only [List.length_append]
    omega
  obtain ⟨z, cut⟩ := inside
  refine short (h.nearest x w (z ++ after) marker ?_)
  rw [← List.append_assoc r.inner, ← cut]
  simp only [List.append_assoc]

/-- What stands inside of a region stands in the text that the region stands in. -/
theorem StandsIn.nested {q : Region} {b a : Text} (h : q.StandsIn s before after)
    (inside : r.StandsIn q.inner b a) :
    r.StandsIn s (before ++ q.opening ++ b) (a ++ q.closing ++ after) := by
  have around := inside.between (before ++ q.opening ++ b) (a ++ q.closing ++ after)
  rw [h.whole, outer_append, inside.whole]
  simpa only [List.append_assoc] using around

/-- Closing markers of a name are searched for, and the nearest one is found. -/
theorem first?_closingPattern_iff {m : Match Text} : (closingPattern n).first? s = some m ↔
    s = m.before ++ (m.value ++ m.after) ∧ IsClosing n m.value ∧
      ∀ x w y, IsClosing n w → s = x ++ (w ++ y) → m.before.length ≤ x.length := by
  rw [Pattern.first?_eq_some_iff_le]
  constructor
  · rintro ⟨found, cut, matched, leftmost⟩
    obtain ⟨closes, rfl⟩ := closing?_eq_some_iff.1 matched
    refine ⟨cut, closes, fun x w y marker whole => leftmost x (w ++ y) whole ?_⟩
    have read : closing? n (w ++ y) = some (w, y) := closing?_eq_some_iff.2 ⟨marker, rfl⟩
    exact Option.ne_none_iff_exists'.2 ⟨_, read⟩
  · rintro ⟨cut, closes, nearest⟩
    refine ⟨_, cut, closing?_eq_some_iff.2 ⟨closes, rfl⟩, fun x t whole here => ?_⟩
    obtain ⟨⟨w, y⟩, read⟩ := Option.ne_none_iff_exists'.1 here
    obtain ⟨marker, rfl⟩ := closing?_eq_some_iff.1 read
    exact nearest x w y marker whole

/-- No closing marker of a name is found where none stands. -/
theorem first?_closingPattern_eq_none : (closingPattern n).first? s = none ↔ ¬ Closed n s := by
  rw [Pattern.first?_eq_none_iff]
  constructor
  · rintro missing ⟨w, marker, x, y, cut⟩
    have read : closing? n (w ++ y) = some (w, y) := closing?_eq_some_iff.2 ⟨marker, rfl⟩
    have none : closing? n (w ++ y) = none := missing _ ⟨x, by rw [← cut, List.append_assoc]⟩
    rw [read] at none
    cases none
  · rintro open_ b ⟨x, rfl⟩
    refine Option.eq_none_iff_forall_ne_some.2 fun ⟨w, y⟩ read => open_ ?_
    obtain ⟨marker, rfl⟩ := closing?_eq_some_iff.1 read
    exact ⟨w, marker, x, y, by rw [List.append_assoc]⟩

/-- The region that is found at a place is the one that stands there, if its name is accepted. -/
theorem at?_eq_some_iff :
    at? accept s = some (r, rest) ↔ accept r.name = true ∧ r.StandsIn s [] rest := by
  constructor
  · intro h
    unfold at? at h
    split at h
    · next o behind opened =>
      split at h
      · next accepted =>
        rw [Option.map_eq_some_iff] at h
        obtain ⟨m, found, e⟩ := h
        cases e
        obtain ⟨opens, rfl⟩ := opening?_eq_some_iff.1 opened
        obtain ⟨cut, closes, nearest⟩ := first?_closingPattern_iff.1 found
        refine ⟨accepted, by rw [outer_append, cut, List.nil_append], opens, closes, ?_⟩
        exact fun x w y marker whole => nearest x w y marker (cut.trans whole)
      · cases h
    · cases h
  · rintro ⟨accepted, stands⟩
    have opened : opening? s
        = some (⟨r.name, r.opening⟩, r.inner ++ (r.closing ++ rest)) :=
      opening?_eq_some_iff.2 ⟨stands.opens, by rw [stands.whole, outer_append, List.nil_append]⟩
    have found : (closingPattern r.name).first? (r.inner ++ (r.closing ++ rest))
        = some ⟨r.inner, r.closing, rest⟩ :=
      first?_closingPattern_iff.2 ⟨rfl, stands.closes, stands.nearest⟩
    rw [at?, opened]
    simp only [accepted, if_true, found, Option.map_some]

/-- A region is found at a place exactly if a marker opens there that is accepted and closed. -/
theorem at?_ne_none_iff : at? accept s ≠ none ↔ ∃ n, accept n = true ∧ Opened n s [] := by
  constructor
  · intro h
    obtain ⟨⟨r, rest⟩, found⟩ := Option.ne_none_iff_exists'.1 h
    obtain ⟨accepted, stands⟩ := at?_eq_some_iff.1 found
    exact ⟨r.name, accepted, stands.opened⟩
  · rintro ⟨n, accepted, w, y, opens, rfl, closed⟩
    have opened : opening? (w ++ y) = some (⟨n, w⟩, y) := opening?_eq_some_iff.2 ⟨opens, rfl⟩
    have found : (closingPattern n).first? y ≠ none := fun none =>
      first?_closingPattern_eq_none.1 none closed
    rw [List.nil_append, at?, opened]
    simpa only [accepted, if_true, ne_eq, Option.map_eq_none_iff] using found

/-- What is opened behind a text is opened in the whole. -/
theorem opened_append_iff : Opened n (x ++ t) x ↔ Opened n t [] := by
  constructor
  · rintro ⟨w, y, opens, cut, closed⟩
    exact ⟨w, y, opens, List.append_cancel_left cut, closed⟩
  · rintro ⟨w, y, opens, cut, closed⟩
    exact ⟨w, y, opens, by rw [cut, List.nil_append], closed⟩

/-! ## The leftmost region -/

/-- The region that is found stands behind the leftmost accepted marker that is closed. -/
theorem first?_eq_some_iff {m : Match Region} : first? accept s = some m ↔
    accept m.value.name = true ∧ m.value.StandsIn s m.before m.after ∧
      ∀ n x, accept n = true → Opened n s x → m.before.length ≤ x.length := by
  rw [first?, Pattern.first?_eq_some_iff_le]
  constructor
  · rintro ⟨found, rfl, matched, leftmost⟩
    obtain ⟨accepted, stands⟩ := at?_eq_some_iff.1 matched
    refine ⟨accepted, stands.behind m.before, fun n x wanted opened => ?_⟩
    obtain ⟨w, y, opens, cut, closed⟩ := opened
    exact leftmost x (w ++ y) cut (at?_ne_none_iff.2 ⟨n, wanted, w, y, opens, rfl, closed⟩)
  · rintro ⟨accepted, stands, leftmost⟩
    refine ⟨_, stands.whole, at?_eq_some_iff.2 ⟨accepted, stands.here⟩, fun x t cut here => ?_⟩
    obtain ⟨n, wanted, opened⟩ := at?_ne_none_iff.1 here
    exact leftmost n x wanted (cut ▸ opened_append_iff.2 opened)

/-- No region is found exactly if no accepted marker is closed. -/
theorem first?_eq_none_iff :
    first? accept s = none ↔ ∀ n x, accept n = true → ¬ Opened n s x := by
  rw [first?, Pattern.first?_eq_none_iff]
  constructor
  · rintro missing n x accepted opened
    obtain ⟨w, y, opens, cut, closed⟩ := opened
    have here : at? accept (w ++ y) = none := missing _ ⟨x, cut.symm⟩
    exact at?_ne_none_iff.2 ⟨n, accepted, w, y, opens, rfl, closed⟩ here
  · rintro closed b ⟨x, rfl⟩
    by_contra here
    obtain ⟨n, accepted, opened⟩ := at?_ne_none_iff.1 here
    exact closed n x accepted (opened_append_iff.2 opened)

/-! ## Markers in a region -/

/-- An opening marker that begins in a region lies in it: it can neither begin inside of the closing
marker nor reach into it. -/
theorem StandsIn.within (h : r.StandsIn s before after) (marker : IsOpening n w)
    (e : r.outer ++ after = t ++ (w ++ y)) (begins : ¬ r.outer <+: t) : t ++ w <+: r.outer := by
  have bracketless : '[' ∉ beginWord ∧ '[' ∉ endWord := by decide
  have dashless : '-' ∉ beginWord ∧ '-' ∉ endWord := by decide
  obtain ⟨u, cut, e⟩ : ∃ u, r.outer = t ++ u ∧ u ++ after = w ++ y := by
    rcases List.append_eq_append_iff.1 e with ⟨d, before, -⟩ | ⟨d, before, behind⟩
    · exact absurd ⟨d, before.symm⟩ begins
    · exact ⟨d, before, behind.symm⟩
  have nonempty : u ≠ [] := by
    rintro rfl
    exact begins ⟨[], by rw [cut]; simp⟩
  have apart (x y : Text) : r.closing ++ x ≠ w ++ y := fun e => marker.not_closing h.closes e.symm
  have parts : r.opening ++ r.inner ++ r.closing = t ++ u := cut
  rw [cut, List.prefix_append_right_inj]
  rcases List.append_eq_append_iff.1 parts with ⟨d, -, closing⟩ | ⟨d, -, rfl⟩
  · -- it begins in the closing marker
    have same : u = r.closing :=
      IsWritten.eq_of_suffix h.closes bracketless.2 h.opens.1 marker.2 (by decide) dashless.1
        ⟨d, closing.symm⟩ nonempty e
    exact absurd e (same ▸ apart after y)
  · rcases List.append_eq_append_iff.1 e with ⟨v, longer, -⟩ | ⟨v, inside, -⟩
    · -- it reaches over the closing marker, which then begins in it
      have same : r.closing ++ v = w :=
        IsWritten.eq_of_suffix (x := []) marker.2 bracketless.1 marker.1 h.closes (by decide)
          dashless.2 ⟨d, by rw [longer, List.append_assoc]⟩ (by simp [h.closes.ne_nil])
          (by rw [List.append_nil])
      exact absurd (show r.closing ++ v = w ++ [] by rw [same, List.append_nil]) (apart v [])
    · exact ⟨v, inside.symm⟩

/-! ## All regions with their positions -/

theorem Located.standsIn_iff {l : Located} : l.StandsIn s before after ↔
    l.region.StandsIn s before after ∧ l.start = before.byteSize ∧
      l.stop = before.byteSize + l.region.outer.byteSize := by
  constructor
  · rintro ⟨region, start, stop⟩
    refine ⟨region, (Text.splitAtByte?_eq_some_iff.1 start).2, ?_⟩
    rw [(Text.splitAtByte?_eq_some_iff.1 stop).2, Text.byteSize_append]
  · rintro ⟨region, start, stop⟩
    refine ⟨region, Text.splitAtByte?_eq_some_iff.2 ⟨region.whole, start⟩,
      Text.splitAtByte?_eq_some_iff.2 ⟨?_, ?_⟩⟩
    · rw [region.whole, List.append_assoc]
    · rw [stop, Text.byteSize_append]

theorem StandsIn.outer_ne_nil (h : r.StandsIn s before after) : r.outer ≠ [] := by
  simp [outer, h.closes.ne_nil]

theorem le_start_of_mem_locate {position : Nat} {hits : List (Text × Region)} {l : Located}
    (h : l ∈ locate position hits) : position ≤ l.start := by
  induction hits generalizing position with
  | nil => cases h
  | cons hit hits ih =>
    rcases List.mem_cons.1 h with rfl | h
    · exact Nat.le_add_right _ _
    · have := ih h
      omega

/-- Positions ascend, and each region begins where the one before has ended or behind it. -/
theorem pairwise_locate (position : Nat) (hits : List (Text × Region)) :
    (locate position hits).Pairwise fun l m => l.stop ≤ m.start := by
  induction hits generalizing position with
  | nil => exact List.Pairwise.nil
  | cons hit hits ih =>
    exact List.pairwise_cons.2 ⟨fun m mem => le_start_of_mem_locate mem, ih _⟩

/-- The regions of a text as the search gives them, positions counted from those of the text in front
of it. -/
def allFrom (front s : Text) : List Located :=
  locate front.byteSize ((pattern fun _ => true).split s).1

theorem allFrom_of_none {front : Text} (h : first? (fun _ => true) s = none) :
    allFrom front s = [] := by
  rw [allFrom, Pattern.split_of_none h]
  rfl

theorem allFrom_of_some {front : Text} {m : Match Region}
    (h : first? (fun _ => true) s = some m) :
    allFrom front s =
      ⟨m.value, (front ++ m.before).byteSize, (front ++ m.before ++ m.value.outer).byteSize⟩
        :: allFrom (front ++ m.before ++ m.value.outer) m.after := by
  rw [allFrom, Pattern.split_of_some h, locate]
  simp only [allFrom, Text.byteSize_append]

/-- Every region of the list stands in the text where its positions say. -/
theorem standsIn_of_mem_allFrom (front : Text) {l : Located} (h : l ∈ allFrom front s) :
    ∃ before after, l.StandsIn (front ++ s) before after := by
  induction s using (pattern fun _ => true).search_induct generalizing front with
  | stop s missing =>
    rw [allFrom_of_none missing] at h
    cases h
  | step s m found ih =>
    obtain ⟨-, stands, -⟩ := first?_eq_some_iff.1 found
    rw [allFrom_of_some found] at h
    rcases List.mem_cons.1 h with rfl | h
    · refine ⟨front ++ m.before, m.after, Located.standsIn_iff.2 ⟨?_, rfl, Text.byteSize_append ..⟩⟩
      rw [stands.whole, ← List.append_assoc]
      exact stands.here.behind _
    · obtain ⟨before, after, later⟩ := ih _ h
      refine ⟨before, after, ?_⟩
      rw [stands.whole]
      simpa only [List.append_assoc] using later

theorem standsIn_of_mem_all {l : Located} (h : l ∈ all s) :
    ∃ before after, l.StandsIn s before after :=
  standsIn_of_mem_allFrom [] h

/-- Every opening marker that is closed lies in one of the regions: the first region begins where it
does or before it, and if it has ended by then the marker is met again behind it. -/
theorem exists_mem_allFrom (front : Text) (marker : IsOpening n w) (cut : s = x ++ (w ++ y))
    (closed : Closed n y) :
    ∃ l ∈ allFrom front s, l.start ≤ (front ++ x).byteSize ∧
      (front ++ x ++ w).byteSize ≤ l.stop := by
  induction s using (pattern fun _ => true).search_induct generalizing front x with
  | stop s missing =>
    exact absurd ⟨w, y, marker, cut, closed⟩ (first?_eq_none_iff.1 missing n x rfl)
  | step s m found ih =>
    obtain ⟨-, stands, leftmost⟩ := first?_eq_some_iff.1 found
    rw [allFrom_of_some found]
    have le : m.before.length ≤ x.length := leftmost n x rfl ⟨w, y, marker, cut, closed⟩
    have whole : m.before ++ (m.value.outer ++ m.after) = x ++ (w ++ y) := stands.whole.symm.trans cut
    obtain ⟨t, rfl⟩ : m.before <+: x :=
      List.prefix_of_prefix_length_le ⟨_, whole⟩ (List.prefix_append x _) le
    rw [List.append_assoc, List.append_cancel_left_eq] at whole
    by_cases begins : m.value.outer <+: t
    · -- the marker is behind the first region, where the search goes on
      obtain ⟨t, rfl⟩ := begins
      rw [List.append_assoc, List.append_cancel_left_eq] at whole
      obtain ⟨l, mem, start, stop⟩ := ih (front ++ m.before ++ m.value.outer) whole
      refine ⟨l, List.mem_cons_of_mem _ mem, ?_, ?_⟩
      · simpa only [List.append_assoc] using start
      · simpa only [List.append_assoc] using stop
    · obtain ⟨u, inside⟩ := stands.within marker whole begins
      refine ⟨_, List.mem_cons_self, ?_, ?_⟩
      · simp only [Text.byteSize_append]
        omega
      · simp only [← inside, Text.byteSize_append]
        omega

/-- **Every marker that is closed is found.**  The regions of a text stand in it one after the other,
each from an opening marker to the nearest closing marker of its name, and an opening marker that lies
in none of them has no closing marker of its name behind it.  The first region with an accepted name is
the one of the leftmost accepted marker that has a closing marker behind it; there is none exactly if
there is no such marker. -/
theorem closed_markers_found (s : Text) :
    ((all s).Pairwise fun l m => l.stop ≤ m.start) ∧
    (∀ l ∈ all s, l.start < l.stop ∧ ∃ before after, l.StandsIn s before after) ∧
    (∀ n x w y, IsOpening n w → s = x ++ (w ++ y) →
      (∃ l ∈ all s, l.start ≤ x.byteSize ∧ (x ++ w).byteSize ≤ l.stop) ∨ ¬ Closed n y) ∧
    ∀ accept : Text → Bool,
      (∀ l, (first? accept s).map locateMatch = some l ↔
        accept l.region.name = true ∧ ∃ before after, l.StandsIn s before after ∧
          ∀ n x, accept n = true → Opened n s x → before.length ≤ x.length) ∧
      (first? accept s = none ↔ ∀ n x, accept n = true → ¬ Opened n s x) := by
  refine ⟨pairwise_locate 0 _, fun l mem => ?_, fun n x w y marker cut => ?_, fun accept =>
    ⟨fun l => ?_, first?_eq_none_iff⟩⟩
  · obtain ⟨before, after, stands⟩ := standsIn_of_mem_all mem
    obtain ⟨region, start, stop⟩ := Located.standsIn_iff.1 stands
    have := Text.byteSize_pos region.outer_ne_nil
    exact ⟨by omega, before, after, stands⟩
  · by_cases closed : Closed n y
    · exact .inl (exists_mem_allFrom [] marker cut closed)
    · exact .inr closed
  · rw [Option.map_eq_some_iff]
    constructor
    · rintro ⟨m, found, rfl⟩
      obtain ⟨accepted, stands, leftmost⟩ := first?_eq_some_iff.1 found
      exact ⟨accepted, m.before, m.after, Located.standsIn_iff.2 ⟨stands, rfl, rfl⟩, leftmost⟩
    · rintro ⟨accepted, before, after, stands, leftmost⟩
      obtain ⟨region, start, stop⟩ := Located.standsIn_iff.1 stands
      refine ⟨⟨before, l.region, after⟩, first?_eq_some_iff.2 ⟨accepted, region, leftmost⟩, ?_⟩
      obtain ⟨r, i, j⟩ := l
      simp only at start stop
      rw [locateMatch, start, stop]

/-- A marker that is never closed hides nothing behind it. -/
example : (all "é[!-- BEGIN a --][!-- BEGIN b --]x[!-- END b --]".toList).map
    (fun l => (l.region.name, l.start, l.stop)) = [("b".toList, 18, 49)] := by
  decide +kernel

end DocumentMerge.Region
