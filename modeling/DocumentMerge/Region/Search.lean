import DocumentMerge.Region.Marker

/-!
# Finding regions

An opening marker is closed by the nearest closing marker of its name.  One that has none is
ordinary text.  Regions are searched from left to right and outermost first: what lies inside a
region that was found is not searched, while a region whose name is not wanted is searched like
any other text.

* `Region.all` lists the outermost regions with their byte positions;
* `Region.first?` finds the leftmost region whose name is accepted;
* `Region.unwrap` replaces every region of one name by its inner text.
-/

namespace DocumentMerge

/-- A region of a text with its markers as written. -/
structure Region where
  name : Text
  opening : Text
  inner : Text
  closing : Text
  deriving DecidableEq, Repr

namespace Region

/-- The whole region, markers included. -/
def outer (r : Region) : Text :=
  r.opening ++ r.inner ++ r.closing

/-- The region at the beginning of a text, if its name is accepted. -/
def at? (accept : Text → Bool) (s : Text) : Option (Region × Text) :=
  match opening? s with
  | some (o, rest) =>
    if accept o.name then
      ((closingPattern o.name).first? rest).map fun m =>
        (⟨o.name, o.written, m.before, m.value⟩, m.after)
    else none
  | none => none

/-- A region that was read stands in front of the rest, and its opening marker is not empty. -/
theorem eq_append_of_at? {accept : Text → Bool} {s rest : Text} {r : Region}
    (h : at? accept s = some (r, rest)) : s = r.outer ++ rest ∧ r.opening ≠ [] := by
  unfold at? at h
  split at h
  · next o behind opened =>
    split at h
    · rw [Option.map_eq_some_iff] at h
      obtain ⟨m, found, e⟩ := h
      cases e
      obtain ⟨here, inner, closed⟩ := Pattern.eq_append_of_first? _ found
      rw [eq_append_of_opening? opened, inner, eq_append_of_closing? closed]
      exact ⟨by simp [outer], opening?_ne_nil opened⟩
    · cases h
  · cases h

theorem outer_ne_nil {r : Region} (h : r.opening ≠ []) : r.outer ≠ [] := by
  simp [outer, h]

/-- The regions whose names are accepted. -/
def pattern (accept : Text → Bool) : Pattern Region where
  match? := at? accept
  consumes h :=
    have ⟨cut, nonempty⟩ := eq_append_of_at? h
    ⟨_, outer_ne_nil nonempty, cut⟩

/-- The leftmost region whose name is accepted. -/
def first? (accept : Text → Bool) (s : Text) : Option (Match Region) :=
  (pattern accept).first? s

/-- The leftmost region of a name. -/
def find? (name : Text) (s : Text) : Option (Match Region) :=
  first? (fun n => n == name) s

/-- A region with the byte positions where it starts and ends. -/
structure Located where
  region : Region
  start : Nat
  stop : Nat
  deriving DecidableEq, Repr

/-- Gives regions their positions, the first gap beginning at `position`. -/
def locate (position : Nat) : List (Text × Region) → List Located
  | [] => []
  | (gap, region) :: hits =>
    let start := position + gap.byteSize
    let stop := start + region.outer.byteSize
    ⟨region, start, stop⟩ :: locate stop hits

/-- The outermost regions of any name, in order. -/
def all (s : Text) : List Located :=
  locate 0 ((pattern fun _ => true).split s).1

theorem exists_of_mem_locate {position : Nat} {hits : List (Text × Region)} {l : Located}
    (h : l ∈ locate position hits) : ∃ hit ∈ hits, hit.2 = l.region := by
  induction hits generalizing position with
  | nil => cases h
  | cons hit hits ih =>
    rcases List.mem_cons.1 h with rfl | h
    · exact ⟨hit, List.mem_cons_self, rfl⟩
    · obtain ⟨hit', mem, eq⟩ := ih h
      exact ⟨hit', List.mem_cons_of_mem _ mem, eq⟩

/-- The inner text of a region is shorter than the text that the region was found in. -/
theorem length_inner_lt {s : Text} {l : Located} (h : l ∈ all s) :
    l.region.inner.length < s.length := by
  obtain ⟨hit, mem, eq⟩ := exists_of_mem_locate h
  obtain ⟨before, found, rest, rfl, matched⟩ := Pattern.exists_of_mem_split _ mem
  have matched : at? (fun _ => true) found = some (hit.2, rest) := matched
  obtain ⟨rfl, nonempty⟩ := eq_append_of_at? matched
  have := List.length_pos_iff.2 nonempty
  simp only [← eq, outer, List.length_append]
  omega

/-- A match with its byte positions. -/
def locateMatch (m : Match Region) : Located :=
  let start := m.before.byteSize
  ⟨m.value, start, start + m.value.outer.byteSize⟩

/-- Replaces every region of a name by its inner text. -/
def unwrap (name : Text) (s : Text) : Text :=
  (pattern fun n => n == name).replace Region.inner s

end Region

end DocumentMerge
