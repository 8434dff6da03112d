import DocumentMerge.Proofs.Segment.Pending
import DocumentMerge.Proofs.Segment.Pictures
import Mathlib.Data.List.Infix

/-!
# Pieces of text on their way up a tree

A value comes into a row when its segment is merged, and from there into the rows of the segments
above, each time their merges take what waits below.  A merge searches the whole row for the texts of
the children that are still to come and, in the end, for its own markers.  It does so in the values as
well, so a piece of text stays only if nothing that is searched for overlaps it.

* `Enters s v after a b`: the piece comes into the row of `s`, as the value of a tag or in what a child
  gives, and then stands between `a` and `b` while the children `after` are still to come.
* `Carries s v`: it enters, and nothing that comes later overlaps it.  `Carries.infix_row`: then it is
  in the row.
* `outputAt`: what waits at a node.  `prefix_outputAt_onPath`: a call takes nothing from what waits at
  a node, unless it is a merge of a node above.  `outputAt_of_merge`: a merge adds the row.
-/

namespace DocumentMerge.Segment

/-! ## Into the row -/

/-- A piece of text comes into the row of a segment: it is the value of a tag of the segment, which is
put into the fragment before any child is, or it stands in what a child gives, whose fragment is found
in the row. -/
inductive Enters (s : Segment) (v : Text) : List Segment → Text → Text → Prop
  | value {tag a b : Text} : s.own.values.bindings.get? tag = some v →
    s.own.values.bindings.apply s.own.source = a ++ v ++ b → Enters s v s.children a b
  | child {before after : List Segment} {c : Segment} {l r a b : Text} :
    s.children = before ++ c :: after → Text.cutAt? c.own.source (turn s before) = some (l, r) →
    c.settled.own.output = a ++ v ++ b →
    Enters s v after (l ++ a) (b ++ Text.replaceAll c.own.source c.settled.own.output r)

/-- A piece of text comes into the row, and nothing that is replaced afterwards overlaps it there. -/
def Carries (s : Segment) (v : Text) : Prop :=
  ∃ after a b, Enters s v after a b ∧ Stays s.own.name after a v b

/-- A piece that enters is in the row before the children that are still to come are put there. -/
theorem Enters.row_eq {s : Segment} {v a b : Text} {after : List Segment} (h : Enters s v after a b)
    (sound : Sound s) : (∀ d ∈ after, d ∈ s.children) ∧
      row s = Region.unwrap s.own.name (rest after (a ++ v ++ b)) := by
  cases h with
  | value _ filled =>
    refine ⟨fun d mem => mem, ?_⟩
    have split : s.children = [] ++ s.children := rfl
    rw [row_eq_of_append split, ← filled]
    rfl
  | @child before _ c l r a b split found given =>
    have mem : c ∈ s.children := by rw [split]; simp
    refine ⟨fun d mem => by rw [split]; simp [mem], ?_⟩
    rw [row_eq_of_child split, Text.replaceAll_of_cutAt? (sound.source_ne_nil mem) found, given]
    simp only [List.append_assoc]

/-- A piece that a segment carries is in its row. -/
theorem Carries.infix_row {s : Segment} {v : Text} (h : Carries s v) (sound : Sound s) :
    v <:+: row s := by
  obtain ⟨after, a, b, enters, stays⟩ := h
  obtain ⟨sub, row⟩ := enters.row_eq sound
  rw [row]
  exact stays.infix_unwrap fun d mem => sound.source_ne_nil (sub d mem)

/-! ## What waits at a node -/

/-- Every node of a sound tree is sound. -/
theorem Sound.at? {path : List Text} {s n : Segment} (h : Sound s)
    (found : Segment.at? path s = some n) : Sound n :=
  of_at? (fun _ h _ mem => h.child mem) h found

/-- The rows that wait at the node to which a path leads. -/
def outputAt (path : List Text) (s : Segment) : Text :=
  ((at? path s).map fun n => n.own.output).getD []

theorem outputAt_cons (name : Text) (names : List Text) (s : Segment) :
    outputAt (name :: names) s = ((s.child? name).map (outputAt names)).getD [] := by
  rw [outputAt, at?]
  cases s.child? name with
  | none => rfl
  | some c => rfl

/-- The rows below a node are found through its children only. -/
theorem outputAt_cons_congr {s t : Segment} (same : t.children = s.children) (name : Text)
    (names : List Text) : outputAt (name :: names) t = outputAt (name :: names) s := by
  rw [outputAt_cons, outputAt_cons, child?, child?, same]

/-- A call on a node leaves there what waits.  If it is no merge, it also leaves what waits below. -/
theorem prefix_outputAt_call {a : Action} {place : List Text} (spares : a = .merge → place = [])
    (s : Segment) (σ : Session) : outputAt place s <+: outputAt place (a.call s σ).2.1 := by
  obtain ⟨own, children⟩ := s
  rcases done : a.call (.node own children) σ with ⟨r, t, τ⟩
  by_cases merges : a = .merge
  · obtain rfl := spares merges
    subst merges
    rcases merge_cases done with ⟨cause, -, -, rfl⟩ | ⟨σ', -, ⟨cause, row, ds, -, -, rfl⟩ | whole⟩
    · exact List.prefix_refl _
    · exact List.prefix_refl _
    · obtain ⟨row, ds, -, -, rfl⟩ := whole
      exact ⟨_, rfl⟩
  · obtain ⟨-, ⟨key, v, values, -, -, -, -, rfl⟩ | ⟨cause, -, rfl, -⟩⟩ :=
      Action.call_cases merges done
    · cases place with
      | nil => exact List.prefix_refl _
      | cons name names =>
        have same : outputAt (name :: names) (.node { own with values } children)
            = outputAt (name :: names) (.node own children) := outputAt_cons_congr rfl name names
        rw [same]
    · exact List.prefix_refl _

/-- **What waits is not lost.**  A call of a user leaves what waits at a node, perhaps with one more
row behind it, unless the call is a merge of a node above. -/
theorem prefix_outputAt_onPath {a : Action} {path place : List Text}
    (spares : a = .merge → path <+: place → path = place) (s : Segment) (σ : Session) :
    outputAt place s <+: outputAt place (onPath a.call path s σ).2.1 := by
  induction path generalizing place s with
  | nil => exact prefix_outputAt_call (fun merges => (spares merges List.nil_prefix).symm) s σ
  | cons name names ih =>
    obtain ⟨own, children⟩ := s
    rcases done : onPath a.call (name :: names) (.node own children) σ with ⟨r, t, τ⟩
    rcases onChild_cases done with ⟨before, c, after, d, rfl, earlier, named, called, rfl⟩ |
      ⟨-, -, rfl, -⟩
    · cases place with
      | nil => exact List.prefix_refl _
      | cons first place =>
        have same : d.own.name = c.own.name :=
          name_eq_of_skeleton_eq (((tame_call a).onPath names).skeleton_eq called)
        rw [outputAt_cons, outputAt_cons]
        rcases child?_replaced same first with ⟨found, found'⟩ | other
        · rw [found, found']
          obtain rfl : c.own.name = first := by simpa [Segment.name] using List.find?_some found
          subst named
          have spares' : a = .merge → names <+: place → names = place := fun merges under =>
            (List.cons.inj (spares merges (List.cons_prefix_cons.2 ⟨rfl, under⟩))).2
          have below := ih spares' c
          rw [called] at below
          exact below
        · rw [other]
    · exact List.prefix_refl _

/-- A merge adds the row to what waits at its node. -/
theorem outputAt_of_merge {path : List Text} {s n t : Segment} {σ τ : Session}
    (found : at? path s = some n) (done : onPath merge path s σ = (.ok (), t, τ)) :
    outputAt path t = n.own.output ++ n.row := by
  obtain ⟨around, -, -, reads, -, calls⟩ := exists_around found
  have answer := calls merge σ
  rcases called : merge n σ with ⟨r, m, υ⟩
  rw [done, called] at answer
  cases answer
  obtain rfl := eq_merged_of_merge called
  rw [outputAt, (reads n.merged (name_merged n)).2]
  exact output_merged n

end DocumentMerge.Segment
