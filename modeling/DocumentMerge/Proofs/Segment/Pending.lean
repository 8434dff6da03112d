import DocumentMerge.Proofs.Segment.Reachable

/-!
# What becomes of rows that wait in a child

A merge takes the rows that wait in a child by searching the row for the text of the child's
fragment.  By then the values of the parent have been put into that text and the children before
have been put into it too, so the search can fail, and nothing says so: the rows are gone.

The search is all that matters.  For a reachable segment `s` whose child `c` has rows waiting,
`turn s before` is the text in which `c` is searched.

* If the fragment of `c` does not occur there, the merge adds the same text whatever waits in `c`
  (`row_of_not_found`).
* If it does, every piece of text that nothing can be confused with is in the text that is added
  (`infix_row_of_foreign`), and so is any other one that no later child and no marker of the segment
  overlaps (`infix_row_of_stays`).

`pending_delivered_iff` puts this together, and `pending_lost` shows that a value of the parent is
enough for the search to fail.
-/

namespace DocumentMerge.Segment

open Text (Clear)

/-- A segment with other rows waiting in it. -/
def holding (text : Text) : Segment → Segment
  | .node own children => .node { own with output := text } children

@[simp] theorem output_holding (text : Text) (c : Segment) :
    (c.holding text).own.output = text := by
  cases c
  rfl

@[simp] theorem source_holding (text : Text) (c : Segment) :
    (c.holding text).own.source = c.own.source := by
  cases c
  rfl

@[simp] theorem state_holding (text : Text) (c : Segment) :
    (c.holding text).own.state = c.own.state := by
  cases c
  rfl

theorem holding_self (c : Segment) : c.holding c.own.output = c := by
  cases c
  rfl

@[simp] theorem source_settled (c : Segment) : c.settled.own.source = c.own.source :=
  source_eq_of_skeleton_eq (skeleton_settled c)

/-- The text in which a child is searched: the fragment with its values, in which the children
before have been replaced. -/
def turn (s : Segment) (before : List Segment) : Text :=
  (takeAll s.own.firstRow (before.map settled)).text

/-- The children that are still to come are put into a text. -/
def rest (after : List Segment) (text : Text) : Text :=
  (after.map settled).foldl (fun t d => Text.replaceAll d.own.source d.own.output t) text

theorem rest_cons (d : Segment) (after : List Segment) (text : Text) :
    rest (d :: after) text
      = rest after (Text.replaceAll d.own.source d.settled.own.output text) := by
  rw [rest, List.map_cons, List.foldl_cons, source_settled]
  rfl

/-- The row of a segment, seen from a place among its children. -/
theorem row_eq_of_append {s : Segment} {before after : List Segment}
    (split : s.children = before ++ after) :
    row s = Region.unwrap s.own.name (rest after (turn s before)) := by
  rw [row, split, List.map_append, takeAll_append, text_takeAll]
  rfl

/-- The row of a segment, seen from one of its children. -/
theorem row_eq_of_child {s c : Segment} {before after : List Segment}
    (split : s.children = before ++ c :: after) :
    row s = Region.unwrap s.own.name
      (rest after (Text.replaceAll c.own.source c.settled.own.output (turn s before))) := by
  rw [row_eq_of_append split, rest_cons]

/-! ## A piece that stays -/

/-- A piece stays between two texts: no child that is still to come has an occurrence of its
fragment that overlaps the piece, and in the end no marker of the name does. -/
def Stays (name : Text) : List Segment → Text → Text → Text → Prop
  | [], a, o, b => ∀ w, Region.IsMarker name w → Clear w a o b
  | d :: after, a, o, b =>
    Clear d.own.source a o b ∧
      Stays name after (Text.replaceAll d.own.source d.settled.own.output a) o
        (Text.replaceAll d.own.source d.settled.own.output b)

theorem Stays.infix_unwrap {name : Text} {after : List Segment} {a o b : Text}
    (sources : ∀ d ∈ after, d.own.source ≠ []) (h : Stays name after a o b) :
    o <:+: Region.unwrap name (rest after (a ++ o ++ b)) := by
  induction after generalizing a b with
  | nil => exact Region.infix_unwrap h
  | cons d after ih =>
    obtain ⟨clear, later⟩ := h
    rw [rest_cons, Text.replaceAll_of_clear (sources d List.mem_cons_self) clear]
    exact ih (fun e mem => sources e (List.mem_cons_of_mem _ mem)) later

/-- A text that nothing in a segment can be confused with: it has no brackets and is longer than the
fragments of the children and than the markers. -/
structure Foreign (s : Segment) (o : Text) : Prop where
  left : '[' ∉ o
  right : ']' ∉ o
  name : s.own.name.length + 15 < o.length
  sources : ∀ d ∈ s.children, d.own.source.length < o.length

theorem Foreign.stays {s : Segment} {o : Text} (h : Foreign s o) (sound : Sound s)
    {after : List Segment} (sub : ∀ d ∈ after, d ∈ s.children) (a b : Text) :
    Stays s.own.name after a o b := by
  induction after generalizing a b with
  | nil =>
    intro w marker
    have short : w.length < o.length := Nat.lt_of_le_of_lt marker.length_le h.name
    exact .of_framed marker.framed short h.left h.right a b
  | cons d after ih =>
    have mem := sub d List.mem_cons_self
    refine ⟨.of_framed (sound.framed mem) (h.sources d mem) h.left h.right a b, ?_⟩
    exact ih (fun e mem => sub e (List.mem_cons_of_mem _ mem)) _ _

/-- However long a text is asked to be, there is a foreign one. -/
theorem exists_foreign (s : Segment) (least : Nat) : ∃ o, Foreign s o ∧ least < o.length := by
  obtain ⟨bound, above⟩ : ∃ bound, ∀ d ∈ s.children, d.own.source.length < bound := by
    induction s.children with
    | nil => exact ⟨0, fun d mem => absurd mem List.not_mem_nil⟩
    | cons c cs ih =>
      obtain ⟨bound, above⟩ := ih
      refine ⟨max bound (c.own.source.length + 1), fun d mem => ?_⟩
      rcases List.mem_cons.1 mem with rfl | mem
      · omega
      · have := above d mem
        omega
  refine ⟨List.replicate (s.own.name.length + 16 + bound + least) 'a', ⟨?_, ?_, ?_, ?_⟩, ?_⟩
  · exact fun mem => absurd (List.eq_of_mem_replicate mem) (by decide)
  · exact fun mem => absurd (List.eq_of_mem_replicate mem) (by decide)
  · rw [List.length_replicate]
    omega
  · intro d mem
    have := above d mem
    rw [List.length_replicate]
    omega
  · rw [List.length_replicate]
    omega

/-! ## The two cases -/

section Cases

variable {s c : Segment} {before after : List Segment}

/-- The segment with other rows waiting in one of its children. -/
def withChild (s : Segment) (before : List Segment) (c : Segment) (after : List Segment) :
    Segment :=
  .node s.own (before ++ c :: after)

theorem withChild_self (split : s.children = before ++ c :: after) :
    s.withChild before c after = s := by
  obtain ⟨own, children⟩ := s
  rw [withChild, ← split]
  rfl

theorem row_withChild (waiting : c.own.state = .accumulating) (text : Text) :
    row (s.withChild before (c.holding text) after) = Region.unwrap s.own.name
      (rest after (Text.replaceAll c.own.source text (turn s before))) := by
  have waiting' : (c.holding text).own.state = .accumulating := by rw [state_holding, waiting]
  have split : (s.withChild before (c.holding text) after).children
      = before ++ c.holding text :: after := rfl
  rw [row_eq_of_child split, settled_of_accumulating waiting', source_holding, output_holding]
  rfl

/-- If the fragment of a child is not found, what waits in the child makes no difference. -/
theorem row_of_not_found (waiting : c.own.state = .accumulating)
    (lost : ¬ c.own.source <:+: turn s before) (text text' : Text) :
    row (s.withChild before (c.holding text) after)
      = row (s.withChild before (c.holding text') after) := by
  rw [row_withChild waiting, row_withChild waiting, Text.replaceAll_of_not_infix lost,
    Text.replaceAll_of_not_infix lost]

/-- If it is found, what waits in the child is in the row as long as nothing overlaps it there. -/
theorem infix_row_of_stays (sound : Sound s) (split : s.children = before ++ c :: after)
    (waiting : c.own.state = .accumulating) {a b : Text} {text : Text}
    (found : Text.cutAt? c.own.source (turn s before) = some (a, b))
    (stays : Stays s.own.name after a text (Text.replaceAll c.own.source text b)) :
    text <:+: row (s.withChild before (c.holding text) after) := by
  have mem : c ∈ s.children := by rw [split]; simp
  have sources : ∀ d ∈ after, d.own.source ≠ [] := by
    intro d mem
    exact sound.source_ne_nil (by rw [split]; simp [mem])
  rw [row_withChild waiting, Text.replaceAll_of_cutAt? (sound.source_ne_nil mem) found]
  exact stays.infix_unwrap sources

/-- A foreign text is in the row if the fragment is found. -/
theorem infix_row_of_foreign (sound : Sound s) (split : s.children = before ++ c :: after)
    (waiting : c.own.state = .accumulating) (found : c.own.source <:+: turn s before) {text : Text}
    (foreign : Foreign s text) :
    text <:+: row (s.withChild before (c.holding text) after) := by
  cases cut : Text.cutAt? c.own.source (turn s before) with
  | none => exact absurd found (Text.cutAt?_eq_none_iff.1 cut)
  | some parts =>
    obtain ⟨a, b⟩ := parts
    have sub : ∀ d ∈ after, d ∈ s.children := by
      intro d mem
      rw [split]
      simp [mem]
    exact infix_row_of_stays sound split waiting cut (foreign.stays sound sub a _)

end Cases

/-- **When a merge delivers the rows that wait in a child.**  Whatever foreign text waits in the
child, a merge of a reachable segment delivers it, exactly when the fragment of the child still
occurs in the row at the child's turn.  Otherwise the text that is added does not depend on what
waits.  And the rows that really wait are in the text that is added if nothing that comes later
overlaps them. -/
theorem pending_delivered_iff {s c t : Segment} {before after : List Segment} {σ τ : Session}
    (reach : Reachable s) (split : s.children = before ++ c :: after)
    (waiting : c.own.state = .accumulating) (done : merge s σ = (.ok (), t, τ)) :
    ∃ added, t.own.output = s.own.output ++ added ∧
      ((∀ text, Foreign s text → text <:+: row (s.withChild before (c.holding text) after)) ↔
        c.own.source <:+: turn s before) ∧
      (¬ c.own.source <:+: turn s before →
        ∀ text, row (s.withChild before (c.holding text) after) = added) ∧
      ∀ a b, Text.cutAt? c.own.source (turn s before) = some (a, b) →
        Stays s.own.name after a c.own.output (Text.replaceAll c.own.source c.own.output b) →
        c.own.output <:+: added := by
  have here : s.withChild before (c.holding c.own.output) after = s := by
    rw [holding_self, withChild_self split]
  refine ⟨row s, ?_, ⟨fun delivered => ?_, fun found text foreign => ?_⟩, fun lost text => ?_,
    fun a b found stays => ?_⟩
  · rw [eq_merged_of_merge done, output_merged]
  · by_contra lost
    -- a foreign text that is longer than the row cannot be in it
    obtain ⟨text, foreign, long⟩ := exists_foreign s (row s).length
    have inside := delivered text foreign
    rw [row_of_not_found waiting lost text c.own.output, here] at inside
    exact absurd inside.length_le (by omega)
  · exact infix_row_of_foreign reach.sound split waiting found foreign
  · rw [row_of_not_found waiting lost text c.own.output, here]
  · have := infix_row_of_stays reach.sound split waiting found stays
    rwa [here] at this

/-- A row waits in the only child, and nothing is bound on the segment: the row is delivered, and so
is any other text in its place. -/
theorem pending_delivered_iff_one_child :
    let source := "[!-- BEGIN s --]<[!-- BEGIN c --]\x7bx\x7d[!-- END c --]>[!-- END s --]".toList
    let s := used "s".toList source
      [(["c".toList], .bind "x".toList "1".toList true), (["c".toList], .merge)]
    ∃ c, s.children = [c] ∧ c.own.output = "1".toList ∧
      ∀ text, Foreign s text → text <:+: row (s.withChild [] (c.holding text) []) := by
  intro source s
  have reach : Reachable s := reachable_used (by decide +kernel) _
  obtain ⟨c, one⟩ := List.length_eq_one_iff.1 (show s.children.length = 1 by decide +kernel)
  have facts : s.children.map (fun c => (c.own.state, c.own.output, c.own.source))
      = [(.accumulating, "1".toList, "[!-- BEGIN c --]\x7bx\x7d[!-- END c --]".toList)] := by
    decide +kernel
  rw [one] at facts
  simp only [List.map_cons, List.map_nil, List.cons.injEq, Prod.mk.injEq, and_true] at facts
  obtain ⟨waiting, output, fragment⟩ := facts
  have split : s.children = [] ++ c :: [] := one
  have done : merge s (Session.alone Disk.empty) = (.ok (), s.merged, Session.alone Disk.empty) :=
    merge_of_no_working rfl s
  obtain ⟨added, -, delivered, -, -⟩ := pending_delivered_iff reach split waiting done
  refine ⟨c, one, output, delivered.2 ?_⟩
  rw [fragment]
  exact Text.occursIn_iff.1 (by decide +kernel)

/-- The segment has a value for a tag that also occurs in the fragment of its child.  The fragment
is not found any more, and the row that waits in the child is lost. -/
theorem pending_lost :
    let source := "[!-- BEGIN s --]<[!-- BEGIN c --]\x7bx\x7d[!-- END c --]>[!-- END s --]".toList
    let s := used "s".toList source
      [(["c".toList], .bind "x".toList "1".toList true), (["c".toList], .merge),
        ([], .bind "x".toList "2".toList true)]
    Reachable s ∧ s.own.output = [] ∧
      s.children.map (fun c => (c.own.state, c.own.output)) = [(.accumulating, "1".toList)] ∧
      (merge s (Session.alone Disk.empty)).1.toOption = some () ∧
      (merge s (Session.alone Disk.empty)).2.1.own.output
        = "<[!-- BEGIN c --]2[!-- END c --]>".toList ∧
      ¬ "1".toList <:+: "<[!-- BEGIN c --]2[!-- END c --]>".toList := by
  intro source s
  refine ⟨reachable_used (by decide +kernel) _, by decide +kernel, by decide +kernel,
    by decide +kernel, by decide +kernel, ?_⟩
  rw [← Text.occursIn_iff]
  decide +kernel

end DocumentMerge.Segment
