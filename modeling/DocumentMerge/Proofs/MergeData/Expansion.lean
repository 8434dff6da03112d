import DocumentMerge.Proofs.Document.Running
import DocumentMerge.Proofs.MergeData.Rows

/-!
# How often a fragment is expanded

A merge that is driven by data should expand every fragment as often as the data lists rows for it.
It nearly does.

* `Expansions σ rows c texts d`: the rows are merged into `c` one after the other, each adds its own
  text, and `d` is left.  There is one text for each row, in order.
* `Gives σ c rows text`: the text that a child gives to the row of its parent, when `rows` are
  listed for it.  That is one expansion for every listed row, behind what waited in the child
  before.  But a child for which no row is listed is expanded once nevertheless, unless something
  waits in it: for a merge an empty list is the same as no list.
* `gives_of_fills`, `mergeRow_given`: this is what a row does at every node, whatever has been done
  with the tree before.
* `fillSegment_cases`: at the top of a document there is no such exception; a segment without rows
  is replaced by what waits in it, which is nothing if it was not used before.
-/

namespace DocumentMerge

open Segment (Action andThen Reachable Tidy)

namespace MergeData

/-! ## One text for each row -/

/-- Rows are merged one after the other, each adds its text, and a segment is left. -/
inductive Expansions (σ : Session) : List MergeData → Segment → List Text → Segment → Prop
  | none {c : Segment} : Expansions σ [] c [] c
  | row {r : MergeData} {rows : List MergeData} {c d e : Segment} {text : Text}
    {texts : List Text} : mergeRow r c σ = (.ok (), d, σ) →
    d.own.output = c.own.output ++ text → Expansions σ rows d texts e →
    Expansions σ (r :: rows) c (text :: texts) e

theorem Expansions.length_eq {σ : Session} {rows : List MergeData} {c d : Segment}
    {texts : List Text} (h : Expansions σ rows c texts d) : texts.length = rows.length := by
  induction h with
  | none => rfl
  | row _ _ _ ih => rw [List.length_cons, List.length_cons, ih]

/-- Filling the children leaves the node itself as it is. -/
theorem own_of_mergeChildren {segments : List (Text × List MergeData)} {s t : Segment}
    {σ τ : Session} {r : Except Error Unit} (done : mergeChildren segments s σ = (r, t, τ)) :
    t.own = s.own := by
  induction segments generalizing s σ with
  | nil =>
    rw [mergeChildren_nil] at done
    cases done
    rfl
  | cons p rest ih =>
    obtain ⟨name, rows⟩ := p
    obtain ⟨own, cs⟩ := s
    rw [mergeChildren_cons] at done
    rcases here : Segment.onChild name (mergeRows rows) (.node own cs) σ with ⟨_ | _, u, υ⟩
    · rw [Segment.andThen_of_error here] at done
      cases done
      rcases Segment.onChild_cases here with ⟨before, c, after, d, -, -, -, -, rfl⟩ | ⟨-, -, rfl, -⟩
      · rfl
      · rfl
    · rw [Segment.andThen_of_ok here] at done
      rw [ih done]
      rcases Segment.onChild_cases here with ⟨before, c, after, d, -, -, -, -, rfl⟩ | ⟨-, e, -⟩
      · rfl
      · cases e

/-- Rows can be listed only for children that there are. -/
theorem exists_child_of_mergeChildren {segments : List (Text × List MergeData)} {s t : Segment}
    {σ τ : Session} (done : mergeChildren segments s σ = (.ok (), t, τ)) :
    ∀ p ∈ segments, ∃ c ∈ s.children, c.own.name = p.1 := by
  induction segments generalizing s σ with
  | nil => exact fun p mem => absurd mem List.not_mem_nil
  | cons q rest ih =>
    obtain ⟨name, rows⟩ := q
    rw [mergeChildren_cons] at done
    obtain ⟨_, u, υ, here, later⟩ := Segment.andThen_eq_ok done
    have shape := ((tame_mergeRows rows).onChild name).skeleton_eq here
    intro p mem
    rcases List.mem_cons.1 mem with rfl | mem
    · obtain ⟨own, cs⟩ := s
      rcases Segment.onChild_cases here with ⟨before, c, after, d, rfl, -, named, -, -⟩ | ⟨-, e, -⟩
      · exact ⟨c, by simp, named⟩
      · cases e
    · obtain ⟨c, memc, named⟩ := ih later p mem
      have twin : c.skeleton ∈ s.children.map Segment.skeleton := by
        rw [← Segment.children_skeleton, ← shape, Segment.children_skeleton]
        exact List.mem_map_of_mem memc
      obtain ⟨c', memc', same⟩ := List.mem_map.1 twin
      exact ⟨c', memc', (Segment.name_eq_of_skeleton_eq same).trans named⟩

/-- A row that is merged adds a text, which waits then, and nothing waits in the children. -/
theorem output_of_mergeRow {r : MergeData} {s t : Segment} {σ τ : Session}
    (done : mergeRow r s σ = (.ok (), t, τ)) :
    (∃ text, t.own.output = s.own.output ++ text) ∧ t.own.state = .accumulating ∧
      ∀ d ∈ t.children, d.own.state = .drained := by
  obtain ⟨values, images, segments⟩ := r
  obtain ⟨own, cs⟩ := s
  rw [mergeRow_row] at done
  obtain ⟨_, u, υ, binds, done⟩ := Segment.andThen_eq_ok done
  obtain ⟨rfl, -, new, rfl, -⟩ := Segment.each_call_cases actions_ne_merge binds
  obtain ⟨_, v, φ, children, merges⟩ := Segment.andThen_eq_ok done
  have kept := own_of_mergeChildren children
  obtain rfl := Segment.eq_merged_of_merge merges
  refine ⟨⟨v.row, ?_⟩, Segment.state_merged v, fun d mem => ?_⟩
  · rw [Segment.output_merged, kept]
    rfl
  · rw [Segment.children_merged] at mem
    obtain ⟨c, -, rfl⟩ := List.mem_map.1 mem
    rw [Segment.own_drain]
    rfl

/-- Rows that are merged add their texts one after the other. -/
theorem expansions_of_mergeRows {rows : List MergeData} {c d : Segment} {σ τ : Session}
    (none : σ.working = none) (done : mergeRows rows c σ = (.ok (), d, τ)) :
    ∃ texts, Expansions σ rows c texts d ∧ d.own.output = c.own.output ++ texts.flatten := by
  induction rows generalizing c with
  | nil =>
    rw [mergeRows_nil] at done
    cases done
    exact ⟨[], .none, by simp⟩
  | cons r rows ih =>
    rw [mergeRows_cons] at done
    obtain ⟨_, e, υ, here, later⟩ := Segment.andThen_eq_ok done
    obtain rfl := (tame_mergeRow r).still_eq here none
    obtain ⟨⟨text, added⟩, -, -⟩ := output_of_mergeRow here
    obtain ⟨texts, expansions, grown⟩ := ih later
    refine ⟨text :: texts, .row here added expansions, ?_⟩
    rw [grown, added, List.flatten_cons, List.append_assoc]

/-- A segment into which a row was merged has rows waiting. -/
theorem state_of_mergeRows {r : MergeData} {rows : List MergeData} {c d : Segment} {σ τ : Session}
    (done : mergeRows (r :: rows) c σ = (.ok (), d, τ)) : d.own.state = .accumulating := by
  induction rows generalizing r c σ with
  | nil =>
    rw [mergeRows_cons, mergeRows_nil] at done
    obtain ⟨_, e, υ, here, later⟩ := Segment.andThen_eq_ok done
    cases later
    exact (output_of_mergeRow here).2.1
  | cons r' rows ih =>
    rw [mergeRows_cons] at done
    obtain ⟨_, e, υ, -, later⟩ := Segment.andThen_eq_ok done
    exact ih later

/-! ## What a child gives -/

/-- The text that a child gives to the row of its parent, by the rows that are listed for it. -/
inductive Gives (σ : Session) (c : Segment) : List MergeData → Text → Prop
  | listed {rows : List MergeData} {texts : List Text} {d : Segment} : rows ≠ [] →
    Expansions σ rows c texts d → Gives σ c rows (c.own.output ++ texts.flatten)
  | once : c.own.state = .drained → Gives σ c [] c.row
  | waiting : c.own.state = .accumulating → Gives σ c [] c.own.output

/-- A child whose rows were merged gives what is listed. -/
theorem gives_of_fills {segments : List (Text × List MergeData)} {c : Segment} {σ : Session}
    (none : σ.working = none) (tidy : Tidy c) (fills : Fills segments σ c) :
    Gives σ c (rowsFor c.own.name segments) (filled segments σ c).settled.own.output := by
  have done := mergeRows_of_fills none fills
  cases rows : rowsFor c.own.name segments with
  | nil =>
    rw [rows, mergeRows_nil] at done
    have same : c = filled segments σ c := congrArg (fun answer => answer.2.1) done
    rw [← same]
    cases state : c.own.state with
    | drained =>
      rw [Segment.settled_of_drained state, Segment.output_merged, tidy.output_eq_nil state]
      exact .once state
    | accumulating =>
      rw [Segment.settled_of_accumulating state]
      exact .waiting state
  | cons r rest =>
    rw [rows] at done
    obtain ⟨texts, expansions, grown⟩ := expansions_of_mergeRows none done
    rw [Segment.settled_of_accumulating (state_of_mergeRows done), grown]
    exact .listed (List.cons_ne_nil r rest) expansions

/-- The text of a row: the fragment with its values, in which every child is replaced by what it
gives. -/
theorem mergeRow_given {values : List (Text × Json.Value)} {images : List (Text × ImageBinding)}
    {segments : List (Text × List MergeData)} {s t : Segment} {σ τ : Session}
    (none : σ.working = none) (reach : Reachable s)
    (done : mergeRow (.row values images segments) s σ = (.ok (), t, τ)) :
    ∃ given : Segment → Text,
      (∀ c ∈ s.children, Gives σ c (rowsFor c.own.name segments) (given c)) ∧
      t.own.output = s.own.output ++ Region.unwrap s.own.name
        (s.children.foldl (fun text c => Text.replaceAll c.own.source (given c) text)
          (t.own.values.bindings.apply s.own.source)) := by
  refine ⟨fun c => (filled segments σ c).settled.own.output, ?_⟩
  obtain ⟨own, cs⟩ := s
  obtain ⟨-, fills, new, -, rfl⟩ := mergeRow_cases none reach.sound.names done
  refine ⟨fun c mem => gives_of_fills none (reach.tidy.child mem) (fills c mem), ?_⟩
  rw [Segment.output_merged, Segment.row_node, Segment.text_takeAll, Segment.bindings_merged,
    List.map_map, List.foldl_map]
  have sources (c : Segment) : (filled segments σ c).settled.own.source = c.own.source := by
    have kept : (filled segments σ c).skeleton = c.skeleton := (tame_mergeRows _).skeleton c σ
    exact (Segment.source_eq_of_skeleton_eq (Segment.skeleton_settled _)).trans
      (Segment.source_eq_of_skeleton_eq kept)
  simp only [Function.comp_apply, sources]
  rfl

end MergeData

/-! ## The top of a document -/

namespace Document

theorem segment?_eq {d : Document} {name : Text} {before after : List Segment} {c : Segment}
    (split : d.segments = before ++ c :: after) (earlier : ∀ b ∈ before, b.own.name ≠ name)
    (named : c.own.name = name) : d.segment? name = some c := by
  rw [segment?, split, List.find?_append, List.find?_eq_none.2, Option.none_or,
    List.find?_cons_of_pos]
  · exact beq_iff_eq.2 named
  · intro b mem
    have differ : b.name ≠ name := earlier b mem
    simpa using differ

/-- The rows of a segment take the place of its region, one text for each row, behind what waited in
the segment before. -/
theorem fillSegment_cases {d d' : Document} {name : Text} {rows : List MergeData}
    (done : d.fillSegment name rows = (.ok (), d')) :
    ∃ e c u texts m, d.declareSegment name = (.ok (), e) ∧ e.segment? name = some c ∧
      MergeData.Expansions d.session.detached rows c texts u ∧
      Region.find? name d.content = some m ∧
      d'.content = m.before ++ (c.own.output ++ texts.flatten) ++ m.after := by
  rw [fillSegment] at done
  split at done
  · next d₁ filled =>
    rw [onSegment] at filled
    split at filled
    · cases filled
    · next e declared =>
      obtain ⟨segments, rfl⟩ := exists_of_declareSegment declared
      rcases Segment.exists_first_named name segments with
        ⟨before, c, after, rfl, earlier, named⟩ | none
      · rcases called : MergeData.mergeRows rows c d.session with ⟨r, u, τ⟩
        rw [Segment.callNamed_append earlier named called] at filled
        cases filled
        have tame := MergeData.tame_mergeRows rows
        have named' : u.own.name = name :=
          (Segment.name_eq_of_skeleton_eq (tame.skeleton_eq called)).trans named
        obtain ⟨texts, expansions, grown⟩ :=
          MergeData.expansions_of_mergeRows rfl (tame.detached called)
        obtain ⟨s, m, found, region, rfl⟩ := exists_of_mergeSegment done
        rw [segment?_eq rfl earlier named'] at found
        cases found
        refine ⟨_, c, u, texts, m, declared, segment?_eq rfl earlier named, expansions, region, ?_⟩
        rw [← grown]
      · rw [Segment.callNamed_eq_none none] at filled
        cases filled
  · cases done

end Document

namespace MergeData

/-- **How often fragments are expanded.**  When a row is merged into a segment, whatever was done
with the segment before, every child gives one text for every row that is listed for it, in order.
Only a child without listed rows is expanded once of its own, unless rows wait in it, and after the
merge none do.  Rows are listed only for children that there are.  At the top of a document a
segment is replaced by one text for every row, so without rows it leaves nothing but what waited in
it. -/
theorem expanded_as_listed :
    (∀ {values : List (Text × Json.Value)} {images : List (Text × ImageBinding)}
        {segments : List (Text × List MergeData)} {s t : Segment} {σ τ : Session}, Reachable s →
      mergeRow (.row values images segments) s σ = (.ok (), t, τ) →
      (∃ given : Segment → Text,
        (∀ c ∈ s.children, Gives σ.detached c (rowsFor c.own.name segments) (given c)) ∧
        t.own.output = s.own.output ++ Region.unwrap s.own.name
          (s.children.foldl (fun text c => Text.replaceAll c.own.source (given c) text)
            (t.own.values.bindings.apply s.own.source))) ∧
      (∀ p ∈ segments, ∃ c ∈ s.children, c.own.name = p.1) ∧
      ∀ d ∈ t.children, d.own.state = .drained) ∧
    (∀ {d d' : Document} {name : Text} {rows : List MergeData},
      d.fillSegment name rows = (.ok (), d') →
      ∃ e c u texts m, d.declareSegment name = (.ok (), e) ∧ e.segment? name = some c ∧
        Expansions d.session.detached rows c texts u ∧ texts.length = rows.length ∧
        Region.find? name d.content = some m ∧
        d'.content = m.before ++ (c.own.output ++ texts.flatten) ++ m.after) := by
  constructor
  · intro values images segments s t σ τ reach done
    refine ⟨mergeRow_given rfl reach ((tame_mergeRow _).detached done), ?_,
      (output_of_mergeRow done).2.2⟩
    obtain ⟨own, cs⟩ := s
    rw [mergeRow_row] at done
    obtain ⟨_, u, υ, binds, done⟩ := Segment.andThen_eq_ok done
    obtain ⟨rfl, -, new, rfl, -⟩ := Segment.each_call_cases actions_ne_merge binds
    obtain ⟨_, v, φ, children, -⟩ := Segment.andThen_eq_ok done
    have listed := exists_child_of_mergeChildren children
    exact listed
  · intro d d' name rows done
    obtain ⟨e, c, u, texts, m, declared, found, expansions, region, replaced⟩ :=
      Document.fillSegment_cases done
    exact ⟨e, c, u, texts, m, declared, found, expansions, expansions.length_eq, region, replaced⟩

/-- Two rows are listed for the child, so the row of the parent holds two expansions of it. -/
theorem expanded_as_listed_twice :
    let source := "[!-- BEGIN s --]<[!-- BEGIN c --]\x7bx\x7d[!-- END c --]>[!-- END s --]".toList
    let s := Segment.used "s".toList source []
    let one : MergeData := .row [("x".toList, .string "1".toList)] [] []
    let two : MergeData := .row [("x".toList, .string "2".toList)] [] []
    let answer := mergeRow (.row [] [] [("c".toList, [one, two])]) s (Session.alone Disk.empty)
    answer.2.1.own.output = "<12>".toList ∧
      ∃ given : Segment → Text,
        (∀ c ∈ s.children, Gives (Session.alone Disk.empty) c
          (rowsFor c.own.name [("c".toList, [one, two])]) (given c)) ∧
        answer.2.1.own.output = s.own.output ++ Region.unwrap s.own.name
          (s.children.foldl (fun text c => Text.replaceAll c.own.source (given c) text)
            (answer.2.1.own.values.bindings.apply s.own.source)) := by
  intro source s one two answer
  have reach : Reachable s := Segment.reachable_used (by decide +kernel) _
  have done : answer = (.ok (), answer.2.1, answer.2.2) :=
    Segment.eq_ok_of_toOption (by decide +kernel)
  exact ⟨by decide +kernel, (expanded_as_listed.1 reach done).1⟩

/-- An empty list of rows does not keep the fragment of a child out of the row. -/
theorem expanded_without_rows :
    let source := "[!-- BEGIN s --]<[!-- BEGIN c --]x[!-- END c --]>[!-- END s --]".toList
    let s := Segment.used "s".toList source []
    let answer := mergeRow (.row [] [] [("c".toList, [])]) s (Session.alone Disk.empty)
    Reachable s ∧ answer.1.toOption = some () ∧ s.own.output = [] ∧
      s.children.map (fun c => (c.own.name, c.own.output)) = [("c".toList, [])] ∧
      answer.2.1.own.output = "<x>".toList ∧
      Region.unwrap s.own.name
        (s.children.foldl (fun text c => Text.replaceAll c.own.source [] text)
          (answer.2.1.own.values.bindings.apply s.own.source)) = "<>".toList := by
  intro source s answer
  exact ⟨Segment.reachable_used (by decide +kernel) _, by decide +kernel, by decide +kernel,
    by decide +kernel, by decide +kernel, by decide +kernel⟩

end MergeData

end DocumentMerge
