import DocumentMerge.Proofs.Region.Layout
import DocumentMerge.Proofs.Segment.Discovering
import DocumentMerge.Proofs.Segment.Draining

/-!
# Rows in which no segment is opened

The markers of the segments should be gone from a row.  They are, as long as every marker in the text
that a merge begins with is the segment's own or belongs to a copy of a child's text.  Discovery does
not see to that: of several regions with one name it takes the first, and a marker may be alone or come
about only when texts are put together.

* `Reachable.headed`: the text of a child begins with an opening marker of its name, which is not the
  name of the parent.
* `Arranged ns s`: the fragment with its values is laid out (`Region.LaidOut`), no child's text begins in
  that of a later child, and so it is for the children that the merge of `s` will merge.
* `Clean ns s`: all that waits in a tree is loose, it opens no region of the given names.
* `loose_row`: the row of a clean and arranged segment is loose.  `Clean.call`, `Clean.run`: so a tree
  stays clean whatever is done with it, if its successful merges are made on arranged nodes.
* `row_opens_no_segment`: the row of every such merge has no region of any name of the tree, and
  `first_of_name_leaves_region` shows by examples what the conditions are there for.

`Template.Arranging` has the conditions from the template alone, if that is sound.
-/

namespace DocumentMerge.Segment

open Region (Headed IsOpening LaidOut Loose Pieced beginMarker endMarker wrap)
open Text (Absent)

/-! ## The texts of children -/

/-- The text of a child begins with an opening marker of its name, which its parent has not. -/
theorem Reachable.headed {s c : Segment} (h : Reachable s) (mem : c ∈ s.children) :
    c.own.name ≠ s.own.name ∧ Headed c.own.name c.own.source := by
  obtain ⟨r, memr, name, source⟩ := h.exists_region mem
  obtain ⟨differ, _, _, stands⟩ := standsIn_of_mem_childRegions memr
  rw [name, source]
  exact ⟨differ, r.opening, stands.opens, _, by rw [Region.outer, List.append_assoc]⟩

/-! ## The names of a tree -/

/-- The names of a segment and of all below it. -/
def names (s : Segment) : List Text :=
  (fragments s).map Fragment.name

theorem names_node (own : Fragment) (children : List Segment) :
    names (.node own children) = own.name :: children.flatMap names := by
  have singles : names = fun s => (fragments s).flatMap fun f => [f.name] :=
    funext fun s => List.map_eq_flatMap
  rw [singles]
  exact flatMap_fragments_node _ own children

theorem name_mem_names (s : Segment) : s.own.name ∈ names s := by
  obtain ⟨own, children⟩ := s
  rw [names_node]
  exact List.mem_cons_self

theorem names_subset_of_mem {s c : Segment} (mem : c ∈ s.children) : names c ⊆ names s := by
  obtain ⟨own, children⟩ := s
  rw [names_node]
  exact fun n below => List.mem_cons_of_mem _ (List.mem_flatMap.2 ⟨c, mem, below⟩)

theorem names_skeleton (s : Segment) : names s.skeleton = names s := by
  induction s using induct with
  | node own children ih =>
    rw [skeleton_node, names_node, names_node, List.flatMap_map]
    exact congrArg _ (List.flatMap_congr ih)

theorem names_eq_of_skeleton_eq {s t : Segment} (h : s.skeleton = t.skeleton) :
    names s = names t := by
  rw [← names_skeleton s, h, names_skeleton]

theorem names_subset_of_at? {path : List Text} {s n : Segment} (found : at? path s = some n) :
    names n ⊆ names s :=
  of_at? (P := fun t => names t ⊆ names s)
    (fun _ sub _ mem => List.Subset.trans (names_subset_of_mem mem) sub) (List.Subset.refl _) found

/-! ## Arranged segments -/

variable {ns : List Text}

/-- The markers in the text with which a merge begins are accounted for: they are closing ones, or belong
to copies of the children's texts or to regions of the segment's own name around them.  The children are
searched for one after the other, so the text of none begins in that of a later one.  The same holds of
the children that are merged on the way. -/
inductive Arranged (ns : List Text) : Segment → Prop
  | node {own : Fragment} {children : List Segment} :
    LaidOut ns own.name (children.map fun c => c.own.source)
      (own.values.bindings.apply own.source) →
    (children.Pairwise fun c d => Absent c.own.source d.own.source) →
    (∀ c ∈ children, c.own.state = .drained → Arranged ns c) → Arranged ns (.node own children)

/-- What waits anywhere in a tree opens no region of the given names. -/
inductive Clean (ns : List Text) : Segment → Prop
  | node {own : Fragment} {children : List Segment} : Loose ns own.output →
    (∀ c ∈ children, Clean ns c) → Clean ns (.node own children)

theorem Clean.output {s : Segment} (h : Clean ns s) : Loose ns s.own.output := by
  cases h
  assumption

theorem Clean.child {s c : Segment} (h : Clean ns s) (mem : c ∈ s.children) : Clean ns c := by
  cases h with
  | node _ below => exact below c mem

theorem Clean.at? {path : List Text} {s n : Segment} (h : Clean ns s)
    (found : Segment.at? path s = some n) : Clean ns n :=
  of_at? (fun _ h _ mem => h.child mem) h found

/-! ## The row -/

/-- Loose outputs take the places of the children's texts, one child after the other. -/
theorem laidOut_foldl {own t : Text} {children : List Segment}
    (headed : ∀ c ∈ children, c.own.name ∈ ns ∧ c.own.name ≠ own ∧ Headed c.own.name c.own.source)
    (apart : children.Pairwise fun c d => Absent c.own.source d.own.source)
    (loose : ∀ c ∈ children, Loose ns c.own.output)
    (laid : LaidOut ns own (children.map fun c => c.own.source) t) :
    LaidOut ns own []
      (children.foldl (fun t c => Text.replaceAll c.own.source c.own.output t) t) := by
  induction children generalizing t with
  | nil => exact laid
  | cons c rest ih =>
    obtain ⟨first, later⟩ := List.pairwise_cons.1 apart
    obtain ⟨mem, differ, head⟩ := headed c List.mem_cons_self
    have behind : ∀ d ∈ rest.map fun c => c.own.source, Absent c.own.source d := by
      intro d memd
      obtain ⟨e, meme, rfl⟩ := List.mem_map.1 memd
      exact first e meme
    obtain ⟨t', laid', turns⟩ :=
      laid.replaceAll mem head differ behind (loose c List.mem_cons_self)
    rw [List.foldl_cons, turns.eq Text.replaceAll_nil]
    exact ih (fun c mem => headed c (List.mem_cons_of_mem _ mem)) later
      (fun c mem => loose c (List.mem_cons_of_mem _ mem)) laid'

/-- The row of a clean and arranged segment opens no region of the given names. -/
theorem loose_row {s : Segment} (reach : Reachable s) (named : names s ⊆ ns) (clean : Clean ns s)
    (arranged : Arranged ns s) : Loose ns (row s) := by
  induction s using induct with
  | node own children ih =>
    obtain ⟨laid, apart, below⟩ := arranged
    -- a child gives what waits in it, or else a row of its own
    have outputs : ∀ c ∈ children, Loose ns c.settled.own.output := by
      intro c mem
      cases state : c.own.state with
      | accumulating =>
        rw [settled_of_accumulating state]
        exact (clean.child mem).output
      | drained =>
        rw [settled_of_drained state, output_merged]
        exact (clean.child mem).output.append (ih c mem (reach.child mem)
          (List.Subset.trans (names_subset_of_mem (s := .node own children) mem) named) (clean.child mem)
          (below c mem state))
    rw [row_node, text_takeAll]
    refine (laidOut_foldl (fun d mem => ?_) ?_ (fun d mem => ?_) ?_).unwrap
      (named (name_mem_names (.node own children)))
    · obtain ⟨c, memc, rfl⟩ := List.mem_map.1 mem
      rw [source_settled, name_eq_of_skeleton_eq (skeleton_settled c)]
      exact ⟨named (names_subset_of_mem memc (name_mem_names c)), reach.headed memc⟩
    · rw [List.pairwise_map]
      simpa only [source_settled] using apart
    · obtain ⟨c, memc, rfl⟩ := List.mem_map.1 mem
      exact outputs c memc
    · simpa only [List.map_map, Function.comp_def, source_settled, Fragment.firstRow] using laid

/-! ## Calls -/

namespace Clean

variable {s c : Segment}

/-- What a child gave away is no longer in it, and neither is what waited below it if it was merged. -/
theorem settled_drain (h : Clean ns c) : Clean ns c.settled.drain := by
  induction c using induct with
  | node own children ih =>
    cases state : (Segment.node own children).own.state with
    | accumulating =>
      rw [settled_of_accumulating state]
      exact .node Region.loose_nil fun d mem => h.child mem
    | drained =>
      rw [settled_of_drained state, merged_node]
      refine .node Region.loose_nil fun d mem => ?_
      rw [List.map_map] at mem
      obtain ⟨e, meme, rfl⟩ := List.mem_map.1 mem
      exact ih e meme (h.child meme)

/-- Putting children into a row keeps them clean if the merges of those that fail do. -/
theorem mergeChildren {children : List Segment} (clean : ∀ c ∈ children, Clean ns c)
    (failing : ∀ c ∈ children, ∀ {σ τ : Session} {cause : Error} {d : Segment},
      Segment.merge c σ = (.error cause, d, τ) → Clean ns d) (row : Row) (σ : Session) :
    ∀ d ∈ (Segment.mergeChildren row children σ).2.2.1, Clean ns d := by
  induction children generalizing row σ with
  | nil =>
    rw [mergeChildren_nil]
    exact clean
  | cons c rest ih =>
    have later := ih (fun c mem => clean c (List.mem_cons_of_mem _ mem))
      fun c mem => failing c (List.mem_cons_of_mem _ mem)
    rcases settled : settle c σ with ⟨_ | _, d, τ⟩
    · rw [mergeChildren_cons_of_error settled]
      intro e mem
      rcases List.mem_cons.1 mem with rfl | mem
      · exact failing c List.mem_cons_self (merge_of_settle_error settled).2
      · exact clean e (List.mem_cons_of_mem _ mem)
    · rw [mergeChildren_cons_of_ok settled]
      intro e mem
      rcases List.mem_cons.1 mem with rfl | mem
      · rw [eq_settled_of_settle settled]
        exact (clean c List.mem_cons_self).settled_drain
      · exact later _ _ e mem

/-- A failing merge adds no row anywhere. -/
theorem of_merge_error {t : Segment} {σ τ : Session} {cause : Error} (h : Clean ns s)
    (failed : Segment.merge s σ = (.error cause, t, τ)) : Clean ns t := by
  induction s using induct generalizing σ τ cause t with
  | node own children ih =>
    rcases merge_cases failed with ⟨_, -, -, rfl⟩ | ⟨σ', -, ⟨_, row, ds, stopped, -, rfl⟩ | done⟩
    · exact h
    · have clean : ∀ c ∈ children, Clean ns c := fun c mem => h.child mem
      have below := mergeChildren clean (fun c mem _ _ _ _ => ih c mem (clean c mem)) own.firstRow σ'
      rw [stopped] at below
      exact .node h.output below
    · obtain ⟨_, _, -, e, -⟩ := done
      cases e

theorem merged (h : Clean ns s) (loose : Loose ns (row s)) : Clean ns s.merged := by
  obtain ⟨own, children⟩ := s
  rw [merged_node]
  refine .node (h.output.append loose) fun d mem => ?_
  rw [List.map_map] at mem
  obtain ⟨c, memc, rfl⟩ := List.mem_map.1 mem
  exact (h.child memc).settled_drain

/-- A call keeps a node clean, if the row is loose when it is a merge that succeeds. -/
theorem call (h : Clean ns s) (a : Action) (σ : Session)
    (loose : a = .merge → (Segment.merge s σ).1 = .ok () → Loose ns (row s)) :
    Clean ns (a.call s σ).2.1 := by
  by_cases merges : a = .merge
  · subst merges
    show Clean ns (Segment.merge s σ).2.1
    rcases done : Segment.merge s σ with ⟨_ | _, t, τ⟩
    · exact h.of_merge_error done
    · rw [done] at loose
      rw [eq_merged_of_merge done]
      exact h.merged (loose rfl rfl)
  · obtain ⟨own, cs⟩ := s
    rcases done : a.call (.node own cs) σ with ⟨r, t, τ⟩
    obtain ⟨-, ⟨key, v, values, -, -, -, -, rfl⟩ | ⟨cause, -, rfl, -⟩⟩ :=
      Action.call_cases merges done
    · exact .node h.output fun c mem => h.child mem
    · exact h

/-- A call by a path keeps a tree clean if it keeps the node clean to which the path leads. -/
theorem onPath (h : Clean ns s) (a : Action) (path : List Text) (σ : Session)
    (there : ∀ n, Segment.at? path s = some n → Clean ns (a.call n σ).2.1) :
    Clean ns (Segment.onPath a.call path s σ).2.1 := by
  refine keeps_onPath (fun _ h _ mem => h.child mem) (fun own before c d after h here => ?_) h
    fun n found _ => there n found
  exact .node h.output (forall_mem_exchange (fun e mem => h.child mem) here)

end Clean

/-- Every merge among some calls that succeeds is made on an arranged node. -/
def MergesArranged (ns : List Text) : List (List Text × Action) → Segment → Session → Prop
  | [], _, _ => True
  | (path, a) :: steps, s, σ =>
    (a = .merge → (onPath a.call path s σ).1 = .ok () → ∀ n, at? path s = some n → Arranged ns n) ∧
      MergesArranged ns steps (onPath a.call path s σ).2.1 (onPath a.call path s σ).2.2

/-- A tree stays clean as long as merges are made on arranged nodes. -/
theorem Clean.run {steps : List (List Text × Action)} {s : Segment} {σ : Session} (h : Clean ns s)
    (reach : Reachable s) (named : names s ⊆ ns) (arranged : MergesArranged ns steps s σ) :
    Clean ns (run steps s σ).1 := by
  induction steps generalizing s σ with
  | nil => exact h
  | cons step steps ih =>
    obtain ⟨path, a⟩ := step
    obtain ⟨here, later⟩ := arranged
    rcases done : Segment.onPath a.call path s σ with ⟨r, t, τ⟩
    rw [done] at here later
    have clean : Clean ns t := by
      have kept := h.onPath a path σ fun n found => (h.at? found).call a σ fun merges ok => by
        obtain ⟨_, -, -, -, -, calls⟩ := exists_around found
        have answer := calls a.call σ
        rw [done] at answer
        subst merges
        refine loose_row (reach.at? found) (List.Subset.trans (names_subset_of_at? found) named)
          (h.at? found) (here rfl ?_ n found)
        rw [(Prod.mk.inj answer).1]
        exact ok
      rwa [done] at kept
    have same := names_eq_of_skeleton_eq (((tame_call a).onPath path).skeleton_eq done)
    rw [Segment.run, done]
    exact ih clean (reach.called path a done) (same ▸ named) later

/-- What discovery builds is clean, since nothing waits in it. -/
theorem clean_of_parse {name source : Text} {room : Nat} {s : Segment}
    (h : parse name source room = .ok s) : Clean ns s :=
  parse_induct (fun _ _ _ _ below => .node Region.loose_nil below) h

/-- **No segment is opened in a row.**  A segment is built from a text and used, whatever the values are
that are bound, and all its successful merges, wherever in the tree, were made on arranged nodes.  Then
the row that one more merge of an arranged node adds to the output has no opening marker of any name of
the tree, so no region of these names is found in it. -/
theorem row_opens_no_segment {name source : Text} {s t : Segment} {σ τ υ : Session}
    {steps : List (List Text × Action)} {path : List Text} (built : ofRegion name source = .ok s)
    (arranged : MergesArranged (names s) steps s σ)
    (here : ∀ n, at? path (run steps s σ).1 = some n → Arranged (names s) n)
    (done : onPath merge path (run steps s σ).1 τ = (.ok (), t, υ)) :
    ∃ n m row, at? path (run steps s σ).1 = some n ∧ at? path t = some m ∧
      m.own.output = n.own.output ++ row ∧ names n ⊆ names s ∧
      ∀ k ∈ names s, (∀ w, IsOpening k w → ¬ w <:+: row) ∧ Region.find? k row = none := by
  have reach : Reachable s := .parsed built
  obtain ⟨n, found⟩ := exists_at?_of_onPath done
  have clean := (clean_of_parse built).run reach (List.Subset.refl _) arranged
  have same : names (run steps s σ).1 = names s := names_eq_of_skeleton_eq (skeleton_run steps s σ)
  have named : names n ⊆ names s := same ▸ names_subset_of_at? found
  have loose : Loose (names s) (row n) :=
    loose_row ((reach.run steps σ).at? found) named (clean.at? found) (here n found)
  refine ⟨n, n.merged, row n, found, at?_of_merge found done, output_merged n, named,
    fun k mem => ?_⟩
  refine ⟨fun w opens => (loose.absent_opening mem opens).not_within ?_, loose.find?_eq_none mem⟩
  exact opens.2.ne_nil

/-- The text of the child stands in its parent twice.  The child is merged for a value, and then the row of
the parent has the value in both places and no marker. -/
theorem row_opens_no_segment_same_text :
    let region := wrap "c".toList "\x7bx\x7d".toList
    let source := wrap "s".toList ('<' :: region ++ '|' :: region ++ ">".toList)
    let steps := [(["c".toList], .bind "x".toList "1".toList true), (["c".toList], .merge)]
    let s := used "s".toList source []
    let u := (run steps s (Session.alone Disk.empty)).1
    ofRegion "s".toList source = .ok s ∧ names s = ["s".toList, "c".toList] ∧
      MergesArranged (names s) steps s (Session.alone Disk.empty) ∧ Arranged (names s) u ∧
      ∃ t row, onPath merge [] u (Session.alone Disk.empty) = (.ok (), t, Session.alone Disk.empty) ∧
        t.own.output = row ∧ row = "<1|1>".toList ∧
        ∀ k ∈ names s, (∀ w, IsOpening k w → ¬ w <:+: row) ∧ Region.find? k row = none := by
  intro region source steps s u
  have built : ofRegion "s".toList source = .ok s := ofRegion_eq_ok_used (by decide +kernel)
  have named : names s = ["s".toList, "c".toList] := by decide +kernel
  have plain {texts : List Text} (t : Text) (free : '[' ∉ t) : Pieced (names s) texts t :=
    .plain (Region.plain_of_notMem free)
  have merges : MergesArranged (names s) steps s (Session.alone Disk.empty) := by
    refine ⟨(fun e => Action.noConfusion e), fun _ _ n found => ?_, trivial⟩
    have facts : (at? ["c".toList] (onPath (Action.bind "x".toList "1".toList true).call ["c".toList] s
          (Session.alone Disk.empty)).2.1).map (fun n => (n.own.name, n.children.length,
            n.own.values.bindings.apply n.own.source))
        = some ("c".toList, 0, wrap "c".toList "1".toList) := by
      decide +kernel
    rw [found] at facts
    obtain ⟨own, children⟩ := n
    simp only [Option.map_some, Option.some.injEq, Prod.mk.injEq, own_node, children_node,
      List.length_eq_zero_iff] at facts
    obtain ⟨name, rfl, row⟩ := facts
    refine .node ?_ List.Pairwise.nil fun c mem => absurd mem List.not_mem_nil
    rw [row, name]
    exact Region.laidOut_wrap (by simp [Region.Spaceless, Region.isMarkerSpace])
      (plain _ (by decide))
  have arranged : Arranged (names s) u := by
    have facts : (u.own.name, u.children.map (fun c => (c.own.source, c.own.state)),
          u.own.values.bindings.apply u.own.source)
        = ("s".toList, [(region, .accumulating)], wrap "s".toList
            ("<".toList ++ (region ++ ("|".toList ++ (region ++ ">".toList))))) := by
      decide +kernel
    revert facts
    obtain ⟨own, children⟩ := u
    intro facts
    simp only [Prod.mk.injEq, own_node, children_node] at facts
    obtain ⟨name, below, row⟩ := facts
    obtain ⟨c, rfl⟩ := List.length_eq_one_iff.1 (by simpa using congrArg List.length below)
    simp only [List.map_cons, List.map_nil, List.cons.injEq, Prod.mk.injEq, and_true] at below
    refine .node ?_ (List.pairwise_singleton _ _) fun d mem drained => ?_
    · rw [row, name, List.map_cons, List.map_nil, below.1]
      have copy : Pieced (names s) [region] region := .given List.mem_cons_self
      exact Region.laidOut_wrap (by simp [Region.Spaceless, Region.isMarkerSpace])
        (.append (plain _ (by decide)) (.append copy (.append (plain _ (by decide))
          (.append copy (plain _ (by decide))))))
    · rw [List.mem_singleton.1 mem, below.2] at drained
      cases drained
  refine ⟨built, named, merges, arranged, ?_⟩
  have done : onPath merge [] u (Session.alone Disk.empty)
      = (.ok (), u.merged, Session.alone Disk.empty) := merge_of_no_working rfl u
  obtain ⟨n, m, row, found, found', output, -, clear⟩ := row_opens_no_segment built merges
    (fun n found => by cases found; exact arranged) done
  cases found
  cases found'
  have empty : u.own.output = [] ∧ u.merged.own.output = "<1|1>".toList := by decide +kernel
  rw [empty.1, List.nil_append] at output
  exact ⟨_, row, done, output, by rw [← output, empty.2], clear⟩

/-- The names of the tree of which a region is found in the row that the next merge adds, when a segment
of the name `s` was built from a text and used. -/
def leftIn (source : Text) (steps : List (List Text × Action)) : List Text :=
  let s := used "s".toList source steps
  (names s).filter fun n => (Region.find? n s.row).isSome

/-- Of two regions with one name the first becomes the child, and a merge leaves the other one in the
row.  Regions are left too when a region stands in one of its own name, when a marker without its partner
meets one in the next row, when a bracket meets the rest of a marker in the row of a child, and when the
text of a child stands in that of a later one.  No value is bound in any of these cases. -/
theorem first_of_name_leaves_region :
    let s := used "s".toList
      (wrap "s".toList (wrap "c".toList "1".toList ++ wrap "c".toList "2".toList)) []
    let t := (merge s (Session.alone Disk.empty)).2.1
    Reachable s ∧ (fragments s).map (fun f => f.values.bindings.entries) = [[], []] ∧
      names s = ["s".toList, "c".toList] ∧ s.own.output = [] ∧
      (merge s (Session.alone Disk.empty)).1.toOption = some () ∧
      t.own.output = "1[!-- BEGIN c --]2[!-- END c --]".toList ∧
      (Region.find? "c".toList t.own.output).isSome = true ∧
      leftIn (wrap "s".toList (wrap "c".toList ('x' :: beginMarker "c".toList ++ "y".toList)
        ++ 'z' :: endMarker "c".toList)) [] = ["c".toList] ∧
      leftIn (wrap "s".toList (wrap "c".toList (endMarker "d".toList ++ beginMarker "d".toList)
        ++ wrap "d".toList "1".toList)) [(["c".toList], .merge), (["c".toList], .merge)]
        = ["d".toList] ∧
      leftIn (wrap "s".toList ('[' :: wrap "c".toList "!-- BEGIN c --]".toList
        ++ endMarker "c".toList)) [] = ["c".toList] ∧
      leftIn (wrap "s".toList (wrap "a".toList "1".toList
        ++ wrap "b".toList (wrap "a".toList "1".toList))) [] = ["b".toList] := by
  intro s t
  exact ⟨reachable_used (by decide +kernel) _, by decide +kernel, by decide +kernel,
    by decide +kernel, by decide +kernel, by decide +kernel, by decide +kernel, by decide +kernel,
    by decide +kernel, by decide +kernel, by decide +kernel⟩

end DocumentMerge.Segment
