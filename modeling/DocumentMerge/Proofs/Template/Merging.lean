import DocumentMerge.Proofs.Template.Substitution

/-!
# A merge of a node is one pass over its items

A segment *follows* a template in use when it is the segment of the same text, its bindings hold the
values of every node, and its output is what waits there.  A merge of such a segment does with
searches and replacements what the template does in one pass over its items.

* `Represents` relates one node to its fragment, and `Items.Follows` relates all nodes below, child
  by child.
* `Items.Follows.splice` is the heart of it.  Every child is put into the row by replacing its text
  in the whole row.  The invariant: what stands before the children that are still to come is made
  of markers with other names and of text without brackets, and so is what stands behind.  So the
  text of the child occurs once, where it was written.
* `Items.Follows.row`: a merge adds `Items.expand` to the output.
* `Template.Follows.merge`: the segment after a merge follows the template after a merge.
-/

namespace DocumentMerge

open Region (IsName Marked wrap)
open Segment (settled drain)

/-- The state of a segment by what waits in it. -/
def Cell.state (c : Cell) : MergeState :=
  match c.pending with
  | none => .drained
  | some _ => .accumulating

/-- A fragment stands for a node of name `n` with the given note and items. -/
structure Represents (n : Text) (cell : Cell) (items : Items Cell) (own : Fragment) : Prop where
  name : own.name = n
  source : own.source = wrap n items.render
  output : own.output = cell.output
  state : own.state = cell.state
  bound : Binds items cell.bound own.values.bindings
  pending : ∀ rows, cell.pending = some rows → '[' ∉ rows

/-- Segments stand for the children of a node, and the same holds below each of them. -/
inductive Items.Follows : Items Cell → List Segment → Prop
  | done : Follows .done []
  | literal {text : Text} {rest : Items Cell} {cs : List Segment} :
    Follows rest cs → Follows (.literal text rest) cs
  | tag {key : Text} {rest : Items Cell} {cs : List Segment} :
    Follows rest cs → Follows (.tag key rest) cs
  | child {name : Text} {cell : Cell} {inner rest : Items Cell} {own : Fragment}
    {ds cs : List Segment} : Represents name cell inner own → Follows inner ds → Follows rest cs →
    Follows (.child name cell inner rest) (.node own ds :: cs)

/-- A segment stands for a template. -/
def Template.Follows (t : Template Cell) (s : Segment) : Prop :=
  Represents t.name t.note t.items s.own ∧ t.items.Follows s.children

/-! ## The text that a child gives -/

namespace Items

/-- The text that a child gives to a row: the rows that wait in it, or one of its own. -/
def given (cell : Cell) (inner : Items Cell) : Text :=
  match cell.pending with
  | some rows => rows
  | none => inner.expand cell.bound

theorem expand_child (bound : Text → Option Text) (name : Text) (cell : Cell)
    (inner rest : Items Cell) :
    (child name cell inner rest).expand bound = given cell inner ++ rest.expand bound := rfl

/-- The values of the given keys hold no bracket. -/
def Bracketless (bound : Text → Option Text) (keys : List Text) : Prop :=
  ∀ key ∈ keys, ∀ v, bound key = some v → '[' ∉ v

theorem Bracketless.getD {bound : Text → Option Text} {keys : List Text} {key : Text}
    (h : Bracketless bound keys) (mem : key ∈ keys) (plain : IsPlain key) :
    '[' ∉ (bound key).getD (Config.standard.tag key) := by
  cases found : bound key with
  | none => exact bracket_notMem_tag plain.bracket
  | some v => exact h key mem v found

/-- A row holds no bracket. -/
theorem Follows.bracket_notMem_expand {items : Items Cell} {cs : List Segment}
    (h : items.Follows cs) (plain : items.Plain) {bound : Text → Option Text}
    (values : Bracketless bound items.keys) : '[' ∉ items.expand bound := by
  induction h generalizing bound with
  | done => exact List.not_mem_nil
  | literal _ ih =>
    rw [expand, List.mem_append, not_or]
    exact ⟨plain.1.bracket, ih plain.2 values⟩
  | tag _ ih =>
    rw [expand, List.mem_append, not_or]
    refine ⟨values.getD List.mem_cons_self plain.1, ih plain.2 fun key mem => ?_⟩
    exact values key (List.mem_cons_of_mem _ mem)
  | @child name cell inner rest own ds cs here _ _ ihi ihr =>
    rw [expand_child, List.mem_append, not_or]
    refine ⟨?_, ihr plain.2.2 values⟩
    rw [given]
    cases waiting : cell.pending with
    | some rows => exact here.pending rows waiting
    | none => exact ihi plain.2.1 fun key mem v found => here.bound.bracketless mem found

theorem marked_filled {σ : Type} {items : Items σ} (plain : items.Plain)
    {bound : Text → Option Text}
    (values : Bracketless bound items.keys) : Marked items.names (items.filled bound) := by
  induction items with
  | done => exact .plain List.not_mem_nil
  | literal text rest ih => exact .append (.plain plain.1.bracket) (ih plain.2 values)
  | tag key rest ih =>
    refine .append (.plain (values.getD List.mem_cons_self plain.1)) (ih plain.2 fun k mem => ?_)
    exact values k (List.mem_cons_of_mem _ mem)
  | child name note inner rest _ ih =>
    refine .append (.inside List.mem_cons_self (plain.2.1.marked.mono ?_))
      ((ih plain.2.2 values).mono ?_)
    · intro n mem
      exact List.mem_cons_of_mem _ (List.mem_append_left _ mem)
    · intro n mem
      exact List.mem_cons_of_mem _ (List.mem_append_right _ mem)

end Items

/-! ## Putting the children into the row -/

theorem Region.wrap_ne_nil (n inner : Text) : wrap n inner ≠ [] := by
  rw [wrap, Region.beginMarker_eq_cons]
  exact List.cons_ne_nil _ _

/-- The region of a name takes its inner text's place, if that holds no bracket. -/
theorem Region.unwrap_wrap {n inner : Text} (name : IsName n) (free : '[' ∉ inner) :
    Region.unwrap n (wrap n inner) = inner := by
  have open_ : (Region.closingPattern n).Skips inner :=
    Pattern.BeginsWith.skips_of_notMem (Region.closingPattern_beginsWith n) free
  have matched : (Region.pattern fun m => m == n).match? (wrap n inner ++ [])
      = some (Region.canonical n inner, []) :=
    Region.match?_wrap name open_ (by simp) []
  rw [List.append_nil] at matched
  rw [Region.unwrap, Pattern.replace_of_match matched, Pattern.replace_nil, List.append_nil]
  rfl

/-- A text that stands once between texts with other markers is replaced there. -/
theorem Region.replaceAll_wrap_between {ms ns : List Text} {n pre post inner new : Text}
    (name : IsName n) (before : Marked ms pre) (behind : Marked ns post)
    (hms : ∀ m ∈ ms, IsName m) (hns : ∀ m ∈ ns, IsName m) (freshMs : n ∉ ms) (freshNs : n ∉ ns) :
    Text.replaceAll (wrap n inner) new (pre ++ (wrap n inner ++ post)) = pre ++ (new ++ post) := by
  have last := behind.replaceAll_wrap hns name freshNs inner new []
  rw [Text.replaceAll_nil, List.append_nil] at last
  rw [before.replaceAll_wrap hms name freshMs, Text.replaceAll_append_self (wrap_ne_nil n inner),
    last]

/-- The row after some children were put into it. -/
def spliced (cs : List Segment) (t : Text) : Text :=
  (cs.map settled).foldl (fun t c => Text.replaceAll c.own.source c.own.output t) t

theorem spliced_cons (c : Segment) (cs : List Segment) (t : Text) :
    spliced (c :: cs) t
      = spliced cs (Text.replaceAll c.settled.own.source c.settled.own.output t) := rfl

theorem row_eq_spliced (own : Fragment) (cs : List Segment) :
    Segment.row (.node own cs)
      = Region.unwrap own.name (spliced cs (own.values.bindings.apply own.source)) := by
  rw [Segment.row_node, Segment.text_takeAll]
  rfl

namespace Represents

variable {n : Text} {cell : Cell} {items : Items Cell} {own : Fragment} {cs : List Segment}

theorem bracketless (h : Represents n cell items own) : Items.Bracketless cell.bound items.keys :=
  fun _ mem _ found => h.bound.bracketless mem found

/-- The row of a node, once it is known what the children make of its filled text. -/
theorem row_eq (h : Represents n cell items own) (plain : items.Plain) (name : IsPlain n)
    (named : IsName n) (free : '[' ∉ items.expand cell.bound)
    (children : spliced cs (wrap n (items.filled cell.bound)) = wrap n (items.expand cell.bound)) :
    Segment.row (.node own cs) = items.expand cell.bound := by
  rw [row_eq_spliced, h.name, h.source, h.bound.apply_wrap plain name, children,
    Region.unwrap_wrap named free]

/-- Where rows wait, nothing is merged before the parent takes them. -/
theorem settled_of_some (h : Represents n cell items own) {rows : Text}
    (waiting : cell.pending = some rows) : settled (.node own cs) = .node own cs := by
  have state : (Segment.node own cs).own.state = .accumulating := by
    rw [Segment.own_node, h.state, Cell.state, waiting]
  exact Segment.settled_of_accumulating state

theorem settled_of_none (h : Represents n cell items own) (waiting : cell.pending = none) :
    settled (.node own cs) = Segment.merged (.node own cs) := by
  have state : (Segment.node own cs).own.state = .drained := by
    rw [Segment.own_node, h.state, Cell.state, waiting]
  exact Segment.settled_of_drained state

/-- What a settled child has, once its row is known. -/
theorem settled_eq (h : Represents n cell items own)
    (expanded : Segment.row (.node own cs) = items.expand cell.bound) :
    (settled (.node own cs)).own.source = wrap n items.render ∧
      (settled (.node own cs)).own.output = Items.given cell items := by
  cases waiting : cell.pending with
  | some rows =>
    rw [h.settled_of_some waiting, Items.given, waiting]
    refine ⟨h.source, ?_⟩
    rw [Segment.own_node, h.output, Cell.output, waiting]
    rfl
  | none =>
    have empty : own.output = [] := by
      rw [h.output, Cell.output, waiting]
      rfl
    rw [h.settled_of_none waiting, Items.given, waiting, Segment.source_merged,
      Segment.output_merged, expanded]
    refine ⟨h.source, ?_⟩
    rw [Segment.own_node, empty]
    rfl

end Represents

namespace Items.Follows

/-- Every child is replaced where it stands, by what it gives. -/
theorem splice {items : Items Cell} {cs : List Segment} (h : items.Follows cs) (plain : items.Plain)
    (distinct : items.names.Nodup) {bound : Text → Option Text}
    (values : Bracketless bound items.keys) {ns : List Text} {pre post : Text}
    (names : ∀ m ∈ ns, IsName m) (fresh : ∀ m ∈ items.names, m ∉ ns) (before : Marked ns pre)
    (behind : Marked ns post) :
    spliced cs (pre ++ items.filled bound ++ post) = pre ++ items.expand bound ++ post := by
  induction h generalizing bound ns pre post with
  | done => rfl
  | @literal text rest cs _ ih =>
    have := ih plain.2 distinct values names fresh (before.append (.plain plain.1.bracket)) behind
    rw [filled, expand]
    simpa only [List.append_assoc] using this
  | @tag key rest cs _ ih =>
    have free := values.getD List.mem_cons_self plain.1
    have := ih plain.2 distinct (fun k mem => values k (List.mem_cons_of_mem _ mem)) names fresh
      (before.append (.plain free)) behind
    rw [filled, expand]
    simpa only [List.append_assoc] using this
  | @child name cell inner rest own ds cs here below next ihi ihr =>
    obtain ⟨plainName, plainInner, plainRest⟩ := plain
    rw [Items.names, List.nodup_cons, List.mem_append, not_or] at distinct
    obtain ⟨⟨notInner, notRest⟩, distinct⟩ := distinct
    obtain ⟨distinctInner, distinctRest, -⟩ := List.nodup_append.1 distinct
    have named : IsName name := plainName.1.isName plainName.2
    -- the child is itself a node whose children are put into its row
    have free := below.bracket_notMem_expand plainInner here.bracketless
    have mine : Marked [name] (Region.beginMarker name) := .opening List.mem_cons_self
    have mine' : Marked [name] (Region.endMarker name) := .closing List.mem_cons_self
    have inside : spliced ds (wrap name (inner.filled cell.bound))
        = wrap name (inner.expand cell.bound) := by
      refine ihi plainInner distinctInner here.bracketless ?_ ?_ mine mine'
      · exact List.forall_mem_singleton.2 named
      · intro m mem
        rw [List.mem_singleton]
        exact fun e => notInner (e ▸ mem)
    obtain ⟨source, output⟩ :=
      here.settled_eq (here.row_eq plainInner plainName.1 named free inside)
    have givenFree : '[' ∉ given cell inner := by
      rw [given]
      cases waiting : cell.pending with
      | some rows => exact here.pending rows waiting
      | none => exact free
    -- its text stands once in the row, where it was written
    have restMarked : Marked (rest.names ++ ns) (rest.filled bound ++ post) :=
      ((marked_filled plainRest values).mono (List.subset_append_left _ _)).append
        (behind.mono (List.subset_append_right _ _))
    have restNames : ∀ m ∈ rest.names ++ ns, IsName m := by
      intro m mem
      rcases List.mem_append.1 mem with mem | mem
      · exact plainRest.isName m mem
      · exact names m mem
    have restFresh : name ∉ rest.names ++ ns := by
      rw [List.mem_append, not_or]
      exact ⟨notRest, fresh name List.mem_cons_self⟩
    have step : Text.replaceAll (wrap name inner.render) (given cell inner)
          (pre ++ (wrap name inner.render ++ (rest.filled bound ++ post)))
        = pre ++ (given cell inner ++ (rest.filled bound ++ post)) :=
      Region.replaceAll_wrap_between named before restMarked names restNames
        (fresh name List.mem_cons_self) restFresh
    have later := ihr plainRest distinctRest values names
      (fun m mem => fresh m (List.mem_cons_of_mem _ (List.mem_append_right _ mem)))
      (before.append (.plain givenFree)) behind
    rw [spliced_cons, source, output, filled, expand_child]
    calc spliced cs (Text.replaceAll (wrap name inner.render) (given cell inner)
          (pre ++ (wrap name inner.render ++ rest.filled bound) ++ post))
        = spliced cs ((pre ++ given cell inner) ++ rest.filled bound ++ post) := by
          congr 1
          simpa only [List.append_assoc] using step
      _ = (pre ++ given cell inner) ++ rest.expand bound ++ post := later
      _ = pre ++ (given cell inner ++ rest.expand bound) ++ post := by
          simp only [List.append_assoc]

/-- A merge adds one pass over the items to the output. -/
theorem row {n : Text} {cell : Cell} {items : Items Cell} {own : Fragment} {cs : List Segment}
    (below : items.Follows cs) (here : Represents n cell items own) (plain : items.Plain)
    (name : IsPlain n) (named : IsName n) (distinct : (n :: items.names).Nodup) :
    Segment.row (.node own cs) = items.expand cell.bound := by
  have free := below.bracket_notMem_expand plain here.bracketless
  refine here.row_eq plain name named free ?_
  have mine : Marked [n] (Region.beginMarker n) := .opening List.mem_cons_self
  have mine' : Marked [n] (Region.endMarker n) := .closing List.mem_cons_self
  refine below.splice plain distinct.of_cons here.bracketless ?_ ?_ mine mine'
  · exact List.forall_mem_singleton.2 named
  · intro m mem
    rw [List.mem_singleton]
    exact fun e => (List.nodup_cons.1 distinct).1 (e ▸ mem)

end Items.Follows

/-! ## The tree after a merge -/

theorem Binds.of_bare_eq {items items' : Items Cell} {bound : Text → Option Text} {b : Bindings}
    (h : Binds items bound b) (same : items'.bare = items.bare) : Binds items' bound b := by
  have keys : items'.keys = items.keys := by
    rw [← Items.keys_bare, same, Items.keys_bare]
  have below : items'.keysBelow = items.keysBelow := by
    rw [← Items.keysBelow_bare, same, Items.keysBelow_bare]
  exact ⟨keys ▸ h.value, below ▸ h.entry⟩

namespace Represents

variable {n : Text} {cell : Cell} {items : Items Cell} {own : Fragment} {cs : List Segment}

/-- The items matter by their shape only. -/
theorem of_bare_eq (h : Represents n cell items own) {items' : Items Cell}
    (same : items'.bare = items.bare) : Represents n cell items' own where
  name := h.name
  source := by rw [h.source, Items.render_eq_of_bare_eq same]
  output := h.output
  state := h.state
  bound := h.bound.of_bare_eq same
  pending := h.pending

/-- A parent takes what waits. -/
theorem drain (h : Represents n cell items own) :
    Represents n { cell with pending := none } items own.drain where
  name := h.name
  source := h.source
  output := rfl
  state := rfl
  bound := h.bound
  pending := fun _ e => absurd e (by simp)

/-- A merge adds a row to what waits. -/
theorem merged (h : Represents n cell items own)
    (expanded : Segment.row (.node own cs) = items.expand cell.bound)
    (free : '[' ∉ items.expand cell.bound) :
    Represents n { cell with pending := some (cell.output ++ items.expand cell.bound) } items
      (Segment.merged (.node own cs)).own where
  name := (Segment.name_merged _).trans h.name
  source := (Segment.source_merged _).trans h.source
  output := by
    rw [Segment.output_merged, expanded, Segment.own_node, h.output]
    rfl
  state := Segment.state_merged _
  bound := by
    rw [Segment.bindings_merged]
    exact h.bound
  pending := by
    intro rows e
    cases e
    rw [List.mem_append, not_or]
    refine ⟨?_, free⟩
    rw [Cell.output]
    cases waiting : cell.pending with
    | none => exact List.not_mem_nil
    | some rows => exact h.pending rows waiting

end Represents

/-- The children after a row was made of them follow the spent items. -/
theorem Items.Follows.spent {items : Items Cell} {cs : List Segment} (h : items.Follows cs)
    (plain : items.Plain) (distinct : items.names.Nodup) :
    items.spent.Follows ((cs.map settled).map drain) := by
  induction h with
  | done => exact .done
  | literal _ ih => exact .literal (ih plain.2 distinct)
  | tag _ ih => exact .tag (ih plain.2 distinct)
  | @child name cell inner rest own ds cs here below _ ihi ihr =>
    obtain ⟨plainName, plainInner, plainRest⟩ := plain
    rw [Items.names] at distinct
    obtain ⟨distinctInner, distinctRest, -⟩ := List.nodup_append.1 distinct.of_cons
    have later := ihr plainRest distinctRest
    rw [Items.spent, List.map_cons, List.map_cons]
    cases waiting : cell.pending with
    | some rows =>
      rw [here.settled_of_some waiting]
      exact .child here.drain below later
    | none =>
      have named : IsName name := plainName.1.isName plainName.2
      have whole : (name :: inner.names).Nodup :=
        distinct.sublist ((List.sublist_append_left _ _).cons_cons name)
      have free := below.bracket_notMem_expand plainInner here.bracketless
      have expanded := below.row here plainInner plainName.1 named whole
      have mine := (here.merged expanded free).drain
      rw [here.settled_of_none waiting, Segment.merged_node, Segment.drain]
      rw [Segment.merged_node] at mine
      refine .child (mine.of_bare_eq (Items.bare_spent inner)) (ihi plainInner distinctInner) later

/-- A merge of the segment follows a merge of the template. -/
theorem Template.Follows.merge {t : Template Cell} {s : Segment} (h : t.Follows s)
    (sound : t.Sound) :
    t.merge.Follows s.merged := by
  obtain ⟨own, cs⟩ := s
  obtain ⟨here, below⟩ := h
  have free := below.bracket_notMem_expand sound.plain here.bracketless
  have expanded := below.row here sound.plain sound.name.1 sound.isName sound.distinct
  constructor
  · exact (here.merged expanded free).of_bare_eq (Items.bare_spent _)
  · rw [Segment.children_merged]
    exact below.spent sound.plain sound.distinct.of_cons

end DocumentMerge
