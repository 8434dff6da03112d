import DocumentMerge.Proofs.Segment.Reachable

/-!
# Segments with nothing waiting

Between two rows of its parent nothing waits in a segment, nor anywhere below it.  Then outputs play
no part in what a merge will do, and two trees that differ in their outputs only can be compared.

* `Quiet`: nothing waits in a segment or below it; `Rested`: nothing waits below it.
* `rested_merged`: a merge empties everything below the segment.
* `emptied`: a segment with its outputs forgotten, so that names, texts and bindings are left.
  Merging changes none of these (`emptied_merged`).
* `row_eq_of_emptied_eq`: two rested segments that agree when emptied have the same row.
-/

namespace DocumentMerge

namespace Segment

/-! ## Rested segments -/

/-- A segment in which nothing waits, nor below it. -/
inductive Quiet : Segment → Prop
  | node {own : Fragment} {children : List Segment} : own.state = .drained → own.output = [] →
    (∀ c ∈ children, Quiet c) → Quiet (.node own children)

/-- A segment below which nothing waits. -/
def Rested (s : Segment) : Prop :=
  ∀ c ∈ s.children, Quiet c

theorem Quiet.state_eq {c : Segment} (h : Quiet c) : c.own.state = .drained := by
  cases h
  assumption

theorem Quiet.output_eq {c : Segment} (h : Quiet c) : c.own.output = [] := by
  cases h
  assumption

theorem Quiet.rested {c : Segment} (h : Quiet c) : Rested c := by
  cases h with
  | node _ _ below => exact below

theorem Rested.quiet_drain {c : Segment} (h : Rested c) : Quiet c.drain := by
  obtain ⟨own, cs⟩ := c
  exact .node rfl rfl h

/-- A merge empties everything below the segment. -/
theorem rested_merged {s : Segment} (h : ∀ c ∈ s.children, Rested c) : Rested s.merged := by
  induction s using induct with
  | node own cs ih =>
    intro d mem
    rw [children_merged, List.map_map] at mem
    obtain ⟨c, memc, rfl⟩ := List.mem_map.1 mem
    show Quiet c.settled.drain
    cases state : c.own.state with
    | drained =>
      rw [settled_of_drained state]
      exact Rested.quiet_drain (ih c memc fun e below => (h c memc e below).rested)
    | accumulating =>
      rw [settled_of_accumulating state]
      exact (h c memc).quiet_drain

/-- A segment to which nothing has happened is quiet. -/
theorem quiet_of_parse {name source : Text} {room : Nat} {s : Segment}
    (h : parse name source room = .ok s) : Quiet s :=
  parse_induct (fun _ _ _ _ below => .node rfl rfl below) h

/-! ## Segments with their outputs forgotten -/

mutual

/-- A segment with its outputs forgotten: names, texts and bindings are left. -/
def emptied : Segment → Segment
  | .node own children =>
    .node { Fragment.ofRegion own.name own.source with values := ⟨own.values.bindings, [], []⟩ }
      (emptiedAll children)

/-- Several segments with their outputs forgotten. -/
def emptiedAll : List Segment → List Segment
  | [] => []
  | c :: cs => emptied c :: emptiedAll cs

end

theorem emptiedAll_eq_map (cs : List Segment) : emptiedAll cs = cs.map emptied := by
  induction cs with
  | nil => rfl
  | cons c cs ih => rw [emptiedAll, ih, List.map_cons]

theorem emptied_node (own : Fragment) (cs : List Segment) :
    emptied (.node own cs) =
      .node { Fragment.ofRegion own.name own.source with values := ⟨own.values.bindings, [], []⟩ }
        (cs.map emptied) := by
  rw [emptied, emptiedAll_eq_map]

@[simp] theorem children_emptied (s : Segment) : s.emptied.children = s.children.map emptied := by
  obtain ⟨own, cs⟩ := s
  rw [emptied_node]
  rfl

@[simp] theorem name_emptied (s : Segment) : s.emptied.own.name = s.own.name := by
  obtain ⟨own, cs⟩ := s
  rfl

@[simp] theorem source_emptied (s : Segment) : s.emptied.own.source = s.own.source := by
  obtain ⟨own, cs⟩ := s
  rfl

@[simp] theorem bindings_emptied (s : Segment) :
    s.emptied.own.values.bindings = s.own.values.bindings := by
  obtain ⟨own, cs⟩ := s
  rfl

/-- What is left of a node is settled by its name, source and bindings and by what is left of its
children. -/
theorem emptied_eq {s t : Segment} (name : s.own.name = t.own.name)
    (source : s.own.source = t.own.source)
    (bindings : s.own.values.bindings = t.own.values.bindings)
    (below : s.children.map emptied = t.children.map emptied) : s.emptied = t.emptied := by
  obtain ⟨own, cs⟩ := s
  obtain ⟨own', ds⟩ := t
  have name : own.name = own'.name := name
  have source : own.source = own'.source := source
  have bindings : own.values.bindings = own'.values.bindings := bindings
  have below : cs.map emptied = ds.map emptied := below
  rw [emptied_node, emptied_node, name, source, bindings, below]

@[simp] theorem emptied_drain (s : Segment) : s.drain.emptied = s.emptied :=
  emptied_eq (by simp [Fragment.drain]) (by simp [Fragment.drain]) (by simp [Fragment.drain])
    (by simp)

@[simp] theorem emptied_merged (s : Segment) : s.merged.emptied = s.emptied := by
  induction s using induct with
  | node own cs ih =>
    refine emptied_eq (name_merged _) (source_merged _) (bindings_merged _) ?_
    rw [children_merged, List.map_map, List.map_map]
    refine List.map_congr_left fun c mem => ?_
    rw [Function.comp_apply, Function.comp_apply, emptied_drain, settled]
    split
    · exact ih c mem
    · rfl

/-- What a child puts into the row of its parent: the text that is replaced, and by what. -/
def gift (c : Segment) : Text × Text :=
  (c.own.source, c.settled.own.output)

/-- A row is settled by the node's own text and bindings and by what the children put into it. -/
theorem row_congr {s t : Segment} (name : s.own.name = t.own.name)
    (source : s.own.source = t.own.source)
    (bindings : s.own.values.bindings = t.own.values.bindings)
    (gifts : s.children.map gift = t.children.map gift) : row s = row t := by
  have text (u : Segment) : (takeAll u.own.firstRow (u.children.map settled)).text
      = (u.children.map gift).foldl (fun t g => Text.replaceAll g.1 g.2 t)
          (u.own.values.bindings.apply u.own.source) := by
    rw [text_takeAll, List.foldl_map, List.foldl_map]
    congr 1
    funext t c
    rw [gift, source_eq_of_skeleton_eq (skeleton_settled c)]
  rw [row, row, text, text, name, source, bindings, gifts]

/-- A quiet child gives its own row. -/
theorem Quiet.gift_eq {c : Segment} (h : Quiet c) : c.gift = (c.own.source, c.row) := by
  rw [gift, settled_of_drained h.state_eq, output_merged, h.output_eq, List.nil_append]

/-- Below a rested segment outputs play no part. -/
theorem row_emptied {s : Segment} (h : Rested s) : row s.emptied = row s := by
  induction s using induct with
  | node own cs ih =>
    refine row_congr (name_emptied _) (source_emptied _) (bindings_emptied _) ?_
    rw [children_emptied, List.map_map]
    refine List.map_congr_left fun c mem => ?_
    have quiet : Quiet c := h c mem
    have drained : c.emptied.own.state = .drained := by
      obtain ⟨own, cs⟩ := c
      rfl
    have empty : c.emptied.own.output = [] := by
      obtain ⟨own, cs⟩ := c
      rfl
    rw [Function.comp_apply, quiet.gift_eq, gift, settled_of_drained drained, output_merged, empty,
      source_emptied, ih c mem quiet.rested, List.nil_append]

/-- Rested segments that agree when emptied have the same row. -/
theorem row_eq_of_emptied_eq {s t : Segment} (hs : Rested s) (ht : Rested t)
    (same : s.emptied = t.emptied) : row s = row t := by
  rw [← row_emptied hs, same, row_emptied ht]

/-- Pointwise equality of two lists of one length. -/
theorem map_eq_map_of_zip {β : Type} {cs ds : List Segment} {f g : Segment → β}
    (lengths : cs.length = ds.length) (same : ∀ p ∈ cs.zip ds, f p.1 = g p.2) :
    cs.map f = ds.map g := by
  induction cs generalizing ds with
  | nil =>
    obtain rfl := List.length_eq_zero_iff.1 lengths.symm
    rfl
  | cons c cs ih =>
    cases ds with
    | nil => cases lengths
    | cons d ds =>
      rw [List.zip_cons_cons] at same
      rw [List.map_cons, List.map_cons, same (c, d) List.mem_cons_self,
        ih (Nat.succ.inj lengths) fun p mem => same p (List.mem_cons_of_mem _ mem)]

theorem eq_of_mem_zip_of_map_eq {β : Type} {cs ds : List Segment} {f : Segment → β}
    (same : cs.map f = ds.map f) : ∀ p ∈ cs.zip ds, f p.1 = f p.2 := by
  induction cs generalizing ds with
  | nil => exact fun p mem => absurd mem (by simp)
  | cons c cs ih =>
    cases ds with
    | nil => exact fun p mem => absurd mem (by simp)
    | cons d ds =>
      obtain ⟨here, later⟩ := List.cons.inj same
      intro p mem
      rw [List.zip_cons_cons] at mem
      rcases List.mem_cons.1 mem with rfl | mem
      · exact here
      · exact ih later p mem

end Segment

end DocumentMerge
