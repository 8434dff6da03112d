import DocumentMerge.Proofs.Segment.Reachable

/-!
# The tree of a text

Discovery looks through a text for regions, through these for further ones, and so on, but not
without end.  Here the tree is defined that a discovery without a limit finds, and the limit is said to
be one on the height of this tree.

* `discover name source`: the tree without a limit.  The regions of a text are not longer than it, and
  the one case in which a child has the whole text of its parent cannot occur twice in a row
  (`weight_lt`).
* `height`, `namesAt k`: the height of a tree and the names `k` levels below its root, of which there
  are none exactly if the height is less than `k`.
* `parse_eq`: discovery with a limit gives this tree, or else the first name below the limit.
* `WellFormed`: names of siblings, where the texts of children stand, and that nothing is waiting.
* `Reachable.skeleton_eq`: whatever is done with a segment, its shape is that of the tree of its text.
* `discovery_well_formed`: all of it for every name and text, and that no calls change the shape.
-/

namespace DocumentMerge.Segment

variable {name source : Text} {r : Region} {k : Nat} {s : Segment}

/-! ## Discovery without a limit -/

/-- What grows less from a segment to its children: the length of the text, and for texts of one length
it counts if the text does not begin with a region of the segment's name. -/
def weight (name source : Text) : Nat :=
  2 * source.length + if Region.at? (fun n => n == name) source = none then 1 else 0

/-- A child with the whole text of its parent begins with its own marker, and then the parent does not
begin with a marker of its own. -/
theorem weight_lt (h : r ∈ childRegions name source) :
    weight r.name r.outer < weight name source := by
  obtain ⟨differ, before, after, stands⟩ := standsIn_of_mem_childRegions h
  have child : Region.at? (fun n => n == r.name) r.outer ≠ none := by
    have alone : r.StandsIn (r.outer ++ []) [] [] := stands.between [] []
    rw [List.append_nil] at alone
    have found : Region.at? (fun n => n == r.name) r.outer = some (r, []) :=
      Region.at?_eq_some_iff.2 ⟨beq_self_eq_true r.name, alone⟩
    rw [found]
    exact Option.some_ne_none _
  rw [weight, weight, if_neg child]
  have whole := congrArg List.length stands.whole
  simp only [List.length_append] at whole
  split
  · omega
  · next parent =>
    -- if the lengths agreed, the markers of both names would begin the text
    have shorter : r.outer.length ≠ source.length := by
      intro same
      obtain ⟨⟨q, rest⟩, found⟩ := Option.ne_none_iff_exists'.1 parent
      obtain ⟨own, front⟩ := Region.at?_eq_some_iff.1 found
      obtain rfl : before = [] := List.eq_nil_of_length_eq_zero (by omega)
      have cut := stands.whole.symm.trans front.whole
      simp only [List.nil_append, Region.outer_append] at cut
      exact differ ((stands.opens.name_eq front.opens cut).trans (by simpa using own))
    omega

/-- The segment of a text with all its descendants, on any number of levels. -/
def discover (name source : Text) : Segment :=
  .node (Fragment.ofRegion name source)
    ((childRegions name source).attach.map fun ⟨r, _⟩ => discover r.name r.outer)
termination_by weight name source
decreasing_by exact weight_lt ‹_›

theorem discover_eq (name source : Text) : discover name source =
    .node (Fragment.ofRegion name source)
      ((childRegions name source).map fun r => discover r.name r.outer) := by
  rw [discover]
  simp only [List.map_subtype, List.unattach_attach]

/-! ## Levels of a tree -/

mutual

/-- The number of levels below a segment. -/
def height : Segment → Nat
  | .node _ children => levels children

/-- The number of levels of some segments and what is below them. -/
def levels : List Segment → Nat
  | [] => 0
  | c :: cs => max (height c + 1) (levels cs)

end

/-- The names of the segments that stand some levels below a segment, in order. -/
def namesAt : Nat → Segment → List Text
  | 0, s => [s.name]
  | k + 1, s => s.children.flatMap (namesAt k)

theorem levels_lt_iff {cs : List Segment} : levels cs < k + 1 ↔ ∀ c ∈ cs, c.height < k := by
  induction cs with
  | nil => simp [levels]
  | cons c cs ih => rw [levels, Nat.max_lt, Nat.add_lt_add_iff_right, ih, List.forall_mem_cons]

/-- A level is empty exactly if the tree does not reach down to it. -/
theorem namesAt_eq_nil_iff : s.namesAt k = [] ↔ s.height < k := by
  induction k generalizing s with
  | zero => simp [namesAt]
  | succ k ih =>
    obtain ⟨own, cs⟩ := s
    rw [namesAt, List.flatMap_eq_nil_iff, height, levels_lt_iff]
    simp only [children_node, ih]

/-! ## The limit -/

/-- The answer of a discovery, given the names of the segments below the limit. -/
def within {α : Type} (below : List Text) (found : α) : Except Error α :=
  match below with
  | [] => .ok found
  | n :: _ => .error (.nestingTooDeep n depthLimit)

/-- Several discoveries one after the other fail with the first name below the limit. -/
theorem mapM_within {ι α : Type} (below : ι → List Text) (found : ι → α) (is : List ι) :
    is.mapM (fun i => within (below i) (found i)) = within (is.flatMap below) (is.map found) := by
  induction is with
  | nil => rfl
  | cons i is ih =>
    rw [List.mapM_cons, ih, List.flatMap_cons, List.map_cons]
    cases below i with
    | cons n _ => rfl
    | nil =>
      rw [List.nil_append]
      cases is.flatMap below <;> rfl

/-- **Discovery with a limit** finds the tree that a discovery without a limit finds, or fails with the
first name below the limit. -/
theorem parse_eq (name source : Text) (room : Nat) :
    parse name source room
      = within ((discover name source).namesAt (room + 1)) (discover name source) := by
  induction room generalizing name source with
  | zero =>
    rw [parse, discover_eq, namesAt, children_node, List.flatMap_map]
    cases childRegions name source with
    | nil => rfl
    | cons r rs =>
      rw [List.flatMap_cons, discover_eq]
      rfl
  | succ room ih =>
    rw [parse, discover_eq, namesAt, children_node, List.flatMap_map]
    simp only [ih, mapM_within]
    cases (childRegions name source).flatMap fun r =>
      (discover r.name r.outer).namesAt (room + 1) <;> rfl

/-! ## What discovery guarantees -/

/-- How a tree is built: siblings have different names, and other ones than their parent; the text of a
child stands in that of its parent, from an opening marker of its name to the nearest closing one; no
segment has merged anything. -/
inductive WellFormed : Segment → Prop
  | node {own : Fragment} {children : List Segment} :
    own.state = .drained → own.output = [] →
    (children.map fun c => c.name).Nodup →
    (∀ c ∈ children, c.name ≠ own.name) →
    (∀ c ∈ children, ∃ (r : Region) (before after : Text), r.name = c.name ∧
      r.outer = c.own.source ∧ r.StandsIn own.source before after) →
    (∀ c ∈ children, WellFormed c) → WellFormed (.node own children)

theorem wellFormed_of_parse {room : Nat} (h : parse name source room = .ok s) : WellFormed s := by
  refine parse_induct (fun name source cs regions below => ?_) h
  have origin : ∀ c ∈ cs, ∃ r ∈ childRegions name source, c.own = Fragment.ofRegion r.name r.outer :=
    fun c mem => exists_of_mem_of_forall₂ regions mem
  refine .node rfl rfl (map_name_of_forall₂ regions ▸ nodup_firstOfName _) (fun c mem => ?_)
    (fun c mem => ?_) below
  · obtain ⟨r, memr, own⟩ := origin c mem
    rw [Segment.name, own]
    exact (standsIn_of_mem_childRegions memr).1
  · obtain ⟨r, memr, own⟩ := origin c mem
    obtain ⟨-, before, after, stands⟩ := standsIn_of_mem_childRegions memr
    exact ⟨r, before, after, by rw [Segment.name, own]; rfl, by rw [own]; rfl, stands⟩

/-- Calls do not change the shape of a tree, whatever they answer. -/
theorem skeleton_run (steps : List (List Text × Action)) (s : Segment) (σ : Session) :
    (run steps s σ).1.skeleton = s.skeleton := by
  induction steps generalizing s σ with
  | nil => rfl
  | cons step steps ih =>
    obtain ⟨path, a⟩ := step
    rcases done : onPath a.call path s σ with ⟨r, t, τ⟩
    rw [run, done, ih]
    exact ((tame_call a).onPath path).skeleton_eq done

theorem own_discover (name source : Text) :
    (discover name source).own = Fragment.ofRegion name source := by
  rw [discover_eq, own_node]

theorem skeleton_discover (name source : Text) :
    (discover name source).skeleton = discover name source := by
  rw [discover_eq, skeleton_node, List.map_map]
  exact congrArg _ (List.map_congr_left fun r mem => skeleton_discover r.name r.outer)
termination_by weight name source
decreasing_by exact weight_lt mem

/-- A limited discovery that succeeds finds what one without a limit finds. -/
theorem eq_discover_of_parse {room : Nat} (h : parse name source room = .ok s) :
    s = discover name source := by
  rw [parse_eq] at h
  cases below : (discover name source).namesAt (room + 1) with
  | nil =>
    rw [below] at h
    cases h
    rfl
  | cons n ns =>
    rw [below] at h
    cases h

/-- The children in the shape of a text stand for its regions. -/
theorem exists_region_of_skeleton_eq {c : Segment} (h : s.skeleton = discover name source)
    (mem : c ∈ s.children) : ∃ r ∈ childRegions name source,
      c.own.name = r.name ∧ c.own.source = r.outer ∧ c.skeleton = discover r.name r.outer := by
  have below := congrArg children h
  rw [children_skeleton, discover_eq, children_node] at below
  have shape : c.skeleton ∈ s.children.map skeleton := List.mem_map_of_mem mem
  rw [below] at shape
  obtain ⟨r, memr, same⟩ := List.mem_map.1 shape
  refine ⟨r, memr, ?_, ?_, same.symm⟩
  · rw [← name_skeleton c, ← same, own_discover]
    rfl
  · rw [← source_skeleton c, ← same, own_discover]
    rfl

/-- Every reachable segment has the shape that its text gives. -/
theorem Reachable.skeleton_eq (h : Reachable s) :
    s.skeleton = discover s.own.name s.own.source := by
  induction h with
  | parsed built =>
    rw [eq_discover_of_parse built, skeleton_discover, own_discover]
    rfl
  | called path a _ done ih =>
    have kept := ((tame_call a).onPath path).skeleton_eq done
    rw [kept, ih, name_eq_of_skeleton_eq kept, source_eq_of_skeleton_eq kept]
  | child _ mem ih =>
    obtain ⟨r, -, name, source, shape⟩ := exists_region_of_skeleton_eq ih mem
    rw [shape, name, source]

/-- The children of a reachable segment stand for the regions of its text. -/
theorem Reachable.exists_region {c : Segment} (h : Reachable s) (mem : c ∈ s.children) :
    ∃ r ∈ childRegions s.own.name s.own.source, c.own.name = r.name ∧ c.own.source = r.outer := by
  obtain ⟨r, memr, name, source, -⟩ := exists_region_of_skeleton_eq h.skeleton_eq mem
  exact ⟨r, memr, name, source⟩

/-- **The tree of a text.**  A text gives the tree that a discovery without a limit finds, if the height
of this tree is at most 64, and otherwise it fails with the first name that stands too deep.  The tree is
well formed, and no calls change names, sources or children. -/
theorem discovery_well_formed (name source : Text) :
    (((discover name source).height ≤ 64 ∧ ofRegion name source = .ok (discover name source)) ∨
      (64 < (discover name source).height ∧ ∃ n,
        ((discover name source).namesAt 65).head? = some n ∧
          ofRegion name source = .error (.nestingTooDeep n 64))) ∧
    ∀ s, ofRegion name source = .ok s →
      WellFormed s ∧ ∀ steps σ, (run steps s σ).1.skeleton = s.skeleton := by
  refine ⟨?_, fun s built => ⟨wellFormed_of_parse built, fun steps σ => skeleton_run steps s σ⟩⟩
  have parsed : ofRegion name source
      = within ((discover name source).namesAt 65) (discover name source) :=
    parse_eq name source depthLimit
  rw [parsed]
  by_cases low : (discover name source).height ≤ 64
  · rw [namesAt_eq_nil_iff.2 (Nat.lt_succ_of_le low)]
    exact .inl ⟨low, rfl⟩
  · have high := Nat.lt_of_not_le low
    have filled : (discover name source).namesAt 65 ≠ [] := fun none =>
      Nat.not_lt_of_le high (namesAt_eq_nil_iff.1 none)
    obtain ⟨n, ns, names⟩ := List.exists_cons_of_ne_nil filled
    rw [names]
    exact .inr ⟨high, n, rfl, rfl⟩

end DocumentMerge.Segment
