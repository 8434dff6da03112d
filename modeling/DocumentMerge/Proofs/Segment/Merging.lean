import DocumentMerge.Proofs.Session.Detached
import DocumentMerge.Segment.Merge

/-!
# What a merge does

`Segment.merge` works its way down and up a tree of segments, and it may stop half-way.  Every
theorem about merging rests on the equations of this file, and none of them opens the definition
again.

* `induct` is the induction over a segment tree: a node may assume the statement of its children.
* `merge_cases` says all that a merge can do, and `mergeChildren_cons_of_ok` /
  `mergeChildren_cons_of_error` say what happens to the first of several children: it is *settled*,
  which merges it if nothing waits in it, and then it is put into the row.
* `merged` is the tree that a successful merge leaves, as a function of the tree alone.
  `eq_merged_of_merge` is the reason why the session may be forgotten in every statement about
  output, and `merge_of_no_working` says that without a working copy no merge fails.
* `row` is the text that a merge adds to the output (`output_merged`): the fragment with its values,
  in which the text of every child is replaced, one child after the other, by the output of the
  settled child, and from which the markers of the segment's own name are taken away.
-/

namespace DocumentMerge

namespace Segment

/-- Induction over a tree: a node may assume the statement of its children. -/
@[elab_as_elim]
theorem induct {P : Segment → Prop}
    (node : ∀ own children, (∀ c ∈ children, P c) → P (.node own children)) : ∀ s, P s
  | .node own children => node own children fun c _ => induct node c
termination_by s => sizeOf s
decreasing_by
  have := List.sizeOf_lt_of_mem ‹c ∈ children›
  simp only [Segment.node.sizeOf_spec]
  omega

/-! ## One step -/

/-- Prepares a child for its parent: it is merged unless output is waiting in it. -/
def settle : Call Unit := fun c σ =>
  match c.own.state with
  | .drained => merge c σ
  | .accumulating => (.ok (), c, σ)

theorem settle_of_drained {c : Segment} (h : c.own.state = .drained) (σ : Session) :
    settle c σ = merge c σ := by
  rw [settle, h]

theorem settle_of_accumulating {c : Segment} (h : c.own.state = .accumulating) (σ : Session) :
    settle c σ = (.ok (), c, σ) := by
  rw [settle, h]

/-- A segment after its parent took the output and the files to list. -/
def drain : Segment → Segment
  | .node own children => .node own.drain children

@[simp] theorem own_drain (c : Segment) : c.drain.own = c.own.drain := by
  cases c
  rfl

@[simp] theorem children_drain (c : Segment) : c.drain.children = c.children := by
  cases c
  rfl

end Segment

/-- The row of a fragment before any child is put into it. -/
def Fragment.firstRow (f : Fragment) : Row :=
  ⟨f.values.bindings.apply f.source, f.values.listed⟩

namespace Segment

@[simp] theorem mergeChildren_nil (row : Row) (σ : Session) :
    mergeChildren row [] σ = (.ok (), row, [], σ) := by
  rw [mergeChildren]

theorem mergeChildren_cons_of_error {row : Row} {c d : Segment} {rest : List Segment}
    {σ τ : Session} {cause : Error} (h : settle c σ = (.error cause, d, τ)) :
    mergeChildren row (c :: rest) σ = (.error cause, row, d :: rest, τ) := by
  obtain ⟨own, inner⟩ := c
  rw [mergeChildren]
  cases state : own.state with
  | drained =>
    rw [settle, own_node, state] at h
    simp only [h]
  | accumulating =>
    rw [settle, own_node, state] at h
    cases h

theorem mergeChildren_cons_of_ok {row : Row} {c d : Segment} {rest : List Segment}
    {σ τ : Session} (h : settle c σ = (.ok (), d, τ)) :
    mergeChildren row (c :: rest) σ =
      ((mergeChildren (row.take d.own) rest τ).1, (mergeChildren (row.take d.own) rest τ).2.1,
        d.drain :: (mergeChildren (row.take d.own) rest τ).2.2.1,
        (mergeChildren (row.take d.own) rest τ).2.2.2) := by
  obtain ⟨own, inner⟩ := c
  obtain ⟨own', inner'⟩ := d
  rw [mergeChildren]
  cases state : own.state with
  | drained =>
    rw [settle, own_node, state] at h
    simp only [h]
    rfl
  | accumulating =>
    rw [settle, own_node, state] at h
    cases h
    rfl

/-- All that a merge can do: fail at the pictures, fail at a child, or succeed. -/
theorem merge_cases {own : Fragment} {children : List Segment} {σ τ : Session}
    {r : Except Error Unit} {t : Segment} (h : merge (.node own children) σ = (r, t, τ)) :
    (∃ cause, σ.embed own.values.pictures = (.error cause, τ) ∧ r = .error cause ∧
      t = .node own children) ∨
    ∃ σ', σ.embed own.values.pictures = (.ok (), σ') ∧
      ((∃ cause row ds, mergeChildren own.firstRow children σ' = (.error cause, row, ds, τ) ∧
          r = .error cause ∧ t = .node (own.list row) ds) ∨
        ∃ row ds, mergeChildren own.firstRow children σ' = (.ok (), row, ds, τ) ∧
          r = .ok () ∧ t = .node (own.finish row) ds) := by
  rw [merge] at h
  split at h
  · next cause σ' embedded =>
    cases h
    exact .inl ⟨cause, embedded, rfl, rfl⟩
  · next σ' embedded =>
    refine .inr ⟨σ', embedded, ?_⟩
    simp only at h
    split at h
    · next row ds τ' done =>
      cases h
      exact .inr ⟨row, ds, done, rfl, rfl⟩
    · next cause row ds τ' stopped =>
      cases h
      exact .inl ⟨cause, row, ds, stopped, rfl, rfl⟩

/-! ## Sessions

A merge does nothing to the session but copying pictures, again and again.  So what copying keeps is
kept by the whole merge, and the merge fails only as copying can. -/

/-- On this segment a call keeps what `I` says of the session, and fails only with causes that `E`
allows. -/
def Within {α : Type} (I : Session → Prop) (E : Error → Prop) (call : Call α) (s : Segment) :
    Prop :=
  ∀ σ, I σ → I (call s σ).2.2 ∧ ∀ cause, (call s σ).1 = .error cause → E cause

section Within

variable {I : Session → Prop} {E : Error → Prop}

theorem within_mergeChildren {children : List Segment}
    (each : ∀ c ∈ children, Within I E merge c) (row : Row) {σ : Session} (h : I σ) :
    I (mergeChildren row children σ).2.2.2 ∧
      ∀ cause, (mergeChildren row children σ).1 = .error cause → E cause := by
  induction children generalizing row σ with
  | nil =>
    rw [mergeChildren_nil]
    exact ⟨h, fun cause failed => by cases failed⟩
  | cons c rest ih =>
    have kept : I (settle c σ).2.2 ∧ ∀ cause, (settle c σ).1 = .error cause → E cause := by
      rw [settle]
      split
      · exact each c List.mem_cons_self σ h
      · exact ⟨h, fun cause failed => by cases failed⟩
    rcases settled : settle c σ with ⟨cause | _, d, τ⟩
    · rw [settled] at kept
      rw [mergeChildren_cons_of_error settled]
      exact kept
    · rw [settled] at kept
      rw [mergeChildren_cons_of_ok settled]
      exact ih (fun c mem => each c (List.mem_cons_of_mem _ mem)) _ kept.1

/-- The fragments of a child are fragments of its parent. -/
theorem fragments_subset {own : Fragment} {children : List Segment} {c : Segment}
    (mem : c ∈ children) : fragments c ⊆ fragments (.node own children) := by
  have below : fragments c ⊆ descendants children := by
    induction children with
    | nil => exact absurd mem List.not_mem_nil
    | cons d rest ih =>
      rw [descendants]
      rcases List.mem_cons.1 mem with rfl | mem
      · exact List.subset_append_left _ _
      · exact List.Subset.trans (ih mem) (List.subset_append_right _ _)
  rw [fragments]
  exact List.Subset.trans below (List.subset_cons_self _ _)

/-- What copying the pictures of each of its fragments keeps, a merge keeps. -/
theorem within_merge {s : Segment}
    (embed : ∀ f ∈ fragments s, ∀ σ, I σ → I (σ.embed f.values.pictures).2 ∧
      ∀ cause, (σ.embed f.values.pictures).1 = .error cause → E cause) : Within I E merge s := by
  induction s using induct with
  | node own children ih =>
    intro σ h
    have here := embed own (by rw [fragments]; exact List.mem_cons_self) σ h
    have each : ∀ c ∈ children, Within I E merge c := fun c mem =>
      ih c mem fun f there => embed f (fragments_subset mem there)
    rcases called : merge (.node own children) σ with ⟨r, t, τ⟩
    rcases merge_cases called with ⟨cause, embedded, rfl, -⟩ | ⟨σ', embedded, done⟩
    · rw [embedded] at here
      exact here
    · rw [embedded] at here
      have below := within_mergeChildren each own.firstRow here.1
      rcases done with ⟨cause, row, ds, stopped, rfl, -⟩ | ⟨row, ds, finished, rfl, -⟩
      · rw [stopped] at below
        exact below
      · rw [finished] at below
        exact below

end Within

/-- Merging keeps the detached form of the session. -/
@[simp] theorem detached_merge (s : Segment) (σ : Session) :
    (merge s σ).2.2.detached = σ.detached :=
  (within_merge (I := fun τ => τ.detached = σ.detached) (E := fun _ => True)
    (fun _ _ τ same => ⟨(τ.detached_embed _).trans same, fun _ _ => trivial⟩) σ rfl).1

/-! ## The tree that a merge leaves -/

/-- Puts the outputs of several children into a row, one after the other. -/
def takeAll (row : Row) (children : List Segment) : Row :=
  children.foldl (fun row c => row.take c.own) row

@[simp] theorem takeAll_nil (row : Row) : takeAll row [] = row := rfl

@[simp] theorem takeAll_cons (row : Row) (c : Segment) (cs : List Segment) :
    takeAll row (c :: cs) = takeAll (row.take c.own) cs := rfl

theorem takeAll_append (row : Row) (cs ds : List Segment) :
    takeAll row (cs ++ ds) = takeAll (takeAll row cs) ds :=
  List.foldl_append

mutual

/-- The segment that a successful merge leaves. -/
def merged : Segment → Segment
  | .node own children =>
    let settled := settledAll children
    .node (own.finish (takeAll own.firstRow settled)) (settled.map drain)

/-- The children of a segment when each has been settled. -/
def settledAll : List Segment → List Segment
  | [] => []
  | .node own inner :: rest =>
    (match own.state with
      | .drained => merged (.node own inner)
      | .accumulating => .node own inner) :: settledAll rest

end

/-- A child that has been settled. -/
def settled (c : Segment) : Segment :=
  match c.own.state with
  | .drained => merged c
  | .accumulating => c

theorem settled_of_drained {c : Segment} (h : c.own.state = .drained) : c.settled = c.merged := by
  rw [settled, h]

theorem settled_of_accumulating {c : Segment} (h : c.own.state = .accumulating) :
    c.settled = c := by
  rw [settled, h]

theorem settledAll_eq_map (children : List Segment) :
    settledAll children = children.map settled := by
  induction children with
  | nil => rfl
  | cons c rest ih =>
    obtain ⟨own, inner⟩ := c
    rw [settledAll, ih]
    rfl

theorem merged_node (own : Fragment) (children : List Segment) :
    merged (.node own children) =
      .node (own.finish (takeAll own.firstRow (children.map settled)))
        ((children.map settled).map drain) := by
  rw [merged, settledAll_eq_map]

theorem eq_of_mergeChildren {children : List Segment}
    (each : ∀ c ∈ children, ∀ {σ τ : Session} {t : Segment},
      merge c σ = (.ok (), t, τ) → t = c.merged) {row row' : Row} {ds : List Segment}
    {σ τ : Session} (h : mergeChildren row children σ = (.ok (), row', ds, τ)) :
    row' = takeAll row (children.map settled) ∧ ds = (children.map settled).map drain := by
  induction children generalizing row ds σ with
  | nil =>
    rw [mergeChildren_nil] at h
    cases h
    exact ⟨rfl, rfl⟩
  | cons c rest ih =>
    rcases done : settle c σ with ⟨_ | _, d, σ'⟩
    · rw [mergeChildren_cons_of_error done] at h
      cases h
    · have here : d = c.settled := by
        cases state : c.own.state with
        | drained =>
          rw [settle_of_drained state] at done
          rw [settled_of_drained state]
          exact each c List.mem_cons_self done
        | accumulating =>
          rw [settle_of_accumulating state] at done
          cases done
          rw [settled_of_accumulating state]
      rw [mergeChildren_cons_of_ok done] at h
      rcases later : mergeChildren (row.take d.own) rest σ' with ⟨r, row₁, ds₁, τ₁⟩
      rw [later] at h
      cases h
      obtain ⟨rfl, rfl⟩ := ih (fun c mem => each c (List.mem_cons_of_mem _ mem)) later
      rw [here, List.map_cons]
      exact ⟨rfl, rfl⟩

/-- What a successful merge leaves is determined by the tree alone. -/
theorem eq_merged_of_merge {s t : Segment} {σ τ : Session} (h : merge s σ = (.ok (), t, τ)) :
    t = s.merged := by
  induction s using induct generalizing σ τ t with
  | node own children ih =>
    rcases merge_cases h with ⟨cause, -, e, -⟩ | ⟨σ', -, ⟨cause, row, ds, -, e, -⟩ | done⟩
    · cases e
    · cases e
    · obtain ⟨row, ds, finished, -, rfl⟩ := done
      obtain ⟨rfl, rfl⟩ := eq_of_mergeChildren (fun c mem => ih c mem) finished
      rw [merged_node]

theorem mergeChildren_of_no_working {σ : Session} {children : List Segment}
    (each : ∀ c ∈ children, merge c σ = (.ok (), c.merged, σ)) (row : Row) :
    mergeChildren row children σ =
      (.ok (), takeAll row (children.map settled), (children.map settled).map drain, σ) := by
  induction children generalizing row with
  | nil => rw [mergeChildren_nil]; rfl
  | cons c rest ih =>
    have done : settle c σ = (.ok (), c.settled, σ) := by
      cases state : c.own.state with
      | drained =>
        rw [settle_of_drained state, settled_of_drained state]
        exact each c List.mem_cons_self
      | accumulating => rw [settle_of_accumulating state, settled_of_accumulating state]
    rw [mergeChildren_cons_of_ok done, ih fun c mem => each c (List.mem_cons_of_mem _ mem)]
    rfl

/-- Without a working copy no merge fails, and the session stays as it is. -/
theorem merge_of_no_working {σ : Session} (h : σ.working = none) (s : Segment) :
    merge s σ = (.ok (), s.merged, σ) := by
  induction s using induct with
  | node own children ih =>
    rw [merge, Session.embed_of_no_working h]
    simp only
    have below := mergeChildren_of_no_working ih own.firstRow
    rw [Fragment.firstRow] at below
    rw [below, merged_node]
    rfl

/-! ## The row -/

theorem text_takeAll (row : Row) (children : List Segment) :
    (takeAll row children).text
      = children.foldl (fun t c => Text.replaceAll c.own.source c.own.output t) row.text := by
  induction children generalizing row with
  | nil => rfl
  | cons c cs ih => rw [takeAll_cons, ih]; rfl

/-- The text that a merge adds to the output. -/
def row (s : Segment) : Text :=
  Region.unwrap s.own.name (takeAll s.own.firstRow (s.children.map settled)).text

theorem row_node (own : Fragment) (children : List Segment) :
    row (.node own children)
      = Region.unwrap own.name (takeAll own.firstRow (children.map settled)).text := rfl

/-- A merge adds one row to the output and changes the name, the source and the bindings of no
node. -/
theorem own_merged (s : Segment) : s.merged.own =
    { s.own with
      values := { s.own.values with
        listed := (takeAll s.own.firstRow (s.children.map settled)).listed }
      output := s.own.output ++ s.row
      state := .accumulating } := by
  obtain ⟨own, children⟩ := s
  rw [merged_node]
  rfl

@[simp] theorem name_merged (s : Segment) : s.merged.own.name = s.own.name := by
  rw [own_merged]

@[simp] theorem source_merged (s : Segment) : s.merged.own.source = s.own.source := by
  rw [own_merged]

@[simp] theorem output_merged (s : Segment) : s.merged.own.output = s.own.output ++ s.row := by
  rw [own_merged]

@[simp] theorem state_merged (s : Segment) : s.merged.own.state = .accumulating := by
  rw [own_merged]

@[simp] theorem bindings_merged (s : Segment) :
    s.merged.own.values.bindings = s.own.values.bindings := by
  rw [own_merged]

@[simp] theorem children_merged (s : Segment) :
    s.merged.children = (s.children.map settled).map drain := by
  obtain ⟨own, children⟩ := s
  rw [merged_node]
  rfl

end Segment

end DocumentMerge
