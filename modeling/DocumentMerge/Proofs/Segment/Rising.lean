import DocumentMerge.Proofs.Segment.Listing
import Mathlib.Algebra.Order.Group.Multiset
import Mathlib.Tactic.Abel

/-!
# Where the files of pictures are listed

A file is listed at the node where its image was bound.  The merge of a parent takes the lists of its
children, so a file goes up, one level with each merge, and it never goes anywhere else.  This is more
than that no file is lost (`perm_allListed_merge`): it must be said of each file where it is.

* `Entry` is a file with the path of the node that lists it, and `entries` are those of a tree.  A file
  that is listed twice has two entries, so they form a multiset.
* `Entry.Rises`: an entry of the same file further up, or at the same node.  `Multiset.Rel Entry.Rises`
  pairs the entries of two trees one by one.
* `risen_merge`: a merge, failing or not, only makes entries rise.  `risen_onPath`: a call adds an entry
  at its own node if it binds an image, and otherwise only makes entries rise.
-/

namespace DocumentMerge.Segment

/-- A file that is listed, and the path of the node that lists it. -/
structure Entry where
  path : List Text
  file : Text
  deriving DecidableEq

namespace Entry

/-- A later entry is of the same file, at the same node or at one above. -/
structure Rises (e later : Entry) : Prop where
  file : later.file = e.file
  path : later.path <+: e.path

theorem Rises.refl (e : Entry) : Rises e e :=
  ⟨rfl, List.prefix_refl _⟩

instance : IsTrans Entry Rises where
  trans _ _ _ first next := ⟨next.file.trans first.file, next.path.trans first.path⟩

/-- The entry of a child as one of its parent. -/
def below (name : Text) (e : Entry) : Entry :=
  ⟨name :: e.path, e.file⟩

end Entry

/-- One multiset of entries comes from the other one by letting entries rise. -/
abbrev Risen (before after : Multiset Entry) : Prop :=
  Multiset.Rel Entry.Rises before after

theorem Risen.refl (m : Multiset Entry) : Risen m m :=
  Multiset.rel_refl_of_refl_on fun e _ => .refl e

theorem Risen.trans {a b c : Multiset Entry} (first : Risen a b) (next : Risen b c) : Risen a c :=
  Multiset.Rel.trans Entry.Rises first next

theorem Risen.below {a b : Multiset Entry} (h : Risen a b) (name : Text) :
    Risen (a.map (Entry.below name)) (b.map (Entry.below name)) :=
  Multiset.rel_map.2 (h.mono fun _ _ _ _ rises =>
    ⟨rises.file, List.cons_prefix_cons.2 ⟨rfl, rises.path⟩⟩)

/-- Files do not change on their way. -/
theorem Risen.map_file {a b : Multiset Entry} (h : Risen a b) :
    a.map Entry.file = b.map Entry.file := by
  rw [← Multiset.rel_eq, Multiset.rel_map]
  exact h.mono fun _ _ _ _ rises => rises.file.symm

/-- The entries of some files at one node. -/
def listedAt (path : List Text) (files : List Text) : Multiset Entry :=
  (files.map (Entry.mk path) : List Entry)

@[simp] theorem listedAt_nil (path : List Text) : listedAt path [] = 0 := rfl

theorem listedAt_append (path files more : List Text) :
    listedAt path (files ++ more) = listedAt path files + listedAt path more := by
  rw [listedAt, List.map_append, ← Multiset.coe_add]
  rfl

theorem map_below_listedAt (name : Text) (path : List Text) (files : List Text) :
    (listedAt path files).map (Entry.below name) = listedAt (name :: path) files := by
  rw [listedAt, Multiset.map_coe, List.map_map]
  rfl

@[simp] theorem map_file_listedAt (path : List Text) (files : List Text) :
    (listedAt path files).map Entry.file = files := by
  rw [listedAt, Multiset.map_coe, List.map_map]
  exact congrArg _ (List.map_id _)

/-- A list may be taken to a node above. -/
theorem risen_listedAt {path above : List Text} (h : above <+: path) (files : List Text) :
    Risen (listedAt path files) (listedAt above files) := by
  induction files with
  | nil => exact .zero
  | cons file files ih => exact .cons ⟨rfl, h⟩ ih

/-! ## The entries of a tree -/

mutual

/-- The files that the nodes of a tree list, each with the path of its node. -/
def entries : Segment → Multiset Entry
  | .node own children => listedAt [] own.values.listed + entriesAll children

/-- The files that the nodes below a node list. -/
def entriesAll : List Segment → Multiset Entry
  | [] => 0
  | c :: cs => (entries c).map (Entry.below c.own.name) + entriesAll cs

end

theorem entriesAll_append (cs ds : List Segment) :
    entriesAll (cs ++ ds) = entriesAll cs + entriesAll ds := by
  induction cs with
  | nil => rw [List.nil_append, entriesAll, zero_add]
  | cons c cs ih => rw [List.cons_append, entriesAll, entriesAll, ih, add_assoc]

theorem map_file_entriesAll {cs : List Segment}
    (each : ∀ c ∈ cs, (entries c).map Entry.file = allListed c) :
    (entriesAll cs).map Entry.file = cs.flatMap allListed := by
  induction cs with
  | nil => rfl
  | cons c cs ih =>
    have names : ((entries c).map (Entry.below c.own.name)).map Entry.file
        = (entries c).map Entry.file := by
      rw [Multiset.map_map]
      rfl
    rw [entriesAll, Multiset.map_add, names, each c List.mem_cons_self,
      ih fun d mem => each d (List.mem_cons_of_mem _ mem), List.flatMap_cons, ← Multiset.coe_add]

/-- The entries have the files that are listed in the tree. -/
theorem map_file_entries (s : Segment) : (entries s).map Entry.file = allListed s := by
  induction s using induct with
  | node own cs ih =>
    rw [entries, Multiset.map_add, map_file_entriesAll ih, map_file_listedAt, allListed_node,
      ← Multiset.coe_add]

/-- A tree in which no file is listed has no entries. -/
theorem entries_eq_zero {s : Segment} (h : allListed s = []) : entries s = 0 := by
  have files := map_file_entries s
  rw [h] at files
  exact Multiset.map_eq_zero.1 files

/-- A child that was taken by its parent has no entry of its own. -/
theorem entries_eq_add_drain (s : Segment) :
    entries s = listedAt [] s.own.values.listed + entries s.drain := by
  obtain ⟨own, children⟩ := s
  have none : listedAt [] own.drain.values.listed = 0 := rfl
  rw [drain, entries, entries, none, zero_add]
  rfl

/-! ## Merging -/

/-- What the row and the children list rises when the children are merged: what a child lists itself
comes into the row. -/
theorem risen_mergeChildren {children : List Segment}
    (each : ∀ c ∈ children, ∀ σ, Risen (entries c) (entries (merge c σ).2.1)) (row : Row)
    (σ : Session) :
    Risen (listedAt [] row.listed + entriesAll children)
      (listedAt [] (mergeChildren row children σ).2.1.listed
        + entriesAll (mergeChildren row children σ).2.2.1) := by
  induction children generalizing row σ with
  | nil =>
    rw [mergeChildren_nil]
    exact .refl _
  | cons c rest ih =>
    have kept : Risen (entries c) (entries (settle c σ).2.1) := by
      rw [settle]
      split
      · exact each c List.mem_cons_self σ
      · exact .refl _
    have named : (settle c σ).2.1.own.name = c.own.name := by
      rw [settle]
      split
      · exact name_eq_of_skeleton_eq (skeleton_merge c σ)
      · rfl
    rcases settled : settle c σ with ⟨_ | _, d, τ⟩
    · rw [settled] at kept named
      rw [mergeChildren_cons_of_error settled, entriesAll, entriesAll, named]
      exact (Risen.refl _).add ((kept.below _).add (Risen.refl _))
    · rw [settled] at kept named
      rw [mergeChildren_cons_of_ok settled, entriesAll, entriesAll, own_drain]
      have named : d.own.drain.name = c.own.name := named
      rw [named]
      have later := ih (fun c mem => each c (List.mem_cons_of_mem _ mem)) (row.take d.own) τ
      have taken : (row.take d.own).listed = row.listed ++ d.own.values.listed := rfl
      rw [taken, listedAt_append] at later
      -- the entries of the child itself rise by one level, and those below it stay
      have here := kept.below c.own.name
      rw [entries_eq_add_drain d, Multiset.map_add, map_below_listedAt] at here
      have up : Risen (listedAt [c.own.name] d.own.values.listed)
          (listedAt [] d.own.values.listed) := risen_listedAt List.nil_prefix _
      have moved := (Risen.refl (listedAt [] row.listed)).add
        ((here.trans (up.add (Risen.refl _))).add (Risen.refl (entriesAll rest)))
      refine Risen.trans moved ?_
      have order : listedAt [] row.listed + (listedAt [] d.own.values.listed
            + (entries d.drain).map (Entry.below c.own.name) + entriesAll rest)
          = listedAt [] row.listed + listedAt [] d.own.values.listed + entriesAll rest
            + (entries d.drain).map (Entry.below c.own.name) := by
        abel
      rw [order]
      refine Risen.trans (later.add (Risen.refl _)) ?_
      rw [add_assoc, add_comm (entriesAll _)]
      exact .refl _

/-- **Merges make entries rise.**  A merge, also one that fails, leaves every file at its node or takes
it to a node above. -/
theorem risen_merge (s : Segment) (σ : Session) : Risen (entries s) (entries (merge s σ).2.1) := by
  induction s using induct generalizing σ with
  | node own children ih =>
    rcases called : merge (.node own children) σ with ⟨r, t, τ⟩
    rcases merge_cases called with ⟨cause, -, -, rfl⟩ | ⟨σ', -, done⟩
    · exact .refl _
    · have moved := risen_mergeChildren ih own.firstRow σ'
      rw [entries]
      rcases done with ⟨cause, row, ds, stopped, -, rfl⟩ | ⟨row, ds, finished, -, rfl⟩
      · rw [stopped] at moved
        rw [entries]
        exact moved
      · rw [finished] at moved
        rw [entries]
        exact moved

/-! ## Calls of a user -/

theorem risen_call {a : Action} {s t : Segment} {σ τ : Session} {r : Except Error Unit}
    (h : a.call s σ = (r, t, τ)) : Risen (entries s + listedAt [] (a.newFiles r)) (entries t) := by
  by_cases merges : a = .merge
  · subst merges
    have moved := risen_merge s σ
    have h : merge s σ = (r, t, τ) := h
    have none : listedAt [] (Action.newFiles .merge r) = 0 := rfl
    rw [h] at moved
    rw [none, add_zero]
    exact moved
  · obtain ⟨own, children⟩ := s
    obtain ⟨values, rfl, listed, -⟩ := exists_values_of_call merges h
    rw [entries, entries, listed, listedAt_append, add_right_comm]
    exact .refl _

/-- **A call of a user** adds an entry at the node on which it binds an image, if it does so, and all
other entries stay or rise. -/
theorem risen_onPath (a : Action) {path : List Text} {s t : Segment} {σ τ : Session}
    {r : Except Error Unit} (h : onPath a.call path s σ = (r, t, τ)) :
    Risen (entries s + listedAt path (a.newFiles r)) (entries t) := by
  induction path generalizing s t with
  | nil => exact risen_call h
  | cons name names ih =>
    obtain ⟨own, children⟩ := s
    rcases onChild_cases h with ⟨before, c, after, d, rfl, -, named, called, rfl⟩ | ⟨-, rfl, rfl, -⟩
    · have below := (ih called).below name
      have same : d.own.name = c.own.name :=
        name_eq_of_skeleton_eq (((tame_call a).onPath names).skeleton_eq called)
      rw [Multiset.map_add, map_below_listedAt] at below
      rw [entries, entries, entriesAll_append, entriesAll_append, entriesAll, entriesAll, same, named]
      have around := (Risen.refl (listedAt [] own.values.listed + entriesAll before
        + entriesAll after)).add below
      convert around using 1 <;> abel
    · rw [Action.newFiles_error, listedAt_nil, add_zero]
      exact .refl _

end DocumentMerge.Segment
