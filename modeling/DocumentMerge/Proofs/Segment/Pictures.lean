import DocumentMerge.Proofs.Segment.Copying

/-!
# The pictures of the nodes of a tree

A node has a picture for every image that was bound on it, one for each source.  Only a binding of
an image changes this, and it adds at most one picture to one node; merges, which move outputs and
the files to list, leave all pictures where they are.

* `picturesAt` are the pictures of the node to which a path leads, and `allPictures` those of all
  nodes.  `picturesAt_idled` and `allPictures_idled`: what waits in a tree plays no part in them.
* `Grows`: no node loses a picture, and only given pictures are new.  `grows_onPath`: so it is for
  every call of a user, whatever it answers.
* `exists_bound_of_onPath`: after an image was bound on a node, the node has a picture of its file.
-/

namespace DocumentMerge

/-! ## Lists that gain elements -/

section Gain

variable {α : Type} {xs xs' ys ys' new : List α}

/-- What both of two lists keep, they keep together. -/
theorem append_subset_append (left : xs ⊆ xs') (right : ys ⊆ ys') : xs ++ ys ⊆ xs' ++ ys' :=
  List.append_subset.2 ⟨List.Subset.trans left (List.subset_append_left _ _),
    List.Subset.trans right (List.subset_append_right _ _)⟩

/-- What the first of two lists gains, they gain together. -/
theorem append_subset_of_left (h : xs' ⊆ xs ++ new) : xs' ++ ys ⊆ xs ++ ys ++ new := by
  refine List.append_subset.2 ⟨fun p mem => ?_, fun p mem => ?_⟩
  · rcases List.mem_append.1 (h mem) with old | new
    · exact List.mem_append_left _ (List.mem_append_left _ old)
    · exact List.mem_append_right _ new
  · exact List.mem_append_left _ (List.mem_append_right _ mem)

theorem append_subset_of_right (h : ys' ⊆ ys ++ new) : xs ++ ys' ⊆ xs ++ ys ++ new := by
  refine List.append_subset.2 ⟨fun p mem => ?_, fun p mem => ?_⟩
  · exact List.mem_append_left _ (List.mem_append_left _ mem)
  · rcases List.mem_append.1 (h mem) with old | new
    · exact List.mem_append_left _ (List.mem_append_right _ old)
    · exact List.mem_append_right _ new

end Gain

/-! ## Adding a picture -/

theorem Path.same_self (p : Text) : Path.same p p = true := by
  simp [same]

namespace Values

theorem subset_addPicture (p : Picture) (pictures : List Picture) :
    pictures ⊆ addPicture p pictures := by
  rw [addPicture]
  split
  · exact List.Subset.refl _
  · exact List.subset_append_left _ _

theorem addPicture_subset (p : Picture) (pictures : List Picture) :
    addPicture p pictures ⊆ pictures ++ [p] := by
  rw [addPicture]
  split
  · exact List.subset_append_left _ _
  · exact List.Subset.refl _

/-- After a picture was added there is one of the same source. -/
theorem exists_same_addPicture (p : Picture) (pictures : List Picture) :
    ∃ q ∈ addPicture p pictures, Path.same q.source p.source = true := by
  rw [addPicture]
  split
  · next present =>
    obtain ⟨q, mem, same⟩ := List.any_eq_true.1 present
    exact ⟨q, mem, same⟩
  · exact ⟨p, by simp, Path.same_self _⟩

end Values

namespace Segment

/-! ## Pictures and what waits -/

theorem child?_idled (s : Segment) (name : Text) :
    s.idled.child? name = (s.child? name).map idled := by
  obtain ⟨own, children⟩ := s
  rw [idled_node, child?, child?, children_node, children_node, List.find?_map]
  congr 2
  funext c
  obtain ⟨own, children⟩ := c
  rw [Function.comp_apply, idled_node]
  rfl

/-- The node to which a path leads, when nothing waits in the tree any more. -/
theorem at?_idled (path : List Text) (s : Segment) :
    at? path s.idled = (at? path s).map idled := by
  induction path generalizing s with
  | nil => rfl
  | cons name names ih =>
    rw [at?, at?, child?_idled]
    cases s.child? name with
    | none => rfl
    | some c => exact ih c

/-- The pictures of the node to which a path leads. -/
def picturesAt (path : List Text) (s : Segment) : List Picture :=
  ((at? path s).map fun n => n.own.values.pictures).getD []

theorem picturesAt_of_at? {path : List Text} {s n : Segment} (h : at? path s = some n) :
    picturesAt path s = n.own.values.pictures := by
  rw [picturesAt, h]
  rfl

theorem picturesAt_cons (name : Text) (names : List Text) (s : Segment) :
    picturesAt (name :: names) s = ((s.child? name).map (picturesAt names)).getD [] := by
  rw [picturesAt, at?]
  cases s.child? name with
  | none => rfl
  | some c => rfl

@[simp] theorem pictures_idled (s : Segment) :
    s.idled.own.values.pictures = s.own.values.pictures := by
  obtain ⟨own, children⟩ := s
  rw [idled_node]
  rfl

@[simp] theorem picturesAt_idled (path : List Text) (s : Segment) :
    picturesAt path s.idled = picturesAt path s := by
  rw [picturesAt, picturesAt, at?_idled, Option.map_map]
  congr 2
  funext n
  exact pictures_idled n

@[simp] theorem allPictures_idled (s : Segment) : s.idled.allPictures = s.allPictures := by
  induction s using induct with
  | node own children ih =>
    have below : (children.map idled).flatMap allPictures = children.flatMap allPictures := by
      rw [List.flatMap_map]
      exact List.flatMap_congr ih
    rw [idled_node, allPictures_node, allPictures_node, below]
    rfl

/-- The pictures below a node are pictures of the tree. -/
theorem allPictures_at?_subset {path : List Text} {s n : Segment} (h : at? path s = some n) :
    n.allPictures ⊆ s.allPictures := by
  refine of_at? (P := fun t => t.allPictures ⊆ s.allPictures) (fun t sub c mem => ?_)
    (List.Subset.refl _) h
  obtain ⟨own, children⟩ := t
  exact List.Subset.trans (allPictures_child_subset mem) sub

/-! ## How calls change the pictures -/

/-- No node loses a picture, and all pictures that are new are among the given ones. -/
structure Grows (new : List Picture) (s t : Segment) : Prop where
  kept : ∀ path, picturesAt path s ⊆ picturesAt path t
  old : allPictures s ⊆ allPictures t
  fresh : allPictures t ⊆ allPictures s ++ new

namespace Grows

variable {new : List Picture} {s t : Segment}

theorem of_idled_eq (same : t.idled = s.idled) : Grows new s t where
  kept path := by
    rw [← picturesAt_idled path t, same, picturesAt_idled]
    exact List.Subset.refl _
  old := by
    rw [← allPictures_idled t, same, allPictures_idled]
    exact List.Subset.refl _
  fresh := by
    rw [← allPictures_idled t, same, allPictures_idled]
    exact List.subset_append_left _ _

theorem refl (s : Segment) : Grows new s s :=
  of_idled_eq rfl

/-- A change of values that adds a picture at most. -/
theorem of_values {own : Fragment} {children : List Segment} {values : Values}
    (kept : own.values.pictures ⊆ values.pictures)
    (fresh : values.pictures ⊆ own.values.pictures ++ new) :
    Grows new (.node own children) (.node { own with values } children) where
  kept path := by
    cases path with
    | nil => exact kept
    | cons name names =>
      rw [picturesAt_cons, picturesAt_cons]
      exact List.Subset.refl _
  old := by
    rw [allPictures_node, allPictures_node]
    exact append_subset_append kept (List.Subset.refl _)
  fresh := by
    rw [allPictures_node, allPictures_node]
    exact append_subset_of_left fresh

/-- A child that grows lets its parent grow. -/
theorem child {own : Fragment} {before after : List Segment} {c d : Segment}
    (h : Grows new c d) (named : d.own.name = c.own.name) :
    Grows new (.node own (before ++ c :: after)) (.node own (before ++ d :: after)) where
  kept path := by
    cases path with
    | nil => exact List.Subset.refl _
    | cons name names =>
      rw [picturesAt_cons, picturesAt_cons]
      rcases child?_replaced named name with ⟨found, found'⟩ | same
      · rw [found, found']
        exact h.kept names
      · rw [same]
        exact List.Subset.refl _
  old := by
    rw [allPictures_node, allPictures_node, List.flatMap_append, List.flatMap_append,
      List.flatMap_cons, List.flatMap_cons]
    refine append_subset_append (List.Subset.refl _) ?_
    exact append_subset_append (List.Subset.refl _)
      (append_subset_append h.old (List.Subset.refl _))
  fresh := by
    rw [allPictures_node, allPictures_node, List.flatMap_append, List.flatMap_append,
      List.flatMap_cons, List.flatMap_cons]
    exact append_subset_of_right (append_subset_of_right (append_subset_of_left h.fresh))

end Grows

/-- The picture of the image that an action binds, if it can be read. -/
def Action.newPictures (disk : Disk) : Action → List Picture
  | .bindImage _ path placement =>
    match Frame.build disk path placement with
    | .ok frame => [frame.picture]
    | .error _ => []
  | _ => []

/-- An edit that fails, or that keeps the pictures, changes none of them. -/
theorem grows_edit {new : List Picture} {change : Fragment → Session → Except Error Values}
    {s : Segment} {σ : Session}
    (changed : ∀ own values, change own σ = .ok values →
      own.values.pictures ⊆ values.pictures ∧ values.pictures ⊆ own.values.pictures ++ new) :
    Grows new s (edit change s σ).2.1 := by
  obtain ⟨own, children⟩ := s
  rcases done : edit change (.node own children) σ with ⟨r, t, τ⟩
  obtain ⟨-, ⟨values, stored, -, rfl⟩ | ⟨cause, -, -, rfl⟩⟩ := edit_cases done
  · exact .of_values (changed own values stored).1 (changed own values stored).2
  · exact .refl _

/-- A call on a node adds the picture of the image that it binds, if it binds one. -/
theorem grows_call (a : Action) (s : Segment) (σ : Session) :
    Grows (a.newPictures σ.disk) s (a.call s σ).2.1 := by
  cases a with
  | merge => exact .of_idled_eq (idled_merge s σ)
  | bind key value encode =>
    refine grows_edit fun own values stored => ?_
    cases declared : declaredTag own σ.config key with
    | error cause => rw [declared] at stored; cases stored
    | ok tag =>
      rw [declared] at stored
      cases stored
      exact ⟨List.Subset.refl _, List.subset_append_left _ _⟩
  | bindBytes key value encode charset =>
    refine grows_edit fun own values stored => ?_
    cases declared : declaredTag own σ.config key with
    | error cause => rw [declared] at stored; cases stored
    | ok tag =>
      rw [declared] at stored
      have stored : own.values.bindBytes tag value encode charset = .ok values := stored
      rw [Values.bindBytes] at stored
      split at stored
      · cases stored
        exact ⟨List.Subset.refl _, List.subset_append_left _ _⟩
      · cases stored
  | bindImage key path placement =>
    refine grows_edit fun own values stored => ?_
    cases declared : declaredTag own σ.config key with
    | error cause => rw [declared] at stored; cases stored
    | ok tag =>
      rw [declared] at stored
      have stored : own.values.bindImage σ.disk tag path placement = .ok values := stored
      rw [Values.bindImage] at stored
      rw [Action.newPictures]
      cases built : Frame.build σ.disk path placement with
      | error cause => rw [built] at stored; cases stored
      | ok frame =>
        rw [built] at stored
        cases stored
        exact ⟨Values.subset_addPicture _ _, Values.addPicture_subset _ _⟩

theorem name_call (a : Action) (s : Segment) (σ : Session) :
    (a.call s σ).2.1.own.name = s.own.name :=
  name_eq_of_skeleton_eq ((tame_call a).skeleton s σ)

/-- A call on a child lets the node grow as it lets the child grow. -/
theorem grows_onChild {new : List Picture} {call : Call Unit} {name : Text} {s : Segment}
    {σ : Session} (grows : ∀ c, Grows new c (call c σ).2.1)
    (named : ∀ c, (call c σ).2.1.own.name = c.own.name) :
    Grows new s (onChild name call s σ).2.1 := by
  obtain ⟨own, children⟩ := s
  rcases done : onChild name call (.node own children) σ with ⟨r, t, τ⟩
  rcases onChild_cases done with ⟨before, c, after, d, rfl, -, -, called, rfl⟩ | ⟨-, -, rfl, -⟩
  · have grown := grows c
    have same := named c
    rw [called] at grown same
    exact grown.child same
  · exact .refl _

/-- A call of a user lets the tree grow, whatever it answers. -/
theorem grows_onPath (a : Action) (path : List Text) (s : Segment) (σ : Session) :
    Grows (a.newPictures σ.disk) s (onPath a.call path s σ).2.1 := by
  induction path generalizing s with
  | nil => exact grows_call a s σ
  | cons name names ih =>
    exact grows_onChild ih fun c =>
      name_eq_of_skeleton_eq (((tame_call a).onPath names).skeleton c σ)

/-! ## What calls on a node do to the session -/

/-- A binding leaves the session as it is. -/
theorem session_call {a : Action} (binds : a ≠ .merge) (s : Segment) (σ : Session) :
    (a.call s σ).2.2 = σ := by
  obtain ⟨own, children⟩ := s
  rcases done : a.call (.node own children) σ with ⟨r, t, τ⟩
  exact (Action.call_cases binds done).1

/-- A call on a node does to the session what it does on any node, or nothing. -/
theorem session_onPath {P : Session → Session → Prop} {α : Type} {call : Call α}
    (refl : ∀ σ, P σ σ) (each : ∀ s σ, P σ (call s σ).2.2) (path : List Text) (s : Segment)
    (σ : Session) : P σ (onPath call path s σ).2.2 := by
  induction path generalizing s with
  | nil => exact each s σ
  | cons name names ih =>
    obtain ⟨own, children⟩ := s
    rcases done : onPath call (name :: names) (.node own children) σ with ⟨r, t, τ⟩
    rcases onChild_cases done with ⟨before, c, after, d, -, -, -, called, -⟩ | ⟨-, -, -, rfl⟩
    · have below := ih c
      rw [called] at below
      exact below
    · exact refl _

/-- A call on a node that is not there changes nothing. -/
theorem onPath_of_none {α : Type} {call : Call α} {path : List Text} {s : Segment}
    (none : at? path s = none) (σ : Session) : (onPath call path s σ).2.2 = σ := by
  induction path generalizing s with
  | nil => cases none
  | cons name names ih =>
    obtain ⟨own, children⟩ := s
    rcases done : onPath call (name :: names) (.node own children) σ with ⟨r, t, τ⟩
    rcases onChild_cases done with ⟨before, c, after, d, rfl, earlier, named, called, -⟩ |
      ⟨-, -, -, rfl⟩
    · rw [at?, child?_of_first earlier named] at none
      have below := ih none
      rw [called] at below
      exact below
    · rfl

/-- A call that succeeds was made on a node. -/
theorem exists_at?_of_onPath {α : Type} {call : Call α} {path : List Text} {s t : Segment}
    {σ τ : Session} {x : α} (h : onPath call path s σ = (.ok x, t, τ)) :
    ∃ n, at? path s = some n := by
  induction path generalizing s t with
  | nil => exact ⟨s, rfl⟩
  | cons name names ih =>
    obtain ⟨own, children⟩ := s
    rcases onChild_cases h with ⟨before, c, after, d, rfl, earlier, named, called, -⟩ | ⟨-, e, -⟩
    · obtain ⟨n, found⟩ := ih called
      exact ⟨n, by rw [at?, child?_of_first earlier named]; exact found⟩
    · cases e

/-- After an image was bound on a node, the node has a picture of its file. -/
theorem exists_bound_of_onPath {key image : Text} {placement : Placement} {path : List Text}
    {s t : Segment} {σ τ : Session} {frame : Frame}
    (h : onPath (Action.bindImage key image placement).call path s σ = (.ok (), t, τ))
    (built : Frame.build σ.disk image placement = .ok frame) :
    ∃ p ∈ picturesAt path t, Path.same p.source frame.picture.source = true := by
  obtain ⟨n, found⟩ := exists_at?_of_onPath h
  obtain ⟨around, -, -, reads, -, calls⟩ := exists_around found
  have answer := calls (Action.bindImage key image placement).call σ
  rcases called : (Action.bindImage key image placement).call n σ with ⟨r, m, υ⟩
  rw [h, called] at answer
  cases answer
  have named : m.own.name = n.own.name := by
    have := name_call (.bindImage key image placement) n σ
    rwa [called] at this
  rw [picturesAt_of_at? (reads m named).2]
  obtain ⟨own, children⟩ := n
  simp only [Action.call, bindImage] at called
  obtain ⟨-, ⟨values, stored, -, rfl⟩ | ⟨cause, -, e, -⟩⟩ := edit_cases called
  · cases declared : declaredTag own σ.config key with
    | error cause => rw [declared] at stored; cases stored
    | ok tag =>
      rw [declared] at stored
      have stored : own.values.bindImage σ.disk tag image placement = .ok values := stored
      rw [Values.bindImage, built] at stored
      cases stored
      exact Values.exists_same_addPicture _ _
  · cases e

end Segment

end DocumentMerge
