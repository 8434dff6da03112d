import DocumentMerge.Proofs.Image.Frame
import DocumentMerge.Proofs.Segment.Pictures

/-!
# Files on their way to the manifest

The file of a picture is listed at the node where its image is bound.  When a parent takes a child it
takes the child's list, too, and in this way the files come to the top.

* `allListed` are the files that wait in the lists of all nodes of a tree.
* `perm_allListed_merge`: a merge only moves files.  Whether it succeeds or not, no file is lost and
  none is listed once more.
* `Tracks` says what a call of a user does besides, and `tracks_onPath` that every call does this:
  the file of an image that was bound is listed, and a picture that is new has such a file.
-/

namespace DocumentMerge.Segment

/-- The files that wait in the lists of all nodes. -/
def allListed (s : Segment) : List Text :=
  (fragments s).flatMap fun f => f.values.listed

theorem allListed_node (own : Fragment) (children : List Segment) :
    allListed (.node own children) = own.values.listed ++ children.flatMap allListed :=
  flatMap_fragments_node _ own children

/-! ## Merging -/

/-- A child that was taken has nothing in its own list. -/
theorem allListed_eq_append_drain (s : Segment) :
    allListed s = s.own.values.listed ++ allListed s.drain := by
  obtain ⟨own, children⟩ := s
  rw [drain, allListed_node, allListed_node]
  rfl

/-- What the row and the children list together stays when the children are merged. -/
theorem perm_listed_mergeChildren {children : List Segment}
    (each : ∀ c ∈ children, ∀ σ, (allListed (merge c σ).2.1).Perm (allListed c)) (row : Row)
    (σ : Session) :
    ((mergeChildren row children σ).2.1.listed
        ++ (mergeChildren row children σ).2.2.1.flatMap allListed).Perm
      (row.listed ++ children.flatMap allListed) := by
  induction children generalizing row σ with
  | nil =>
    rw [mergeChildren_nil]
  | cons c rest ih =>
    have kept : (allListed (settle c σ).2.1).Perm (allListed c) := by
      rw [settle]
      split
      · exact each c List.mem_cons_self σ
      · exact .refl _
    rcases settled : settle c σ with ⟨_ | _, d, τ⟩
    · rw [settled] at kept
      rw [mergeChildren_cons_of_error settled, List.flatMap_cons, List.flatMap_cons]
      exact (kept.append_right _).append_left _
    · rw [settled, allListed_eq_append_drain d] at kept
      rw [mergeChildren_cons_of_ok settled, List.flatMap_cons, List.flatMap_cons]
      have later := ih (fun c mem => each c (List.mem_cons_of_mem _ mem)) (row.take d.own) τ
      have taken : (row.take d.own).listed = row.listed ++ d.own.values.listed := rfl
      rw [taken] at later
      rw [List.perm_iff_count] at kept later ⊢
      intro file
      have here := kept file
      have there := later file
      simp only [List.count_append] at here there ⊢
      omega

/-- **Merges move files.**  A merge, also one that fails, keeps the files that are listed in the
tree, each as often as it is listed. -/
theorem perm_allListed_merge (s : Segment) (σ : Session) :
    (allListed (merge s σ).2.1).Perm (allListed s) := by
  induction s using induct generalizing σ with
  | node own children ih =>
    rcases called : merge (.node own children) σ with ⟨r, t, τ⟩
    rcases merge_cases called with ⟨cause, -, -, rfl⟩ | ⟨σ', -, done⟩
    · exact .refl _
    · have moved := perm_listed_mergeChildren ih own.firstRow σ'
      rcases done with ⟨cause, row, ds, stopped, -, rfl⟩ | ⟨row, ds, finished, -, rfl⟩
      · rw [stopped] at moved
        rw [allListed_node, allListed_node]
        exact moved
      · rw [finished] at moved
        rw [allListed_node, allListed_node]
        exact moved

/-! ## Calls of a user -/

/-- The given files are listed besides those that were listed, and every picture that is new has one
of these files. -/
structure Tracks (new : List Text) (s t : Segment) : Prop where
  listed : (allListed t).Perm (allListed s ++ new)
  pictures : ∀ p ∈ allPictures t, p ∈ allPictures s ∨ p.file ∈ new

namespace Tracks

variable {new : List Text} {s t : Segment}

theorem refl (s : Segment) : Tracks [] s s where
  listed := by rw [List.append_nil]
  pictures _ mem := .inl mem

/-- A change of values. -/
theorem of_values {own : Fragment} {children : List Segment} {values : Values}
    (listed : values.listed = own.values.listed ++ new)
    (pictures : ∀ p ∈ values.pictures, p ∈ own.values.pictures ∨ p.file ∈ new) :
    Tracks new (.node own children) (.node { own with values } children) where
  listed := by
    rw [allListed_node, allListed_node, listed, List.append_assoc, List.append_assoc]
    exact List.perm_append_comm.append_left _
  pictures p mem := by
    rw [allPictures_node] at mem ⊢
    rcases List.mem_append.1 mem with here | below
    · exact (pictures p here).imp_left (List.mem_append_left _)
    · exact .inl (List.mem_append_right _ below)

/-- What is tracked of a child is tracked of its parent. -/
theorem child {own : Fragment} {before after : List Segment} {c d : Segment} (h : Tracks new c d) :
    Tracks new (.node own (before ++ c :: after)) (.node own (before ++ d :: after)) where
  listed := by
    have here := h.listed
    rw [List.perm_iff_count] at here ⊢
    intro file
    have count := here file
    simp only [allListed_node, List.flatMap_append, List.flatMap_cons, List.count_append] at count ⊢
    omega
  pictures p mem := by
    simp only [allPictures_node, List.flatMap_append, List.flatMap_cons, List.mem_append] at mem ⊢
    have := h.pictures p
    tauto

end Tracks

/-- The file of the image that an action bound, if it succeeded. -/
def Action.newFiles : Action → Except Error Unit → List Text
  | .bindImage _ path _, .ok () => (Path.fileName? path).toList
  | _, _ => []

@[simp] theorem Action.newFiles_error (a : Action) (cause : Error) :
    a.newFiles (.error cause) = [] := by
  cases a with
  | bindImage => rfl
  | _ => rfl

/-- Some values list the given files besides those that others list, and every picture that is new has
one of these files. -/
def Adds (new : List Text) (values later : Values) : Prop :=
  later.listed = values.listed ++ new ∧
    ∀ p ∈ later.pictures, p ∈ values.pictures ∨ p.file ∈ new

theorem adds_nil {values later : Values} (listed : later.listed = values.listed)
    (pictures : later.pictures = values.pictures) : Adds [] values later :=
  ⟨by rw [listed, List.append_nil], fun _ mem => .inl (pictures ▸ mem)⟩

/-- A binding changes the values of its node, and that only if it succeeds. -/
theorem adds_bindsBy {key : Text} {store : Values → Session → Text → Except Error Values}
    {a : Action} {own : Fragment} {children : List Segment} {t : Segment} {σ τ : Session}
    {r : Except Error Unit} (h : bindsBy key store (.node own children) σ = (r, t, τ))
    (stores : ∀ values tag later, store values σ tag = .ok later →
      Adds (a.newFiles (.ok ())) values later) :
    ∃ values, t = .node { own with values } children ∧ Adds (a.newFiles r) own.values values := by
  obtain ⟨-, ⟨later, stored, rfl, rfl⟩ | ⟨cause, -, rfl, rfl⟩⟩ := edit_cases h
  · cases declared : declaredTag own σ.config key with
    | error cause => rw [declared] at stored; cases stored
    | ok tag =>
      rw [declared] at stored
      exact ⟨later, rfl, stores own.values tag later stored⟩
  · rw [Action.newFiles_error]
    exact ⟨own.values, rfl, adds_nil rfl rfl⟩

/-- A call on a node, other than a merge, changes the values of the node only, and lists the file of the
image that it bound. -/
theorem exists_values_of_call {a : Action} (binds : a ≠ .merge) {own : Fragment}
    {children : List Segment} {t : Segment} {σ τ : Session} {r : Except Error Unit}
    (h : a.call (.node own children) σ = (r, t, τ)) :
    ∃ values, t = .node { own with values } children ∧ Adds (a.newFiles r) own.values values := by
  cases a with
  | merge => exact absurd rfl binds
  | bind key value encode =>
    have h : bindsBy key (fun values _ tag => .ok (values.bind tag value encode)) _ σ
      = (r, t, τ) := h
    refine adds_bindsBy h fun values tag later stored => ?_
    cases stored
    exact adds_nil rfl rfl
  | bindBytes key value encode charset =>
    have h : bindsBy key (fun values _ tag => values.bindBytes tag value encode charset) _ σ
      = (r, t, τ) := h
    refine adds_bindsBy h fun values tag later stored => ?_
    rw [Values.bindBytes] at stored
    split at stored
    · cases stored
      exact adds_nil rfl rfl
    · cases stored
  | bindImage key path placement =>
    have h : bindsBy key (fun values υ tag => values.bindImage υ.disk tag path placement) _ σ
      = (r, t, τ) := h
    refine adds_bindsBy h fun values tag later stored => ?_
    rw [Values.bindImage] at stored
    cases built : Frame.build σ.disk path placement with
    | error cause => rw [built] at stored; cases stored
    | ok frame =>
      rw [built] at stored
      cases stored
      obtain ⟨file, _, named, -, picture, -⟩ := Frame.exists_of_build built
      rw [Action.newFiles, named, Values.bindFrame, picture]
      refine ⟨rfl, fun p mem => ?_⟩
      refine (List.mem_append.1 (Values.addPicture_subset _ _ mem)).imp_right fun new => ?_
      rw [List.mem_singleton.1 new]
      exact List.mem_singleton_self file

/-- A call on a node lists the file of the image that it bound, and nothing else. -/
theorem tracks_call {a : Action} {s t : Segment} {σ τ : Session} {r : Except Error Unit}
    (h : a.call s σ = (r, t, τ)) : Tracks (a.newFiles r) s t := by
  by_cases merges : a = .merge
  · subst merges
    have moved := perm_allListed_merge s σ
    have same := idled_merge s σ
    have h : merge s σ = (r, t, τ) := h
    rw [h] at moved same
    have none : Action.newFiles .merge r = [] := rfl
    rw [none]
    refine ⟨by rwa [List.append_nil], fun p mem => .inl ?_⟩
    rwa [← allPictures_idled t, same, allPictures_idled] at mem
  · obtain ⟨own, children⟩ := s
    obtain ⟨values, rfl, listed, pictures⟩ := exists_values_of_call merges h
    exact .of_values listed pictures

/-- A call of a user lists the file of the image that it bound, and nothing else. -/
theorem tracks_onPath (a : Action) {path : List Text} {s t : Segment} {σ τ : Session}
    {r : Except Error Unit} (h : onPath a.call path s σ = (r, t, τ)) :
    Tracks (a.newFiles r) s t := by
  induction path generalizing s t with
  | nil => exact tracks_call h
  | cons name names ih =>
    obtain ⟨own, children⟩ := s
    rcases onChild_cases h with ⟨before, c, after, d, rfl, -, -, called, rfl⟩ | ⟨-, rfl, rfl, -⟩
    · exact (ih called).child
    · rw [Action.newFiles_error]
      exact .refl _

end DocumentMerge.Segment
