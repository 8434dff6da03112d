import DocumentMerge.Proofs.Document.Frames
import DocumentMerge.Proofs.Segment.Completing

/-!
# Pictures that stay in the package

A document is used by calls, some of which fail, and between the calls its images may be changed or
removed.  What a merge once put into the package is there from then on, and in every file that is
saved later.

* `Event` are the calls and the changes from outside; `course` lets one happen after the other.
* `Emitted`: an image was bound on a node, and a later call, successful or not, completed a merge of
  the node.  `BoundAtDocument`: it was bound at the document.
* `grows_event`, `extends_event`: what one event does to the pictures of a document and to its
  package.  `pictures_subset_course` and `extends_course` are what follows for a whole course.
* `pictures_retained`: the picture of every image that was emitted is in the package at any later
  time, and a file that is saved has it, and the pictures of all images bound at the document.
-/

namespace DocumentMerge

open Zip (Held)

namespace Document

/-! ## Saving -/

/-- When the result was written, the pictures of the document are in the package. -/
theorem has_of_finalize {d after : Document} (h : d.finalize = (.ok (), after)) :
    ∀ p ∈ d.values.pictures, after.session.Has p.entry := by
  obtain ⟨e, location, members, b, -, values, -, written, -, saved, -⟩ :=
    exists_written_of_finalize h
  rw [← values]
  obtain ⟨a₁, put₁, written⟩ := editAll_cons_eq_ok_iff.1 written
  obtain ⟨a₂, put₂, written⟩ := editAll_cons_eq_ok_iff.1 written
  obtain ⟨a₃, put₃, written⟩ := editAll_cons_eq_ok_iff.1 written
  obtain ⟨a₄, pictures, written⟩ := editAll_cons_eq_ok_iff.1 written
  cases written
  obtain rfl := eq_having_of_putText put₁
  obtain rfl := eq_having_of_putText put₂
  obtain rfl := eq_having_of_putText put₃
  intro p mem
  have there := WorkingCopy.entry_mem_of_putPictures rfl pictures p mem
  exact ⟨_, saved, (Archive.Keeps.rewritten [] _).names there⟩

/-- A file that is saved has all that the package had, and the pictures of the document. -/
theorem exists_members_having {c : SaveCall} {d after : Document} {file : File}
    (h : c.call d = (.ok file, after)) :
    ∃ members, file.read = .ok members ∧
      (∀ name, d.session.Has name → name ∈ members.map Held.name) ∧
      ∀ p ∈ d.values.pictures, p.entry ∈ members.map Held.name := by
  obtain ⟨finalized, reads⟩ := SaveCall.finalize_of_call h
  obtain ⟨old, members, held, held', kept, -, -⟩ := exists_holds_of_finalize finalized
  refine ⟨members, reads members held', fun name has => ?_, fun p mem => ?_⟩
  · obtain ⟨old', same, mem⟩ := has
    obtain rfl := held.unique same
    exact kept.names mem
  · obtain ⟨members', same, there⟩ := has_of_finalize finalized p mem
    obtain rfl := held'.unique same
    exact there

/-! ## Events -/

/-- What happens to a document: a call, or a change of the files that have paths, by others.  Nobody
else reaches the working copy. -/
inductive Event where
  | call (a : Action)
  | outside (disk : Disk)

/-- Lets something happen. -/
def Event.happen : Event → Document → Document
  | .call a, d => (a.act d).2
  | .outside disk, d =>
    { d with session.disk := { disk with temporaries := d.session.disk.temporaries } }

/-- Lets one thing happen after the other. -/
def course : List Event → Document → Document
  | [], d => d
  | e :: events, d => course events (e.happen d)

theorem course_append (events more : List Event) (d : Document) :
    course (events ++ more) d = course more (course events d) := by
  induction events generalizing d with
  | nil => rfl
  | cons e events ih => exact ih _

/-- The pictures that are new after an event. -/
def Event.newPictures (disk : Disk) : Event → List Picture
  | .call a => a.newPictures disk
  | .outside _ => []

theorem grows_event (e : Event) (d : Document) :
    Grows (e.newPictures d.session.disk) d (e.happen d) := by
  cases e with
  | call a => exact grows_act a d
  | outside disk => exact .of_root rfl (.refl _)

/-- Others do not reach the package. -/
theorem holds_outside {d : Document} {members : List Held} (held : d.session.Holds members)
    (disk : Disk) : ((Event.outside disk).happen d).session.Holds members := by
  obtain ⟨w, content, held⟩ := held
  exact ⟨w, content, held⟩

/-- No event takes a name from the package. -/
theorem extends_event (e : Event) (d : Document) : d.session.Extends (e.happen d).session := by
  cases e with
  | call a => exact extends_act a d
  | outside disk =>
    exact fun members held => ⟨members, holds_outside held disk, List.Subset.refl _⟩

theorem extends_course (events : List Event) (d : Document) :
    d.session.Extends (course events d).session := by
  induction events generalizing d with
  | nil => exact .refl _
  | cons e events ih => exact (extends_event e d).trans (ih _)

/-- No picture is taken from the document or from a node of a segment. -/
theorem pictures_subset_course (events : List Event) (d : Document) :
    d.values.pictures ⊆ (course events d).values.pictures ∧
      ∀ path, Segment.picturesAt path d.root ⊆ Segment.picturesAt path (course events d).root := by
  induction events generalizing d with
  | nil => exact ⟨List.Subset.refl _, fun _ => List.Subset.refl _⟩
  | cons e events ih =>
    have step := grows_event e d
    obtain ⟨own, nodes⟩ := ih (e.happen d)
    exact ⟨List.Subset.trans step.own own,
      fun path => List.Subset.trans (step.nodes path) (nodes path)⟩

/-! ## Pictures have the names of their images -/

/-- Every picture has the file name of its image. -/
def Named (d : Document) : Prop :=
  ∀ p ∈ d.allPictures, Path.fileName? p.source = some p.file

theorem Named.event {d : Document} (h : d.Named) (e : Event) : (e.happen d).Named := by
  intro p mem
  rcases List.mem_append.1 ((grows_event e d).fresh mem) with old | new
  · exact h p old
  · cases e with
    | call a => exact (Action.usable_of_mem_newPictures new).1.named
    | outside disk => exact absurd new List.not_mem_nil

theorem Named.course {d : Document} (h : d.Named) (events : List Event) :
    (course events d).Named := by
  induction events generalizing d with
  | nil => exact h
  | cons e events ih => exact ih (h.event e)

/-! ## Images that were bound -/

/-- An image was bound at the document. -/
inductive BoundAtDocument (events : List Event) (d : Document) (image : Text) : Prop where
  | intro (before after : List Event) (key : Text) (placement : Placement)
    (split : events = before ++ .call (.bindImage key image placement) :: after)
    (bound : ((Action.bindImage key image placement).act (course before d)).1 = .ok ())

/-- An image was bound on a node of a segment, and a later call on a node, successful or not,
completed a merge of the node where the image was bound. -/
inductive Emitted (events : List Event) (d : Document) (image : Text) : Prop where
  | intro (before middle after : List Event) (name : Text) (path : List Text) (key : Text)
    (placement : Placement) (merged : Text) (below : List Text) (n m : Segment)
    (split : events = before ++ .call (.onSegment name path (.bindImage key image placement))
      :: middle ++ .call (.onSegment merged below .merge) :: after)
    (bound : ((Action.onSegment name path (.bindImage key image placement)).act
      (course before d)).1 = .ok ())
    (node : Segment.at? (name :: path) (course (before ++
      .call (.onSegment name path (.bindImage key image placement)) :: middle) d).root = some n)
    (top : Segment.at? (merged :: below) (course (before ++
      .call (.onSegment name path (.bindImage key image placement)) :: middle) d).root = some m)
    (completed : Segment.Completes m (course (before ++
      .call (.onSegment name path (.bindImage key image placement)) :: middle) d).session n)

/-- A merge on a node does to the session what the merge of the node does. -/
theorem session_merge_of_at? {name : Text} {path : List Text} {d : Document} {m : Segment}
    (h : Segment.at? (name :: path) d.root = some m) :
    ((Action.onSegment name path .merge).act d).2.session = (Segment.merge m d.session).2.2 := by
  have declared := declareSegment_of_at? h
  obtain ⟨around, -, -, -, -, calls⟩ := Segment.exists_around h
  rcases d.onSegment_cases name (Segment.onPath Segment.merge path) with
    ⟨cause, undeclared, -⟩ | ⟨e, declared', cases⟩
  · rw [declared] at undeclared
    cases undeclared
  · rw [declared] at declared'
    cases declared'
    obtain ⟨left, -, -⟩ := cases _ _ _ (calls Segment.merge d.session)
    rw [Action.act, Segment.Action.call, left]

/-- An image that was bound on a node could be read. -/
theorem exists_build_of_onPath {key image : Text} {placement : Placement} {path : List Text}
    {s t : Segment} {σ τ : Session}
    (h : Segment.onPath (Segment.Action.bindImage key image placement).call path s σ
      = (.ok (), t, τ)) : ∃ frame, Frame.build σ.disk image placement = .ok frame := by
  obtain ⟨⟨own, children⟩, found⟩ := Segment.exists_at?_of_onPath h
  obtain ⟨around, -, -, -, -, calls⟩ := Segment.exists_around found
  have answer := calls (Segment.Action.bindImage key image placement).call σ
  rcases called : (Segment.Action.bindImage key image placement).call (.node own children) σ
    with ⟨r, m, υ⟩
  rw [h, called] at answer
  cases answer
  obtain ⟨-, ⟨_, v, _, stored, -⟩ | ⟨cause, e, -⟩⟩ :=
    Segment.Action.call_cases Segment.Action.noConfusion called
  · rw [Segment.Action.stored?] at stored
    cases built : Frame.build σ.disk image placement with
    | error cause => rw [built] at stored; cases stored
    | ok frame => exact ⟨frame, rfl⟩
  · cases e

/-- The document has a picture of the image that was bound. -/
theorem BoundAtDocument.exists_picture {events : List Event} {d : Document} {image : Text}
    (named : d.Named) (h : BoundAtDocument events d image) :
    ∃ p ∈ (course events d).values.pictures, Path.fileName? image = some p.file := by
  obtain ⟨before, after, key, placement, split, bound⟩ := h
  obtain ⟨e, done⟩ : ∃ e, (course before d).bindImage key image placement = (.ok (), e) :=
    ⟨_, Prod.ext bound rfl⟩
  obtain ⟨tag, frame, values, -, built, -, added, -, rfl⟩ := bindImage_eq_ok done
  obtain ⟨name, content, -, -, picture, -⟩ := Frame.exists_of_build built
  obtain ⟨p, mem, same⟩ :=
    Values.exists_same_addPicture frame.picture (course before d).values.pictures
  have after_ : course events d = course after { course before d with values } := by
    rw [split, course_append, course, Event.happen, Action.act, done]
  rw [← added] at mem
  have kept : p ∈ (course events d).values.pictures := by
    rw [after_]
    exact (pictures_subset_course after { course before d with values }).1 mem
  refine ⟨p, kept, ?_⟩
  rw [← named.course events p (List.mem_append_left _ kept), Path.fileName?_eq_of_same same,
    picture]

/-- When the merge is over, the picture of the image is in the package. -/
theorem Emitted.exists_has {events : List Event} {d : Document} {image : Text} {members : List Held}
    (held : d.session.Holds members) (named : d.Named) (h : Emitted events d image) :
    ∃ file, Path.fileName? image = some file ∧
      (course events d).session.Has (Part.picture file) := by
  obtain ⟨before, middle, after, name, path, key, placement, merged, below, n, m, split, bound, node,
    top, completed⟩ := h
  obtain ⟨e, t, τ, session, called, tree⟩ := exists_onPath_of_onSegment bound
  obtain ⟨frame, built⟩ := exists_build_of_onPath called
  obtain ⟨file, content, file_, -, picture, -⟩ := Frame.exists_of_build built
  obtain ⟨p, mem, same⟩ := Segment.exists_bound_of_onPath called built
  generalize bind : Event.call (.onSegment name path (.bindImage key image placement)) = b at *
  -- the node keeps the picture until the merge, and there it has the name of the image
  have here : p ∈ n.own.values.pictures := by
    have kept := (pictures_subset_course middle (b.happen (course before d))).2 (name :: path)
    rw [← bind, Event.happen, tree] at kept
    rw [← Segment.picturesAt_of_at? node, course_append, course, ← bind, Event.happen]
    exact kept mem
  have name_ : Path.fileName? p.source = some p.file := by
    refine named.course (before ++ b :: middle) p (List.mem_append_right _ ?_)
    refine Segment.allPictures_at?_subset node ?_
    obtain ⟨own, children⟩ := n
    rw [Segment.allPictures_node]
    exact List.mem_append_left _ here
  obtain rfl : file = p.file := by
    rw [Path.fileName?_eq_of_same same, picture] at name_
    exact Option.some.inj (file_.symm.trans name_)
  obtain ⟨there, held', -⟩ := extends_course (before ++ b :: middle) d members held
  have has := Segment.has_of_completes held' completed p here
  rw [← session_merge_of_at? top] at has
  refine ⟨p.file, file_, ?_⟩
  rw [split, course_append, course]
  exact (extends_course after _).has has

/-- **Pictures are retained.**  A document is opened, and then calls are made, of which some may
fail, while others change their files.  An image was bound on a node, and a call that followed
completed a merge of the node.  Then its picture is in the package, whatever happens later.  If a
call saves the document, the file has the pictures of all such images, and of all images that were
bound at the document. -/
theorem pictures_retained {disk made : Disk} {template : Text} {config : Config} {d : Document}
    (opened : openAt disk template config = (.ok d, made)) (events : List Event) :
    (∀ image, Emitted events d image → ∃ name, Path.fileName? image = some name ∧
      ∀ later, (course (events ++ later) d).session.Has (Part.picture name)) ∧
    ∀ {last : SaveCall} {file : File} {after : Document},
      last.call (course events d) = (.ok file, after) →
      ∃ members, file.read = .ok members ∧
        ∀ image, Emitted events d image ∨ BoundAtDocument events d image →
          ∃ name, Path.fileName? image = some name ∧
            Part.picture name ∈ members.map Held.name := by
  obtain ⟨old, -, held, -, none⟩ := exists_holds_of_openAt opened
  have named : d.Named := by
    rw [Named, none]
    exact fun p mem => absurd mem List.not_mem_nil
  constructor
  · intro image emitted
    obtain ⟨name, file, has⟩ := emitted.exists_has held named
    refine ⟨name, file, fun later => ?_⟩
    rw [course_append]
    exact (extends_course later _).has has
  · intro last file after saved
    obtain ⟨members, read, had, own⟩ := exists_members_having saved
    refine ⟨members, read, fun image bound => ?_⟩
    rcases bound with emitted | bound
    · obtain ⟨name, file, has⟩ := emitted.exists_has held named
      exact ⟨name, file, had _ has⟩
    · obtain ⟨p, mem, file⟩ := bound.exists_picture named
      exact ⟨p.file, file, own p mem⟩

/-- The first image is bound on a segment, which is merged.  Then it is gone, and there is another
one, which is bound at the document. -/
def exchange : List Event :=
  [.call (.onSegment "s".toList [] (.bindImage "p".toList "x".toList Placement.inText)),
    .call (.onSegment "s".toList [] .merge),
    .outside { Disk.empty with nodes :=
      (Disk.empty.current ++ ["y".toList], .file (.bytes (square 2))) :: Disk.empty.nodes },
    .call (.bindImage "p".toList "y".toList Placement.inText)]

/-- The saved file has the pictures of both images. -/
theorem pictures_retained_exchange :
    ∃ d made file after members, openAt (desk false) "t".toList Config.standard = (.ok d, made) ∧
      ((course exchange d).session.disk.read "x".toList).toOption = none ∧
      SaveCall.toFile.call (course exchange d) = (.ok file, after) ∧ file.read = .ok members ∧
      Part.picture "x".toList ∈ members.map Held.name ∧
      Part.picture "y".toList ∈ members.map Held.name := by
  let bind := Action.onSegment "s".toList [] (.bindImage "p".toList "x".toList Placement.inText)
  have opens : (openAt (desk false) "t".toList Config.standard).1.toOption.isSome = true := by
    decide +kernel
  have outcome : ∀ d ∈ (openAt (desk false) "t".toList Config.standard).1.toOption,
      (bind.act d).1.toOption.isSome = true ∧
      ((Segment.at? ["s".toList] (course [.call bind] d).root).map fun n =>
        (Segment.merge n (course [.call bind] d).session).1.toOption.isSome) = some true ∧
      ((Action.bindImage "p".toList "y".toList Placement.inText).act
        (course (exchange.take 3) d)).1.toOption.isSome = true ∧
      ((course exchange d).session.disk.read "x".toList).toOption = none ∧
      (SaveCall.toFile.call (course exchange d)).1.toOption.isSome = true := by
    decide +kernel
  rcases opened : openAt (desk false) "t".toList Config.standard with ⟨cause | d, made⟩
  · rw [opened] at opens
    cases opens
  · obtain ⟨bound, merges, own, gone, saves⟩ := outcome d (by rw [opened]; rfl)
    obtain ⟨u, bound⟩ := exists_eq_ok_of_isSome bound
    obtain ⟨v, own⟩ := exists_eq_ok_of_isSome own
    obtain ⟨file, saves⟩ := exists_eq_ok_of_isSome saves
    obtain ⟨n, node, succeeds⟩ := Option.map_eq_some_iff.1 merges
    obtain ⟨w, succeeds⟩ := exists_eq_ok_of_isSome succeeds
    have emitted : Emitted exchange d "x".toList :=
      .intro [] [] (exchange.drop 2) "s".toList [] "p".toList Placement.inText "s".toList [] n n rfl
        bound node node (.self succeeds)
    have atDocument : BoundAtDocument exchange d "y".toList :=
      .intro (exchange.take 3) [] "p".toList Placement.inText rfl own
    obtain ⟨-, saved⟩ := pictures_retained opened exchange
    obtain ⟨members, read, has⟩ := saved (Prod.ext saves rfl)
    obtain ⟨x, named, first⟩ := has _ (.inl emitted)
    obtain ⟨y, named', second⟩ := has _ (.inr atDocument)
    cases named
    cases named'
    exact ⟨d, made, file, _, members, rfl, gone, Prod.ext saves rfl, read, first, second⟩

end Document

end DocumentMerge
