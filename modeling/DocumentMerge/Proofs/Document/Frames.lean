import DocumentMerge.Proofs.Document.Running

/-!
# The pictures that frames show

A frame names the member of the package that holds its picture.  The name keeps only the file name
of the image, so that images of one file name from different directories share a member, and share
it with the template, too.

* `Shown` are the frames that come into the texts of a document: those bound at the document itself,
  which is saved after the run, and those bound on a node that a later merge expands.
* `savedBytes?` is what is saved under a name: the document's own pictures come before the members
  of the template, these before the pictures of segments; of the document's own pictures the last
  one counts, and of the others the first that was copied.
* `contentOf_shown`: the member that a shown frame names is there and holds this.  It is the image
  itself unless another image of this file name, or a member of the template, takes its place.
-/

namespace DocumentMerge

open Zip (Held)
open Archive (contentOf Ordinary)

namespace Document

/-! ## What a run keeps -/

/-- The paths of the images that a run binds. -/
def images (steps : List Action) : List Text :=
  steps.filterMap Action.image?

theorem mem_images {steps : List Action} {path : Text} :
    path ∈ images steps ↔ ∃ a ∈ steps, a.image? = some path :=
  List.mem_filterMap

theorem copied_append (steps more : List Action) (d : Document) :
    copied (steps ++ more) d = copied steps d ++ copied more (run steps d) := by
  induction steps generalizing d with
  | nil => rfl
  | cons a steps ih => rw [List.cons_append, copied, copied, ih, List.append_assoc, run]

/-- A run takes no picture from the document or from a node of a segment. -/
theorem pictures_subset_run (steps : List Action) (d : Document) :
    d.values.pictures ⊆ (run steps d).values.pictures ∧
      ∀ path, Segment.picturesAt path d.root ⊆ Segment.picturesAt path (run steps d).root := by
  induction steps generalizing d with
  | nil => exact ⟨List.Subset.refl _, fun _ => List.Subset.refl _⟩
  | cons a steps ih =>
    have step := grows_act a d
    obtain ⟨own, nodes⟩ := ih (a.act d).2
    exact ⟨List.Subset.trans step.own own,
      fun path => List.Subset.trans (step.nodes path) (nodes path)⟩

/-! ## Frames that are shown -/

/-- A frame that can come into the texts of a document in the course of a run, or when the document
is saved after it.  The frame stands for a tag in the text of the document or of the node where its
image was bound, and only saving and the expansion of the node put it there. -/
inductive Shown (steps : List Action) (d : Document) (frame : Frame) : Prop where
  /-- The image was bound at the document. -/
  | document (before after : List Action) (key image : Text) (placement : Placement)
      (split : steps = before ++ .bindImage key image placement :: after)
      (bound : ((Action.bindImage key image placement).act (run before d)).1 = .ok ())
      (built : Frame.build (run before d).session.disk image placement = .ok frame)
  /-- The image was bound on a node that a later merge expands. -/
  | segment (before middle after : List Action) (name : Text) (path : List Text)
      (key image : Text) (placement : Placement) (merged : Text) (below : List Text)
      (n m : Segment)
      (split : steps = before ++ .onSegment name path (.bindImage key image placement) :: middle
        ++ .onSegment merged below .merge :: after)
      (bound : ((Action.onSegment name path (.bindImage key image placement)).act
        (run before d)).1 = .ok ())
      (built : Frame.build (run before d).session.disk image placement = .ok frame)
      (node : Segment.at? (name :: path) (run (before ++
        .onSegment name path (.bindImage key image placement) :: middle) d).root = some n)
      (top : Segment.at? (merged :: below) (run (before ++
        .onSegment name path (.bindImage key image placement) :: middle) d).root = some m)
      (expanded : n.own ∈ m.expanded)

/-- A call on a segment that succeeds is a call that succeeds on a child of the root. -/
theorem exists_onPath_of_onSegment {a : Segment.Action} {name : Text} {path : List Text}
    {d : Document} (h : ((Action.onSegment name path a).act d).1 = .ok ()) :
    ∃ (e : Document) (t : Segment) (τ : Session), e.session = d.session ∧
      Segment.onPath a.call (name :: path) e.root e.session = (.ok (), t, τ) ∧
      ((Action.onSegment name path a).act d).2.root = t := by
  rcases d.onSegment_cases name (Segment.onPath a.call path) with
    ⟨cause, -, failed⟩ | ⟨e, declared, cases⟩
  · rw [Action.act, failed] at h
    cases h
  · rcases done : Segment.onChild name (Segment.onPath a.call path) e.root e.session
      with ⟨r, t, τ⟩
    obtain ⟨left, tree, answer⟩ := cases r t τ done
    obtain rfl : r = .ok () := (answer ()).1 h
    exact ⟨e, t, τ, (grows_declareSegment declared).2, done, by rw [Action.act, left, tree]⟩

/-- The frame is that of an image that was bound in the run, as the image was then. -/
theorem Shown.exists_build {steps : List Action} {d : Document} {frame : Frame}
    (h : Shown steps d frame) :
    ∃ before image placement, before <+: steps ∧ image ∈ images steps ∧
      Frame.build (run before d).session.disk image placement = .ok frame := by
  cases h with
  | document before after key image placement split bound built =>
    refine ⟨before, image, placement, ⟨_, split.symm⟩, ?_, built⟩
    exact mem_images.2 ⟨.bindImage key image placement, by simp [split], rfl⟩
  | segment before middle after name path key image placement merged below n m split bound built =>
    rw [List.append_assoc] at split
    refine ⟨before, image, placement, ⟨_, split.symm⟩, ?_, built⟩
    exact mem_images.2 ⟨.onSegment name path (.bindImage key image placement), by simp [split], rfl⟩

/-- A merge on a node copies the pictures of the segments that it expands. -/
theorem copies_of_at? {name : Text} {path : List Text} {d : Document} {m : Segment}
    (h : Segment.at? (name :: path) d.root = some m) :
    (Action.onSegment name path .merge).copies d = m.copies := by
  rw [Action.copies, declareSegment_of_at? h]
  simp only [h, Option.map_some, Option.getD_some]

/-- The picture of a frame that is shown is among the document's own, or was copied by a merge; or
else one of the same source was. -/
theorem Shown.exists_same {steps : List Action} {d : Document} {frame : Frame}
    (h : Shown steps d frame) :
    ∃ q ∈ (run steps d).values.pictures ++ copied steps d,
      Path.same q.source frame.picture.source = true := by
  cases h with
  | document before after key image placement split bound built =>
    obtain ⟨e, done⟩ : ∃ e, (run before d).bindImage key image placement = (.ok (), e) :=
      ⟨_, Prod.ext bound rfl⟩
    obtain ⟨tag, frame', values, -, built', -, added, -, rfl⟩ := bindImage_eq_ok done
    obtain rfl : frame' = frame := Except.ok.inj (built'.symm.trans built)
    obtain ⟨q, mem, same⟩ :=
      Values.exists_same_addPicture frame'.picture (run before d).values.pictures
    rw [← added] at mem
    have kept := (pictures_subset_run after { run before d with values }).1 mem
    refine ⟨q, List.mem_append_left _ ?_, same⟩
    rw [split, run_append, run, Action.act, done]
    exact kept
  | segment before middle after name path key image placement merged below n m split bound built
      node top expanded =>
    obtain ⟨e, t, τ, session, called, tree⟩ := exists_onPath_of_onSegment bound
    rw [← session] at built
    obtain ⟨q, mem, same⟩ := Segment.exists_bound_of_onPath called built
    have kept := (pictures_subset_run middle ((Action.onSegment name path
      (.bindImage key image placement)).act (run before d)).2).2 (name :: path)
    rw [tree] at kept
    have here := kept mem
    have copied : q ∈ (Action.onSegment merged below .merge).copies (run (before ++
        .onSegment name path (.bindImage key image placement) :: middle) d) := by
      rw [copies_of_at? top, Segment.copies]
      refine List.mem_flatMap.2 ⟨n.own, expanded, ?_⟩
      rw [← Segment.picturesAt_of_at? node, run_append, run]
      exact here
    refine ⟨q, List.mem_append_right _ ?_, same⟩
    rw [split, copied_append]
    exact List.mem_append_right _ (List.mem_append_left _ copied)

/-! ## What is saved -/

/-- What is saved under the name of a picture after a run of a document with the given template. -/
def savedBytes? (disk : Disk) (template : List Held) (steps : List Action) (d : Document)
    (entry : Text) : Option ByteArray :=
  (((run steps d).values.pictures.reverse.find? fun p => p.entry == entry).bind
    (Picture.bytes? disk)).or
      ((contentOf template entry).or (Picture.firstBytes? disk (copied steps d) entry))

/-! ## Images that stay where they are -/

/-- Only a call that saves the document changes the session in more than the working copy. -/
theorem detached_act {a : Action} (unsaved : ∀ call, a ≠ .save call) (d : Document) :
    (a.act d).2.session.detached = d.session.detached := by
  rcases session_act_cases a d with
    ⟨same, -⟩ | ⟨name, node, e, -, -, merged⟩ | ⟨_, _, _, -, written, -⟩ | ⟨call, saves⟩
  · rw [same]
  · rw [merged]
    exact Segment.session_onPath (P := fun σ τ => τ.detached = σ.detached) (fun _ => rfl)
      Segment.detached_merge _ _ _
  · rw [written, Session.detached_withOpen _ (Archive.Edits.putText _ _)]
  · exact absurd saves (unsaved call)

/-- Only a call that saves the document touches files that have a path. -/
theorem read_act {a : Action} (unsaved : ∀ call, a ≠ .save call) (d : Document) (path : Text) :
    (a.act d).2.session.disk.read path = d.session.disk.read path :=
  Session.read_eq_of_detached_eq (detached_act unsaved d) path

theorem read_run {steps : List Action} (unsaved : ∀ a ∈ steps, ∀ call, a ≠ .save call)
    (d : Document) (path : Text) :
    (run steps d).session.disk.read path = d.session.disk.read path := by
  induction steps generalizing d with
  | nil => rfl
  | cons a steps ih =>
    rw [run, ih fun b mem => unsaved b (List.mem_cons_of_mem a mem)]
    exact read_act (unsaved a List.mem_cons_self) d path

section Saved

variable {disk made : Disk} {template : Text} {config : Config} {old : List Held} {d : Document}
  {steps : List Action} {last : SaveCall} {file : File} {after : Document}

/-- The names in a package that is saved are short enough, and so are those in the template. -/
theorem fits_of_call (held : d.session.Holds old)
    (saved : last.call (run steps d) = (.ok file, after)) : old.all Held.fits = true := by
  obtain ⟨members, final, held', -, kept, fits, -⟩ := SaveCall.exists_members_of_call saved
  obtain ⟨members', held'', names⟩ := extends_run steps d old held
  obtain rfl := held''.unique held'
  refine Archive.fits_of_fresh fits ?_ fun name mem => absurd mem List.not_mem_nil
  rw [List.append_nil]
  exact List.Subset.trans names kept.names

/-- A document that was opened, and that is saved in the end, has the package of its template, and
no picture has been copied yet. -/
theorem traced_of_openAt (opened : openAt disk template config = (.ok d, made))
    (saved : last.call (run steps d) = (.ok file, after)) :
    ∃ old, Archive.load disk (.path template) = .ok old ∧ d.session.Holds old ∧
      Traced disk (images steps) old [] d := by
  obtain ⟨old, loaded, held, reads, none⟩ := exists_holds_of_openAt opened
  refine ⟨old, loaded, held, fun path _ => reads path, ?_, old,
    ⟨held, staged_of_openAt opened, fits_of_call held saved⟩, fun p _ _ => ?_⟩
  · rw [none]
    exact fun p mem => absurd mem List.not_mem_nil
  · rw [Picture.firstBytes?, List.find?_nil, Option.bind_none, Option.or_none]

/-- The images that a run binds are known. -/
theorem image?_mem_images {a : Action} (mem : a ∈ steps) : ∀ path ∈ a.image?, path ∈ images steps :=
  fun _ image => mem_images.2 ⟨a, mem, image⟩

/-- After a run during which the images stay where they are, and which ends in a file, the invariant
holds with the template of the document. -/
theorem exists_traced (opened : openAt disk template config = (.ok d, made))
    (steady : ∀ before, before <+: steps → ∀ path ∈ images steps,
      (run before d).session.disk.read path = disk.read path)
    (saved : last.call (run steps d) = (.ok file, after)) :
    ∃ old, Archive.load disk (.path template) = .ok old ∧
      Traced disk (images steps) old (copied steps d) (run steps d) := by
  obtain ⟨old, loaded, -, fresh⟩ := traced_of_openAt opened saved
  exact ⟨old, loaded, fresh.run (fun a mem => image?_mem_images mem) steady⟩

/-- What is found in the file under the name of a picture. -/
theorem exists_contentOf_eq (traced : Traced disk (images steps) old (copied steps d) (run steps d))
    (saved : last.call (run steps d) = (.ok file, after)) {p : Picture} (usable : p.Usable disk) :
    ∃ members, file.read = .ok members ∧
      contentOf members p.entry = savedBytes? disk old steps d p.entry := by
  obtain ⟨members, final, held, read, -, -, found⟩ := SaveCall.exists_members_of_call saved
  obtain ⟨members', ready, content⟩ := traced.package
  obtain rfl := ready.holds.unique held
  have text : (run steps d).finalize.2.written? p.entry = none := by
    have other := p.entry_notMem_texts
    simp only [List.mem_cons, not_or] at other
    rw [written?, if_neg other.1, if_neg other.2.1, if_neg other.2.2.1]
  refine ⟨final, read, ?_⟩
  rw [found usable.ordinary, text, savedBytes?, Option.map_none, Option.none_or]
  cases first : (run steps d).values.pictures.reverse.find? fun q => q.entry == p.entry with
  | none =>
    have away : p.entry ∉ (run steps d).values.pictures.map Picture.entry := by
      intro mem
      obtain ⟨q, here, same⟩ := List.mem_map.1 mem
      exact List.find?_eq_none.1 first q (List.mem_reverse.2 here) (by simpa using same)
    rw [content p usable away, Option.bind_none, Option.bind_none]
  | some q =>
    have own : q ∈ (run steps d).values.pictures :=
      List.mem_reverse.1 (List.mem_of_find?_eq_some first)
    obtain ⟨known, there⟩ := traced.of_mem (List.mem_append_left _ own)
    obtain ⟨data, bytes⟩ := known.exists_bytes
    have bytes' : q.bytes? (run steps d).session.disk = some data := by
      rw [Picture.bytes?, traced.sees q.source there]
      exact bytes
    rw [Option.bind_some, Option.bind_some, bytes, bytes', Option.some_or, Option.some_or]

/-- Under the name of a picture that the document has or that was copied, there is either a picture
of this name, or the template's member, if the document has no picture of this name. -/
theorem exists_savedBytes? (traced : Traced disk (images steps) old (copied steps d) (run steps d))
    {p : Picture} (mem : p ∈ (run steps d).values.pictures ++ copied steps d) :
    ∃ data, savedBytes? disk old steps d p.entry = some data ∧
      ((∃ q ∈ (run steps d).values.pictures ++ copied steps d,
        q.entry = p.entry ∧ q.bytes? disk = some data) ∨
      contentOf old p.entry = some data ∧
        ∀ q ∈ (run steps d).values.pictures, q.entry ≠ p.entry) := by
  have known := fun q mem => (traced.of_mem (p := q) mem).1
  rw [savedBytes?]
  cases first : (run steps d).values.pictures.reverse.find? fun q => q.entry == p.entry with
  | some q =>
    have own := List.mem_append_left (copied steps d)
      (List.mem_reverse.1 (List.mem_of_find?_eq_some first))
    obtain ⟨data, bytes⟩ := (known q own).exists_bytes
    refine ⟨data, by rw [Option.bind_some, bytes, Option.some_or], .inl ⟨q, own, ?_, bytes⟩⟩
    simpa using List.find?_some first
  | none =>
    have away : ∀ q ∈ (run steps d).values.pictures, q.entry ≠ p.entry := by
      intro q own same
      exact List.find?_eq_none.1 first q (List.mem_reverse.2 own) (by simpa using same)
    rw [Option.bind_none, Option.none_or]
    cases present : contentOf old p.entry with
    | some data => exact ⟨data, Option.some_or, .inr ⟨rfl, away⟩⟩
    | none =>
      have copied : p ∈ copied steps d :=
        (List.mem_append.1 mem).resolve_left fun own => away p own rfl
      obtain ⟨q, here, same, data, bytes, firstBytes⟩ :=
        Picture.exists_firstBytes? (fun q mem => known q (List.mem_append_right _ mem)) copied
      exact ⟨data, by rw [Option.none_or, firstBytes],
        .inl ⟨q, List.mem_append_right _ here, same, bytes⟩⟩

end Saved

/-- **Frames show pictures of their names.**  A document is opened and used, by any calls that leave
the images where they are, and a call that saves it succeeds.  Then for every frame that is shown
the member that the frame names is in the file, and it holds what `savedBytes?` says.  This is the
image that was bound if every image of its file name that is bound under another path has the same
bytes, and if either the template has no member of this name or an image of this file name was bound
at the document. -/
theorem contentOf_shown {disk made : Disk} {template : Text} {config : Config} {d : Document}
    {steps : List Action} {last : SaveCall} {file : File} {after : Document} {frame : Frame}
    (opened : openAt disk template config = (.ok d, made))
    (steady : ∀ before, before <+: steps → ∀ path ∈ images steps,
      (run before d).session.disk.read path = disk.read path)
    (saved : last.call (run steps d) = (.ok file, after)) (shown : Shown steps d frame) :
    ∃ old members data, Archive.load disk (.path template) = .ok old ∧
      file.read = .ok members ∧
      contentOf members frame.picture.entry = some data ∧
      savedBytes? disk old steps d frame.picture.entry = some data ∧
      ('\n' ∉ frame.picture.file →
        Frame.Refers (Markup.encodeValue false frame.xml) frame.picture.entry) ∧
      ((∀ path ∈ images steps, Path.fileName? path = some frame.picture.file →
          Path.same path frame.picture.source = false →
          Picture.bytes? disk ⟨path, frame.picture.file⟩ = frame.picture.bytes? disk) →
        (contentOf old frame.picture.entry = none ∨
          ∃ q ∈ (run steps d).values.pictures, q.file = frame.picture.file) →
        frame.picture.bytes? disk = some data) := by
  obtain ⟨old, loaded, traced⟩ := exists_traced opened steady saved
  obtain ⟨before, image, placement, first, known, built⟩ := shown.exists_build
  obtain ⟨name, content, named, read, picture, -⟩ := Frame.exists_of_build built
  have usable : frame.picture.Usable disk := by
    rw [steady before first image known] at read
    rw [picture]
    exact ⟨⟨content, read⟩, named⟩
  have files {q : Picture} (same : q.entry = frame.picture.entry) :
      q.file = frame.picture.file := List.append_cancel_left same
  -- the picture that was added for this image need not be this one, but it has the same name
  obtain ⟨q, mem, same⟩ := shown.exists_same
  have entry : q.entry = frame.picture.entry := by
    have names := Path.fileName?_eq_of_same same
    rw [(traced.of_mem mem).1.named, usable.named, Option.some.injEq] at names
    rw [Picture.entry, Picture.entry, names]
  obtain ⟨data, bytes, origin⟩ := exists_savedBytes? traced mem
  obtain ⟨members, opened, found⟩ := exists_contentOf_eq traced saved usable
  rw [entry] at bytes origin
  refine ⟨old, members, data, loaded, opened, found.trans bytes, bytes,
    Frame.refers_of_build built, fun alike free => ?_⟩
  rcases origin with ⟨r, here, same, copy⟩ | ⟨present, away⟩
  · obtain ⟨usable', there⟩ := traced.of_mem here
    have image : r.bytes? disk = frame.picture.bytes? disk := by
      cases path : Path.same r.source frame.picture.source with
      | false =>
        exact alike r.source there (usable'.named.trans (congrArg some (files same))) path
      | true =>
        obtain ⟨f, readr⟩ := usable'.readable
        obtain ⟨g, readp⟩ := usable.readable
        rw [Picture.bytes?_of_read readr, Picture.bytes?_of_read readp,
          Disk.read_eq_of_same path readr readp]
    exact image.symm.trans copy
  · rcases free with absent | ⟨r, own, file⟩
    · rw [absent] at present
      cases present
    · exact absurd (congrArg Part.picture file) (away r own)

/-! ## One image and a template that has its name -/

/-- The image of a square of a few pixels. -/
def square (side : UInt8) : ByteArray :=
  ⟨#[0x47, 0x49, 0x46, 0x38, 0x39, 0x61, side, 0, side, 0]⟩

/-- A disk with a template, which may have a picture of its own, and with an image of one pixel. -/
def desk (taken : Bool) : Disk :=
  let texts := [(Part.content, "[!-- BEGIN s --]\x7bp\x7d[!-- END s --]".toList),
    (Part.styles, []), (Part.meta_, []),
    (Part.manifest, "<manifest:manifest></manifest:manifest>".toList)]
  let members := texts.map fun (name, t) => Zip.Member.mk name .stored (Text.toBytes t)
  let own := if taken then [⟨Part.picture "x".toList, .stored, square 2⟩] else []
  { Disk.empty with nodes :=
    (Disk.empty.current ++ ["t".toList], .file (.package (members ++ own))) ::
      (Disk.empty.current ++ ["x".toList], .file (.bytes (square 1))) :: Disk.empty.nodes }

/-- The image is bound on a segment, which is merged and put into the content. -/
def mergeImage : List Action :=
  [.onSegment "s".toList [] (.bindImage "p".toList "x".toList Placement.inText),
    .onSegment "s".toList [] .merge, .mergeSegment "s".toList]

theorem unsaved_mergeImage : ∀ a ∈ mergeImage, ∀ call, a ≠ .save call := by
  intro a mem call same
  subst same
  simp [mergeImage] at mem

theorem eq_ok_of_toOption {ε α : Type} {r : Except ε α} {a : α} (h : r.toOption = some a) :
    r = .ok a := by
  rcases r with cause | b
  · cases h
  · cases h
    rfl

theorem exists_eq_ok_of_isSome {ε α : Type} {r : Except ε α} (h : r.toOption.isSome = true) :
    ∃ a, r = .ok a := by
  rcases r with cause | a
  · cases h
  · exact ⟨a, rfl⟩

/-- The template is opened, the image stays where it is, the document is saved after the run, and
the frame is shown. -/
theorem exists_shown_mergeImage (taken : Bool) :
    ∃ d made frame file after,
      openAt (desk taken) "t".toList Config.standard = (.ok d, made) ∧
      (∀ before, before <+: mergeImage → ∀ path ∈ images mergeImage,
        (run before d).session.disk.read path = (desk taken).read path) ∧
      SaveCall.toFile.call (run mergeImage d) = (.ok file, after) ∧
      Shown mergeImage d frame ∧ frame.picture = ⟨"x".toList, "x".toList⟩ := by
  let bind := Action.onSegment "s".toList [] (.bindImage "p".toList "x".toList Placement.inText)
  have opens : ∀ taken,
      (openAt (desk taken) "t".toList Config.standard).1.toOption.isSome = true := by
    decide +kernel
  have outcome : ∀ taken, ∀ d ∈ (openAt (desk taken) "t".toList Config.standard).1.toOption,
      (bind.act d).1.toOption.isSome = true ∧
      (Frame.build d.session.disk "x".toList Placement.inText).toOption.map Frame.picture
        = some ⟨"x".toList, "x".toList⟩ ∧
      (Segment.at? ["s".toList] (run [bind] d).root).isSome = true ∧
      (SaveCall.toFile.call (run mergeImage d)).1.toOption.isSome = true := by
    decide +kernel
  rcases opened : openAt (desk taken) "t".toList Config.standard with ⟨cause | d, made⟩
  · have := opens taken
    rw [opened] at this
    cases this
  · obtain ⟨bound, measured, there, saves⟩ := outcome taken d (by rw [opened]; rfl)
    obtain ⟨u, bound⟩ := exists_eq_ok_of_isSome bound
    obtain ⟨file, saves⟩ := exists_eq_ok_of_isSome saves
    obtain ⟨n, node⟩ := Option.isSome_iff_exists.1 there
    obtain ⟨frame, built, picture⟩ := Option.map_eq_some_iff.1 measured
    have built := eq_ok_of_toOption built
    obtain ⟨members, -, -, reads, -⟩ := exists_holds_of_openAt opened
    have steady : ∀ before, before <+: mergeImage → ∀ path ∈ images mergeImage,
        (run before d).session.disk.read path = (desk taken).read path := by
      intro before first path _
      rw [read_run (fun a mem => unsaved_mergeImage a (first.subset mem)) d path, reads path]
    refine ⟨d, made, frame, file, _, rfl, steady, Prod.ext saves rfl, ?_, picture⟩
    exact .segment [] [] [.mergeSegment "s".toList] "s".toList [] "p".toList "x".toList
      Placement.inText "s".toList [] n n rfl bound built node node (Segment.own_mem_expanded n)

/-- The frame of a segment's image names a member that holds the image. -/
theorem contentOf_shown_mergeImage :
    ∃ d made frame file after members,
      openAt (desk false) "t".toList Config.standard = (.ok d, made) ∧
      SaveCall.toFile.call (run mergeImage d) = (.ok file, after) ∧
      Shown mergeImage d frame ∧ file.read = .ok members ∧
      Frame.Refers (Markup.encodeValue false frame.xml) frame.picture.entry ∧
      contentOf members frame.picture.entry = some (square 1) := by
  obtain ⟨d, made, frame, file, after, opened, steady, saved, shown, picture⟩ :=
    exists_shown_mergeImage false
  obtain ⟨old, members, data, loaded, read, found, -, refers, exact⟩ :=
    contentOf_shown opened steady saved shown
  have absent : ∀ old ∈ (Archive.load (desk false) (.path "t".toList)).toOption,
      contentOf old (Part.picture "x".toList) = none := by
    decide +kernel
  have image : Picture.bytes? (desk false) ⟨"x".toList, "x".toList⟩ = some (square 1) := by
    decide +kernel
  have copy : frame.picture.bytes? (desk false) = some data := by
    refine exact (fun path mem _ _ => ?_) (.inl ?_)
    · obtain rfl : path = "x".toList := List.mem_singleton.1 mem
      rw [picture]
    · rw [picture]
      exact absent old (by rw [loaded]; rfl)
  rw [picture, image, Option.some.injEq] at copy
  subst copy
  exact ⟨d, made, frame, file, after, members, opened, saved, shown, read,
    refers (by rw [picture]; decide), found⟩

/-- The template has a member of the name of the image.  The frame of a segment's image then names
this member, which is not the image. -/
theorem contentOf_shown_not_image :
    ∃ d made frame file after members,
      openAt (desk true) "t".toList Config.standard = (.ok d, made) ∧
      (∀ before, before <+: mergeImage → ∀ path ∈ images mergeImage,
        (run before d).session.disk.read path = (desk true).read path) ∧
      SaveCall.toFile.call (run mergeImage d) = (.ok file, after) ∧
      Shown mergeImage d frame ∧ file.read = .ok members ∧
      Frame.Refers (Markup.encodeValue false frame.xml) frame.picture.entry ∧
      frame.picture.bytes? (desk true) = some (square 1) ∧
      contentOf members frame.picture.entry = some (square 2) := by
  obtain ⟨d, made, frame, file, after, opened, steady, saved, shown, picture⟩ :=
    exists_shown_mergeImage true
  have held : ∀ d ∈ (openAt (desk true) "t".toList Config.standard).1.toOption,
      ∀ file ∈ (SaveCall.toFile.call (run mergeImage d)).1.toOption,
        file.read.toOption.map (fun members => contentOf members (Part.picture "x".toList))
          = some (some (square 2)) := by
    decide +kernel
  have image : Picture.bytes? (desk true) ⟨"x".toList, "x".toList⟩ = some (square 1) := by
    decide +kernel
  have held := held d (by rw [opened]; rfl) file (by rw [saved]; rfl)
  obtain ⟨members, read, found⟩ := Option.map_eq_some_iff.1 held
  obtain ⟨before, path, placement, -, -, built⟩ := shown.exists_build
  refine ⟨d, made, frame, file, after, members, opened, steady, saved, shown,
    eq_ok_of_toOption read, Frame.refers_of_build built ?_, ?_, ?_⟩
  · rw [picture]
    decide
  · rw [picture]
    exact image
  · rw [picture]
    exact found

end Document

end DocumentMerge
