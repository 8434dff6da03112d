import DocumentMerge.WorkingCopy

/-!
# Sessions without a working copy

A segment shares a session with its document, and a merge writes pictures into the working copy of
that session.  None of this can be seen in the text that a merge makes: a call on a segment reads
the configuration and the files that have a path, and it writes only to the temporary file of the
working copy, which no path names.

So a session is compared with its *detached* form, which has no working copy and no temporary
files.  Copying pictures keeps the detached form (`detached_embed`), reading an image gives the
same frame in both (`Frame.build_bare`), and on a detached session copying pictures does nothing at
all (`embed_of_no_working`).  Proofs about segments may therefore take the session to be detached, and
then it is one and the same session throughout.
-/

namespace DocumentMerge

namespace Disk

/-- A disk without its temporary files. -/
def bare (d : Disk) : Disk :=
  { d with temporaries := [] }

theorem bare_discard (d : Disk) (file : Temporary) : (d.discard file).bare = d.bare := rfl

theorem walk_bare (d : Disk) (here steps : List Text) :
    d.bare.walk here steps = d.walk here steps := by
  induction steps generalizing here with
  | nil => rfl
  | cons step steps ih =>
    have same : d.bare.node? here = d.node? here := rfl
    rw [walk, walk, same]
    simp only [ih]

/-- A path leads to the same file whatever temporary files there are. -/
@[simp] theorem read_bare (d : Disk) (path : Text) : d.bare.read path = d.read path := by
  have located : d.bare.locate path = d.locate path := by
    rw [locate, locate]
    cases refusal? path with
    | some cause => rfl
    | none => exact d.walk_bare _ _
  rw [read, read, located]
  rfl

/-- A new file can be prepared whatever temporary files there are. -/
@[simp] theorem stage_bare (d : Disk) (location : Location) :
    d.bare.stage location = d.stage location := by
  have admits (directory name : Text) : d.bare.admits directory name = d.admits directory name := by
    rw [admits, Disk.admits, walkToDirectory, walkToDirectory, walk_bare]
    rfl
  cases location with
  | path path => exact admits _ _
  | temporary file => exact admits _ _

end Disk

@[simp] theorem Picture.size_bare (d : Disk) (path : Text) :
    Picture.size d.bare path = Picture.size d path := by
  rw [Picture.size, Picture.size, Disk.read_bare]

/-- An image gives the same frame whatever temporary files there are. -/
@[simp] theorem Frame.build_bare (d : Disk) (path : Text) (p : Placement) :
    Frame.build d.bare path p = Frame.build d path p := by
  rw [Frame.build, Frame.build, Picture.size_bare]

/-! ## Editing a temporary package -/

namespace Archive

@[simp] theorem location_put (a : Archive) (name : Text) (data : ByteArray) :
    (a.put name data).2.location = a.location := by
  rw [put]
  split
  · rfl
  · rfl

@[simp] theorem location_putFile (a : Archive) (disk : Disk) (source name : Text) :
    (a.putFile disk source name).2.location = a.location := by
  rw [putFile]
  split
  · rfl
  · exact location_put _ _ _

/-- A handle that was opened is at the location for which it was asked. -/
theorem location_openAt {a opened : Archive} {disk : Disk} {location : Location}
    (h : a.openAt disk location = (.ok (), opened)) : opened.location = some location := by
  rw [openAt] at h
  split at h
  · cases h
  · split at h
    · cases h
    · cases h
      rfl

/-- Members are written back to a temporary file if the new package can be prepared beside it and
all names are short enough for a package. -/
theorem store_temporary_eq_ok_iff {disk after : Disk} {file : Temporary}
    {members : List Zip.Member} :
    store disk (.temporary file) members = .ok after ↔
      disk.stage (.temporary file) = .ok () ∧ members.all Zip.Member.fits = true ∧
        after = disk.fillTemporary file (toFile members) := by
  rw [store]
  cases disk.stage (.temporary file) with
  | error cause => simp
  | ok staged =>
    cases fit : members.all Zip.Member.fits with
    | false => simp
    | true =>
      have done : (disk.replace (toFile members) (.temporary file)).mapError ArchiveError.io
          = .ok (disk.fillTemporary file (toFile members)) := rfl
      simp [done, eq_comm]

/-- Writing a package back to a temporary file touches nothing else. -/
theorem discard_close {a b : Archive} {disk after : Disk} {file : Temporary}
    {r : Except ArchiveError Unit} (at_ : a.location = some (.temporary file))
    (h : a.close disk = (r, b, after)) : after.discard file = disk.discard file := by
  rw [close, at_] at h
  simp only at h
  split at h
  · split at h
    · cases h; rfl
    · next stored =>
      cases h
      obtain ⟨-, -, rfl⟩ := store_temporary_eq_ok_iff.1 stored
      exact Disk.discard_fillTemporary _ _ _
  · cases h; rfl

end Archive

namespace WorkingCopy

/-- Putting pictures leaves the package where it is. -/
theorem location_putPictures {disk : Disk} {keep : Bool} (pictures : List Picture) (a : Archive) :
    (putPictures disk keep pictures a).2.location = a.location := by
  induction pictures generalizing a with
  | nil => rfl
  | cons p pictures ih =>
    rw [putPictures]
    cases a.contains p.entry with
    | error cause => rfl
    | ok present =>
      simp only
      split
      · exact ih a
      · have kept := a.location_putFile disk p.source p.entry
        revert kept
        rcases a.putFile disk p.source p.entry with ⟨cause | ⟨⟩, b⟩
        · exact fun kept => kept
        · exact fun kept => (ih b).trans kept

/-- An edit that leaves the package where it is touches nothing but the file of the working copy. -/
theorem discard_withOpen {α : Type} (w : WorkingCopy) (disk : Disk)
    {edit : Archive → Except Error α × Archive}
    (keeps : ∀ a, (edit a).2.location = a.location) :
    (w.withOpen disk edit).2.1.file = w.file ∧
      (w.withOpen disk edit).2.2.discard w.file = disk.discard w.file := by
  rw [withOpen]
  split
  · exact ⟨rfl, rfl⟩
  · rcases opening : w.archive.openAt disk (.temporary w.file) with ⟨cause | ⟨⟩, opened⟩
    · exact ⟨rfl, rfl⟩
    · have edited : (edit opened).2.location = some (.temporary w.file) := by
        rw [keeps, Archive.location_openAt opening]
      have closing : ((edit opened).2.close disk).2.2.discard w.file = disk.discard w.file :=
        Archive.discard_close edited rfl
      simp only
      split
      · exact ⟨rfl, closing⟩
      · exact ⟨rfl, closing⟩
      · exact ⟨rfl, closing⟩

/-- So it touches nothing that has a path. -/
theorem bare_withOpen {α : Type} (w : WorkingCopy) (disk : Disk)
    {edit : Archive → Except Error α × Archive}
    (keeps : ∀ a, (edit a).2.location = a.location) :
    (w.withOpen disk edit).2.2.bare = disk.bare := by
  rw [← Disk.bare_discard _ w.file, (w.discard_withOpen disk keeps).2, Disk.bare_discard]

theorem bare_embed (w : WorkingCopy) (disk : Disk) (pictures : List Picture) :
    (w.embed disk pictures).2.2.bare = disk.bare := by
  rw [embed]
  split
  · rfl
  · exact w.bare_withOpen disk fun a => location_putPictures pictures a

end WorkingCopy

namespace Session

/-- A session without its working copy and without temporary files. -/
def detached (σ : Session) : Session :=
  ⟨σ.config, none, σ.disk.bare⟩

/-- The session of a segment that belongs to no document, with the standard tags. -/
def alone (disk : Disk) : Session :=
  ⟨Config.standard, none, disk⟩

@[simp] theorem config_detached (σ : Session) : σ.detached.config = σ.config := rfl

@[simp] theorem disk_detached (σ : Session) : σ.detached.disk = σ.disk.bare := rfl

/-- Copying pictures changes only the working copy. -/
@[simp] theorem detached_embed (σ : Session) (pictures : List Picture) :
    (σ.embed pictures).2.detached = σ.detached := by
  rw [embed]
  cases copy : σ.working with
  | none => rfl
  | some w =>
    simp only [detached]
    rw [w.bare_embed σ.disk pictures]

/-- Without a working copy there is nothing to copy pictures into. -/
theorem embed_of_no_working {σ : Session} (h : σ.working = none) (pictures : List Picture) :
    σ.embed pictures = (.ok (), σ) := by
  rw [embed, h]

end Session

end DocumentMerge
