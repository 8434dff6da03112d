import DocumentMerge.Proofs.Disk.Following
import DocumentMerge.Proofs.Package.Rewriting

/-!
# From opening to opening again

A package is opened, content is put under some names, the package is closed, and later it is opened
again.  Some of the calls in between may fail; they leave the handle as it was, so the package is
written with what the others put.

* `Put` are the calls, and `edit` makes one after the other and says what was put.
* `edit_eq`: the handle is then that of a package in which all this was put.
* `openAt_of_close`: a package that was closed after a change is opened with the members that were
  written, wherever it is.
* `reopened_after_edits`: the names, contents and methods that are found, for any calls.  If none of
  them succeeded, the package was not written at all.
* `reopened_directory_stored`: a directory that was kept compressed is not when it is written.
-/

namespace DocumentMerge

open Zip (Held)

/-- What was written to a location is found there. -/
theorem Disk.fetch_replace {disk after : Disk} {content : File} {location : Location}
    (h : disk.replace content location = .ok after) : after.fetch location = .ok content := by
  cases location with
  | path path => exact read_write h
  | temporary file =>
    cases h
    rw [fetch, temporary?_fillTemporary]

namespace Archive

/-! ## Calls that put content -/

/-- A call that puts content under a name. -/
inductive Put where
  | bytes (name : Text) (data : ByteArray)
  | text (name t : Text)
  /-- Puts what is in a file. -/
  | file (source name : Text)

namespace Put

/-- Makes the call. -/
def act (disk : Disk) : Put → Archive → Except ArchiveError Unit × Archive
  | .bytes name data, a => a.put name data
  | .text name t, a => a.putText name t
  | .file source name, a => a.putFile disk source name

/-- The name under which content is put. -/
def name : Put → Text
  | .bytes name _ => name
  | .text name _ => name
  | .file _ name => name

/-- The content that is put.  There is none in a file that cannot be read. -/
def content (disk : Disk) : Put → ByteArray
  | .bytes _ data => data
  | .text _ t => t.toBytes
  | .file source _ => ((disk.read source).toOption.map File.toBytes).getD ByteArray.empty

/-- All that a call can do: fail and change nothing, or put its content under its name into an open
package. -/
theorem act_cases (disk : Disk) (c : Put) (a : Archive) :
    (∃ cause, c.act disk a = (.error cause, a)) ∨
      (a.location.isSome = true ∧ c.act disk a = (.ok (), a.having c.name (c.content disk))) := by
  have put (name : Text) (data : ByteArray) : (∃ cause, a.put name data = (.error cause, a)) ∨
      (a.location.isSome = true ∧ a.put name data = (.ok (), a.having name data)) :=
    (a.put_cases name data).imp_left fun ⟨_, failed⟩ => ⟨_, failed⟩
  cases c with
  | bytes name data => exact put name data
  | text name t => exact put name t.toBytes
  | file source name =>
    rw [act, putFile, content]
    cases read : disk.read source with
    | error cause => exact .inl ⟨_, rfl⟩
    | ok file => exact put name file.toBytes

end Put

/-- Makes one call after another, whatever they answer.  What was put comes with the handle. -/
def edit (disk : Disk) : List Put → Archive → List (Text × ByteArray) × Archive
  | [], a => ([], a)
  | c :: calls, a =>
    match c.act disk a with
    | (.ok (), b) => ((c.name, c.content disk) :: (edit disk calls b).1, (edit disk calls b).2)
    | (.error _, b) => edit disk calls b

/-- All that making several calls can do with the first one. -/
theorem edit_cons_cases (disk : Disk) (c : Put) (calls : List Put) (a : Archive) :
    edit disk (c :: calls) a = edit disk calls a ∨
      edit disk (c :: calls) a =
        ((c.name, c.content disk) :: (edit disk calls (a.having c.name (c.content disk))).1,
          (edit disk calls (a.having c.name (c.content disk))).2) := by
  rw [edit]
  rcases c.act_cases disk a with ⟨cause, failed⟩ | ⟨-, done⟩
  · exact .inl (by rw [failed])
  · exact .inr (by rw [done])

/-- After some calls all is in the package that was put. -/
theorem edit_eq (disk : Disk) (calls : List Put) (a : Archive) :
    (edit disk calls a).2 = a.havingAll (edit disk calls a).1 := by
  induction calls generalizing a with
  | nil => rfl
  | cons c calls ih =>
    rcases edit_cons_cases disk c calls a with same | put
    · rw [same]
      exact ih a
    · rw [put]
      exact ih _

/-- What was put has the name of a call. -/
theorem exists_of_mem_edit {disk : Disk} {calls : List Put} {a : Archive} {p : Text × ByteArray}
    (mem : p ∈ (edit disk calls a).1) : ∃ c ∈ calls, p = (c.name, c.content disk) := by
  induction calls generalizing a with
  | nil => exact absurd mem List.not_mem_nil
  | cons c calls ih =>
    have later {b : Archive} (mem : p ∈ (edit disk calls b).1) :
        ∃ e ∈ c :: calls, p = (e.name, e.content disk) := by
      obtain ⟨e, there, same⟩ := ih mem
      exact ⟨e, List.mem_cons_of_mem _ there, same⟩
    rcases edit_cons_cases disk c calls a with same | put
    · rw [same] at mem
      exact later mem
    · rw [put] at mem
      rcases List.mem_cons.1 mem with here | mem
      · exact ⟨c, List.mem_cons_self, here⟩
      · exact later mem

/-! ## Opening and closing -/

/-- All that opening a handle can do: fail and change nothing, or take the members of the package into
a closed handle. -/
theorem openAt_cases (a : Archive) (disk : Disk) (location : Location) :
    (∃ cause, a.openAt disk location = (.error cause, a)) ∨
      ∃ members, a.location = none ∧ load disk location = .ok members ∧
        a.openAt disk location = (.ok (), ⟨some location, members, false⟩) := by
  rw [openAt]
  cases shut : a.location with
  | some present => exact .inl ⟨_, rfl⟩
  | none =>
    cases loaded : load disk location with
    | error cause => exact .inl ⟨_, rfl⟩
    | ok members => exact .inr ⟨members, rfl, rfl, rfl⟩

/-- A handle that was opened has the members of the package. -/
theorem openAt_eq_ok {a opened : Archive} {disk : Disk} {location : Location}
    (h : a.openAt disk location = (.ok (), opened)) :
    a.location = none ∧ load disk location = .ok opened.held ∧
      opened = ⟨some location, opened.held, false⟩ := by
  rcases a.openAt_cases disk location with ⟨cause, failed⟩ | ⟨members, shut, loaded, done⟩
  · rw [failed] at h
    cases h
  · rw [done] at h
    cases h
    exact ⟨shut, loaded, rfl⟩

/-- A closed handle can be opened on a package that can be read. -/
theorem openAt_closed {disk : Disk} {location : Location} {members : List Held}
    (h : load disk location = .ok members) :
    closed.openAt disk location = (.ok (), ⟨some location, members, false⟩) := by
  rw [openAt, closed]
  simp only [h]

/-- A package that nobody changed is left alone when it is closed. -/
theorem close_of_clean {a : Archive} {disk : Disk} {location : Location}
    (at_ : a.location = some location) (clean : a.dirty = false) :
    a.close disk = (.ok (), closed, disk) := by
  rw [close, at_, clean]
  rfl

/-- A package that was changed is written when it is closed, and can be opened again. -/
theorem openAt_of_close {a shut : Archive} {disk after : Disk} {location : Location}
    (at_ : a.location = some location) (dirty : a.dirty = true)
    (h : a.close disk = (.ok (), shut, after)) :
    shut = closed ∧
      closed.openAt after location = (.ok (), ⟨some location, rewritten a.held, false⟩) := by
  rw [close, at_, dirty] at h
  simp only [if_true] at h
  cases stored : store disk location a.entries with
  | error cause => rw [stored] at h; cases h
  | ok changed =>
    rw [stored] at h
    cases h
    refine ⟨rfl, openAt_closed ?_⟩
    rw [store] at stored
    cases staged : disk.stage location with
    | error cause => rw [staged] at stored; cases stored
    | ok u =>
      rw [staged] at stored
      simp only at stored
      split at stored
      · cases replaced : disk.replace (toFile a.entries) location with
        | error cause => rw [replaced] at stored; cases stored
        | ok there =>
          rw [replaced] at stored
          cases stored
          rw [load, Disk.fetch_replace replaced]
          simp only [entries, read_toFile]
      · cases stored

/-- **A whole cycle.**  A package with distinct names, in which no directory has content, is opened;
then calls put content under names of files, and some of them may fail; then the package is closed
and opened again.

If no call succeeded, nothing was written.  Otherwise every name is there once: that of the media
type first, if there is one, then the names that were there in their order, then the new ones in the
order in which they were put first.  Every member has the content that was put last, or else the one
it had.  The media type is stored, and what was stored stays stored; every other file is deflated,
however it was compressed before. -/
theorem reopened_after_edits {a opened edited shut : Archive} {disk after : Disk}
    {location : Location} {calls : List Put} {puts : List (Text × ByteArray)}
    (opening : a.openAt disk location = (.ok (), opened))
    (distinct : (opened.held.map Held.name).Nodup)
    (hollow : ∀ m ∈ opened.held, Zip.isDirectoryName m.name = true → m.data = ByteArray.empty)
    (files : ∀ c ∈ calls, Zip.isDirectoryName c.name = false)
    (edits : edit disk calls opened = (puts, edited))
    (closing : edited.close disk = (.ok (), shut, after)) :
    ∃ reopened, shut.openAt after location = (.ok (), reopened) ∧
      (puts = [] → after = disk ∧ reopened.held = opened.held) ∧
      (puts ≠ [] →
        let names := opened.held.map Held.name
        (reopened.held.map Held.name).Nodup ∧
        reopened.held.map Held.name = mimetypeFirst
          (names ++ ((puts.map Prod.fst).filter fun name => name ∉ names).eraseDups) ∧
        ∀ m ∈ reopened.held,
          (puts.reverse.lookup m.name).or (contentOf opened.held m.name) = some m.data ∧
          (m.name = Part.mimetype ∨ compressionOf opened.held m.name = .stored →
            m.compression = .stored) ∧
          (Zip.isDirectoryName m.name = false → m.name ≠ Part.mimetype →
            compressionOf opened.held m.name ≠ .stored → m.compression = .deflated)) := by
  obtain ⟨shut', loaded, fresh⟩ := openAt_eq_ok opening
  have whole : edited = opened.havingAll puts := by
    have := edit_eq disk calls opened
    rwa [edits] at this
  have at_ : edited.location = some location := by
    rw [whole, location_havingAll, fresh]
  have held : edited.held = putAll puts opened.held := by
    rw [whole, held_havingAll]
  have dirty : edited.dirty = !puts.isEmpty := by
    rw [whole, dirty_havingAll, fresh, Bool.false_or]
  by_cases none : puts = []
  · rw [close_of_clean at_ (by rw [dirty, none]; rfl)] at closing
    cases closing
    refine ⟨opened, ?_, fun _ => ⟨rfl, rfl⟩, fun some => absurd none some⟩
    rw [openAt_closed loaded, ← fresh]
  · have changed : edited.dirty = true := by
      rw [dirty]
      simpa using none
    obtain ⟨rfl, again⟩ := openAt_of_close at_ changed closing
    refine ⟨_, again, fun empty => absurd empty none, fun _ => ?_⟩
    have distinct' := nodup_putAll distinct puts
    simp only [held]
    refine ⟨nodup_rewritten distinct', ?_, fun m mem => ⟨?_, ?_⟩⟩
    · rw [map_name_rewritten distinct', map_name_putAll]
    · refine data_of_mem_rewritten_of_hollow distinct puts hollow (fun p there => ?_) mem
      rw [show puts = (edit disk calls opened).1 by rw [edits]] at there
      obtain ⟨c, called, rfl⟩ := exists_of_mem_edit there
      exact files c called
    · rw [compression_of_mem_rewritten distinct puts mem]
      exact ⟨writtenCompression_of_stored, writtenCompression_of_file⟩

/-! ### Packages on a shelf -/

/-- Where the package of the next disk is. -/
def shelfPlace : Location :=
  .path "p".toList

/-- A disk with one file. -/
def shelf (file : File) : Disk :=
  { Disk.empty with nodes :=
    (Disk.empty.current ++ ["p".toList], .file file) :: Disk.empty.nodes }

/-- The handle on a package with the given members. -/
def shelfOpened (members : List Held) : Archive :=
  ⟨some shelfPlace, members, false⟩

/-- Calls of which the second fails, as there is no such file. -/
def shelfCalls : List Put :=
  [.text "c".toList "x".toList, .file "gone".toList "a".toList, .text "c".toList "y".toList]

theorem openAt_shelf {file : File} {members : List Held} (read : file.read = .ok members) :
    closed.openAt (shelf file) shelfPlace = (.ok (), shelfOpened members) := by
  have there : (shelf file).fetch shelfPlace = .ok file := rfl
  exact openAt_closed (by rw [load, there]; simp only [read])

/-- A package on the shelf is written in its place. -/
theorem close_shelf (file : File) {a : Archive} (at_ : a.location = some shelfPlace)
    (dirty : a.dirty = true) (fits : a.held.all Held.fits = true) :
    a.close (shelf file) = (.ok (), closed, shelf (toFile a.entries)) := by
  have staged : (shelf file).stage shelfPlace = .ok () := by
    have beside : Disk.directoryBeside "p".toList = Path.here := by decide +kernel
    rw [shelfPlace, Disk.stage, beside]
    rfl
  rw [← all_fits_entries] at fits
  rw [close, at_, dirty]
  simp only [if_true, store, staged, fits]
  rfl

/-- The bytes of a package with a member `b` that is compressed by bzip2, and the media type behind
it. -/
def foreignBytes : ByteArray :=
  ⟨#[
    80, 75, 3, 4, 46, 0, 0, 0, 12, 0, 0, 0, 33, 0, 183, 239, 220, 131, 37, 0, 0, 0, 1, 0, 0, 0,
    1, 0, 0, 0, 98, 66, 90, 104, 57, 49, 65, 89, 38, 83, 89, 97, 4, 48, 108, 0, 0, 0, 8, 0, 32,
    0, 32, 0, 33, 24, 70, 130, 238, 72, 167, 10, 18, 12, 32, 134, 13, 128, 80, 75, 3, 4, 20, 0,
    0, 0, 0, 0, 0, 0, 33, 0, 104, 242, 1, 225, 1, 0, 0, 0, 1, 0, 0, 0, 8, 0, 0, 0, 109, 105,
    109, 101, 116, 121, 112, 101, 109, 80, 75, 1, 2, 46, 3, 46, 0, 0, 0, 12, 0, 0, 0, 33, 0,
    183, 239, 220, 131, 37, 0, 0, 0, 1, 0, 0, 0, 1, 0, 0, 0, 0, 0, 0, 0, 0, 0, 0, 0, 128, 1, 0,
    0, 0, 0, 98, 80, 75, 1, 2, 20, 3, 20, 0, 0, 0, 0, 0, 0, 0, 33, 0, 104, 242, 1, 225, 1, 0, 0,
    0, 1, 0, 0, 0, 8, 0, 0, 0, 0, 0, 0, 0, 0, 0, 0, 0, 128, 1, 68, 0, 0, 0, 109, 105, 109, 101,
    116, 121, 112, 101, 80, 75, 5, 6, 0, 0, 0, 0, 2, 0, 2, 0, 101, 0, 0, 0, 107, 0, 0, 0, 0, 0]⟩

/-- What a decompressor makes of the content of `b`. -/
def unpackForeign : Zip.Unpack := fun codec kept =>
  if codec = .bzip2 ∧ kept.data = (foreignBytes.extract 31 68).data then some (Text.toBytes "1".toList)
  else none

/-- The members of that package. -/
def foreignMembers : List Held :=
  [⟨"b".toList, .coded .bzip2, Text.toBytes "1".toList⟩,
    ⟨Part.mimetype, .stored, Text.toBytes "m".toList⟩]

theorem read_foreign : (File.bytes foreignBytes unpackForeign).read = .ok foreignMembers := by
  decide +kernel

/-- The member that was compressed by bzip2 keeps its content and is deflated; the new one is put twice
and stands last; the call that failed put nothing. -/
theorem reopened_after_edits_foreign :
    let disk := shelf (.bytes foreignBytes unpackForeign)
    ∃ after reopened, closed.openAt disk shelfPlace = (.ok (), shelfOpened foreignMembers) ∧
      (edit disk shelfCalls (shelfOpened foreignMembers)).2.close disk = (.ok (), closed, after) ∧
      closed.openAt after shelfPlace = (.ok (), reopened) ∧
      reopened.held.map Held.name = [Part.mimetype, "b".toList, "c".toList] ∧
      ∀ m ∈ reopened.held,
        (m.name = Part.mimetype → m.compression = .stored) ∧
        (m.name = "b".toList → m.data = Text.toBytes "1".toList ∧ m.compression = .deflated) ∧
        (m.name = "c".toList → m.data = Text.toBytes "y".toList ∧ m.compression = .deflated) := by
  intro disk
  have distinct : ((shelfOpened foreignMembers).held.map Held.name).Nodup := by decide
  have hollow : ∀ m ∈ (shelfOpened foreignMembers).held, Zip.isDirectoryName m.name = true →
      m.data = ByteArray.empty := by decide
  have files : ∀ c ∈ shelfCalls, Zip.isDirectoryName c.name = false := by decide
  have closing := close_shelf (.bytes foreignBytes unpackForeign)
    (a := (edit disk shelfCalls (shelfOpened foreignMembers)).2) rfl rfl (by decide +kernel)
  obtain ⟨reopened, again, -, written⟩ :=
    reopened_after_edits (openAt_shelf read_foreign) distinct hollow files rfl closing
  obtain ⟨-, names, members⟩ := written (by decide)
  refine ⟨_, reopened, openAt_shelf read_foreign, closing, again, ?_, fun m mem => ?_⟩
  · rw [names]
    decide
  · obtain ⟨data, stored, deflated⟩ := members m mem
    refine ⟨fun media => stored (.inl media), fun named => ?_, fun named => ?_⟩
    · rw [named] at data deflated
      exact ⟨(Option.some.inj data).symm, deflated (by decide) (by decide) (by decide)⟩
    · rw [named] at data deflated
      exact ⟨(Option.some.inj data).symm, deflated (by decide) (by decide) (by decide)⟩

/-- The members of a package with a directory, which is kept compressed, and the media type behind
it, which is too. -/
def shelfMembers : List Zip.Member :=
  [⟨"d/".toList, .deflated, ByteArray.empty⟩, ⟨Part.mimetype, .deflated, Text.toBytes "m".toList⟩,
    ⟨"a".toList, .stored, Text.toBytes "1".toList⟩]

/-- A directory that was kept compressed is not compressed any more when the package is written.  And
when nothing is put, the package is not written, and the media type stays where it was. -/
theorem reopened_directory_stored :
    let disk := shelf (.package shelfMembers)
    let opened := shelfOpened (shelfMembers.map Zip.Member.held)
    closed.openAt disk shelfPlace = (.ok (), opened) ∧
      (∃ after reopened, (edit disk shelfCalls opened).1 ≠ [] ∧
        (edit disk shelfCalls opened).2.close disk = (.ok (), closed, after) ∧
        closed.openAt after shelfPlace = (.ok (), reopened) ∧
        compressionOf opened.held "d/".toList = .deflated ∧
        compressionOf reopened.held "d/".toList = .stored) ∧
      ∃ after reopened, (edit disk [] opened).2.close disk = (.ok (), closed, after) ∧
        closed.openAt after shelfPlace = (.ok (), reopened) ∧
        reopened.held.map Held.name = ["d/".toList, Part.mimetype, "a".toList] ∧
        compressionOf reopened.held Part.mimetype = .deflated := by
  intro disk opened
  have opening : closed.openAt disk shelfPlace = (.ok (), opened) := openAt_shelf rfl
  have closing := close_shelf (.package shelfMembers) (a := (edit disk shelfCalls opened).2)
    rfl rfl (by decide +kernel)
  exact ⟨opening, ⟨_, _, by decide, closing, openAt_shelf (read_toFile _), by decide, by decide⟩,
    ⟨_, _, rfl, opening, by decide, by decide⟩⟩

end Archive

end DocumentMerge
