import DocumentMerge.Disk.Basic

/-!
# Temporary files

A temporary file has a name that nobody can foresee.  No path that a user writes leads to it, and
only the one who made it can reach it.  So it is kept apart from the tree, under a number, and its
path is only for reports.

* `Disk.makeTemporary` makes an empty file under a number that was free;
* `Disk.fetch` and `Disk.replace` reach a file by its `Location`, a path or a number;
* `Disk.discard` removes a temporary file.
-/

namespace DocumentMerge

/-- A temporary file. -/
structure Temporary where
  /-- The path by which it is reported. -/
  path : Text
  number : Nat
  /-- The directory in which it was made. -/
  directory : Text
  deriving DecidableEq, Repr

namespace Temporary

/-- The name of the temporary file of a number, in which at least six characters are its own. -/
def nameOf (number : Nat) : Text :=
  let digits := Text.ofNat number
  "odt-merge-".toList ++ List.replicate (6 - digits.length) '0' ++ digits ++ ".odt".toList

end Temporary

/-- Where a file is. -/
inductive Location where
  | path (path : Text)
  | temporary (file : Temporary)
  deriving DecidableEq, Repr

namespace Location

/-- The path by which a location is reported. -/
def text : Location → Text
  | .path p => p
  | .temporary file => file.path

end Location

namespace Disk

/-! ## Making and removing -/

/-- A number above those of all temporary files. -/
def freeNumber (d : Disk) : Nat :=
  d.temporaries.foldr (fun entry n => max (entry.1 + 1) n) 0

/-- Gives a temporary file its content. -/
def fillTemporary (d : Disk) (file : Temporary) (content : File) : Disk :=
  { d with temporaries :=
      (file.number, content) :: d.temporaries.filter fun entry => entry.1 != file.number }

/-- Makes an empty temporary file in a directory. -/
def makeTemporary (d : Disk) (directory : Text) : Except DiskError (Temporary × Disk) :=
  let name := Temporary.nameOf d.freeNumber
  match d.admits directory name with
  | .error cause => .error cause
  | .ok () =>
    let file := ⟨Path.join directory name, d.freeNumber, directory⟩
    .ok (file, d.fillTemporary file (.bytes ByteArray.empty))

/-- Removes a temporary file. -/
def discard (d : Disk) (file : Temporary) : Disk :=
  { d with temporaries := d.temporaries.filter fun entry => entry.1 != file.number }

/-- The content of a temporary file, unless it was removed. -/
def temporary? (d : Disk) (file : Temporary) : Option File :=
  d.temporaries.lookup file.number

/-- Every temporary file has a smaller number than the free one. -/
theorem lt_freeNumber {d : Disk} {entry : Nat × File} (h : entry ∈ d.temporaries) :
    entry.1 < d.freeNumber := by
  unfold freeNumber
  generalize d.temporaries = entries at h
  induction entries with
  | nil => simp at h
  | cons first rest ih =>
    rcases List.mem_cons.1 h with rfl | h
    · exact Nat.lt_of_lt_of_le (Nat.lt_succ_self _) (Nat.le_max_left _ _)
    · exact Nat.lt_of_lt_of_le (ih h) (Nat.le_max_right _ _)

@[simp] theorem temporary?_fillTemporary (d : Disk) (file : Temporary) (content : File) :
    (d.fillTemporary file content).temporary? file = some content :=
  List.lookup_cons_self

@[simp] theorem discard_fillTemporary (d : Disk) (file : Temporary) (content : File) :
    (d.fillTemporary file content).discard file = d.discard file := by
  simp [discard, fillTemporary]

/-- Discarding the file that was made gives back the disk. -/
theorem discard_of_makeTemporary {d made : Disk} {directory : Text} {file : Temporary}
    (h : d.makeTemporary directory = .ok (file, made)) : made.discard file = d := by
  simp only [makeTemporary] at h
  split at h
  · cases h
  · simp only [Except.ok.injEq, Prod.mk.injEq] at h
    obtain ⟨rfl, rfl⟩ := h
    have kept : d.temporaries.filter (fun entry => entry.1 != d.freeNumber) = d.temporaries :=
      List.filter_eq_self.2 fun entry mem => by
        simpa using Nat.ne_of_lt (lt_freeNumber mem)
    rw [discard_fillTemporary]
    simp [discard, kept]

/-! ## Files by their locations -/

/-- The file at a location. -/
def fetch (d : Disk) : Location → Except DiskError File
  | .path path => d.read path
  | .temporary file =>
    match d.temporary? file with
    | some content => .ok content
    | none => .error .notFound

/-- The name under which a file is prepared that is to take the place of another. -/
def stagedName : Text := ".tmp000000".toList

/-- The directory that a path lies in, where a path without directory lies in the current one. -/
def directoryBeside (path : Text) : Text :=
  match Path.parent? path with
  | some (c :: directory) => c :: directory
  | _ => Path.here

/-- Checks that a new file can be prepared beside the one at a location. -/
def stage (d : Disk) : Location → Except DiskError Unit
  | .path path => d.admits (directoryBeside path) stagedName
  | .temporary file => d.admits file.directory stagedName

/-- Puts a file in the place of the one at a location. -/
def replace (d : Disk) (content : File) : Location → Except DiskError Disk
  | .path path => d.write path content
  | .temporary file => .ok (d.fillTemporary file content)

end Disk

end DocumentMerge
