import DocumentMerge.Disk.File

/-!
# Why a package cannot be read or edited

An error names its cause and keeps the error of the layer below, whose wording ends its own.

A call on an archive, and on what is built from it, answers with a result and with what it leaves
behind.  Where only a call that succeeds counts, such an answer stands for what that leaves behind.
-/

namespace DocumentMerge

/-- What a call leaves behind, or why it fails. -/
def leaving {ε σ : Type} (answer : Except ε Unit × σ) : Except ε σ :=
  answer.1.map fun _ => answer.2

instance coeLeaving {ε σ : Type} : Coe (Except ε Unit × σ) (Except ε σ) := ⟨leaving⟩

/-- Why a package cannot be opened. -/
inductive OpenError where
  | unreadable (cause : DiskError)
  | notAPackage
  deriving DecidableEq, Repr

def OpenError.message : OpenError → Text
  | .unreadable cause => cause.message
  | .notAPackage => Zip.Fault.notAPackage.message

/-- Why a call on an archive fails. -/
inductive ArchiveError where
  | io (cause : DiskError)
  /-- The new package cannot be prepared beside the old one. -/
  | notStaged (cause : DiskError)
  /-- The content of a member is damaged. -/
  | damaged
  /-- A member is kept in a form that cannot be read, or cannot be written under its name. -/
  | unsupported
  | cannotOpen (path : Text) (cause : OpenError)
  | notOpen
  | alreadyOpen (path : Text)
  | entryNotFound (name : Text)
  | invalidText (name : Text)
  deriving DecidableEq, Repr

def ArchiveError.message : ArchiveError → Text
  | .io cause | .notStaged cause => "IO error: ".toList ++ cause.message
  | .damaged => "IO error: ".toList ++ Zip.Fault.damaged.message
  | .unsupported => "ZIP error: ".toList ++ Zip.Fault.unsupported.message
  | .cannotOpen path cause =>
    "Error opening archive '".toList ++ path ++ "': ".toList ++ cause.message
  | .notOpen => "Archive is not open".toList
  | .alreadyOpen path => "Archive already open: ".toList ++ path
  | .entryNotFound name => "Entry not found: ".toList ++ name
  | .invalidText name => "Entry is not valid UTF-8 text: ".toList ++ name

/-- The wording of the errors below an error. -/
def ArchiveError.causes : ArchiveError → List Text
  | .io cause | .notStaged cause => [cause.message]
  | .damaged => [Zip.Fault.damaged.message]
  | .unsupported => [Zip.Fault.unsupported.message]
  | _ => []

/-- The error for a package whose members cannot be read. -/
def ArchiveError.ofFault (path : Text) : Zip.Fault → ArchiveError
  | .notAPackage => .cannotOpen path .notAPackage
  | .unsupported => .unsupported
  | .damaged => .damaged

end DocumentMerge
