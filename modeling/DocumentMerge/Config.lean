import DocumentMerge.Disk.Basic
import DocumentMerge.Error
import DocumentMerge.Json.Record

/-!
# Configuration

The text on either side of a variable's name, which together with it is the variable's tag, and
the directory for working copies.  A configuration file is JSON; a file that is missing, or that
does not hold a configuration, stands for the default one.
-/

namespace DocumentMerge

open Json (Syntax)

/-- How tags are written and where working copies are made. -/
structure Config where
  left : Text
  right : Text
  /-- The directory for working copies, unless it is the system's. -/
  directory : Option Text
  deriving DecidableEq, Repr

namespace Config

/-- Names between braces, and the system's directory. -/
def standard : Config := ⟨['\x7b'], ['\x7d'], none⟩

instance : Inhabited Config := ⟨standard⟩

/-- The tag of a variable. -/
def tag (c : Config) (key : Text) : Text :=
  c.left ++ key ++ c.right

/-- The names of the fields in order. -/
def fields : List Text :=
  ["delimiter_left".toList, "delimiter_right".toList, "tmp_dir".toList]

/-- Reads a path, for which `null` may stand. -/
def directoryOf? : Syntax → Option (Option Text)
  | .null => some none
  | s => s.text.map some

/-- Reads a configuration. -/
def ofSyntax? (s : Syntax) : Option Config := do
  match ← s.record? fields with
  | [left, right, directory] =>
    some {
      left := ← Syntax.given standard.left Syntax.text left
      right := ← Syntax.given standard.right Syntax.text right
      directory := ← Syntax.given standard.directory directoryOf? directory }
  | _ => none

/-- The configuration in a text, or else the default one. -/
def ofText (t : Text) : Config :=
  ((Syntax.parse? t).bind ofSyntax?).getD standard

/-- The configuration in a file. -/
def load (disk : Disk) (path : Text) : Except Error Config :=
  if disk.exists? path then
    match disk.readText path with
    | .ok t => .ok (ofText t)
    | .error cause => .error (.io cause)
  else .ok standard

/-- The directory for working copies, which must be there and take new files. -/
def validate (disk : Disk) (c : Config) : Except Error Text :=
  let directory := c.directory.getD Disk.temporaryDirectory
  if !disk.exists? directory then .error (.config (.directoryMissing directory))
  else if !disk.isDirectory directory then .error (.config (.notADirectory directory))
  else
    match disk.admitsUnnamed directory with
    | .error cause => .error (.config (.notWritable directory cause))
    | .ok () => .ok directory

end Config

end DocumentMerge
