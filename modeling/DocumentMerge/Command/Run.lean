import DocumentMerge.Command.Arguments
import DocumentMerge.Document.Saving
import DocumentMerge.MergeData.Applying
import DocumentMerge.MergeData.Reading

/-!
# Running a command line

A merge reads the configuration and the data, opens the template, fills it and saves the result.
It stops at the first step that fails.  Whatever happens, the working copy is removed at the end,
and only the last step writes anything else.
-/

namespace DocumentMerge.Command

/-- At which step a merge failed, and why. -/
inductive Failure where
  | configMissing (path : Text)
  | config (path : Text) (cause : Error)
  | data (path : Text) (cause : Error)
  /-- An assignment is not of the form `KEY=VALUE`. -/
  | assignment (written : Text)
  | template (path : Text) (cause : Error)
  | filling (cause : Error)
  | output (path : Text) (cause : Error)
  deriving DecidableEq, Repr

/-- A step, the error that it failed with, and the causes of this error. -/
def Failure.chain (step : Text) (cause : Error) : Text :=
  Text.join ": ".toList (step :: cause.message :: cause.causes)

def Failure.message : Failure → Text
  | .configMissing path => "config file ".toList ++ path ++ " does not exist".toList
  | .config path cause => chain ("failed to read config ".toList ++ path) cause
  | .data path cause => chain ("failed to read merge data from ".toList ++ path) cause
  | .assignment written => "expected KEY=VALUE, got '".toList ++ written ++ ['\'']
  | .template path cause => chain ("failed to open ".toList ++ path) cause
  | .filling cause => chain "merge failed".toList cause
  | .output path cause => chain ("failed to write ".toList ++ path) cause

/-- The configuration of a file, with what the command line gives in its place. -/
def config (disk : Disk) (a : Arguments) : Except Failure Config := do
  let base ←
    match a.config with
    | none => .ok Config.standard
    | some path =>
      if disk.exists? path then (Config.load disk path).mapError (Failure.config path)
      else .error (.configMissing path)
  .ok {
    left := a.left.getD base.left
    right := a.right.getD base.right
    directory := a.directory.orElse fun _ => base.directory }

/-- The variable and the value of an assignment, which may contain further equals signs. -/
def assignment (written : Text) : Except Failure (Text × Text) :=
  match Text.splitOnce? (· == '=') written with
  | some (key, value) => if key.isEmpty then .error (.assignment written) else .ok (key, value)
  | none => .error (.assignment written)

/-- The data of a file, with the variables that the command line assigns. -/
def data (disk : Disk) (a : Arguments) : Except Failure MergeData := do
  let loaded ←
    match a.data with
    | none => .ok MergeData.empty
    | some path => (MergeData.load disk path).mapError (Failure.data path)
  a.assignments.foldlM (fun data written => do
    let (key, value) ← assignment written
    .ok (data.setVariable key value)) loaded

/-- Fills an opened document and saves it. -/
def complete (a : Arguments) (data : MergeData) (d : Document) : Except Failure Unit × Disk :=
  match d.fill data with
  | (.error cause, d) => (.error (.filling cause), d.close)
  | (.ok (), d) =>
    match d.save (some a.output) with
    | (.error cause, d) => (.error (.output a.output cause), d.close)
    | (.ok (), d) => (.ok (), d.close)

/-- Makes a merge. -/
def merge (disk : Disk) (a : Arguments) : Except Failure Unit × Disk :=
  match (do .ok (← config disk a, ← data disk a) : Except Failure (Config × MergeData)) with
  | .error failure => (.error failure, disk)
  | .ok (config, data) =>
    match Document.openAt disk a.template config with
    | (.error cause, disk) => (.error (.template a.template cause), disk)
    | (.ok d, _) => complete a data d

/-- What a command line answers. -/
structure Outcome where
  code : Nat
  /-- What is printed. -/
  printed : Text
  /-- What is reported as an error. -/
  report : Option Text
  deriving DecidableEq, Repr

/-- The version that is printed. -/
def versionText : Text := "odt-merge 0.1.0\n".toList

/-- How the command is used. -/
def usageText : Text := "Usage: odt-merge [OPTIONS] --output <FILE> <TEMPLATE>\n".toList

/-- Runs a command line. -/
def run (disk : Disk) (arguments : List Text) : Outcome × Disk :=
  match Request.ofArguments arguments with
  | .version => (⟨0, versionText, none⟩, disk)
  | .help => (⟨0, usageText, none⟩, disk)
  | .misuse => (⟨2, [], some usageText⟩, disk)
  | .merge a =>
    match merge disk a with
    | (.ok (), disk) => (⟨0, [], none⟩, disk)
    | (.error failure, disk) => (⟨1, [], some ("error: ".toList ++ failure.message)⟩, disk)

end DocumentMerge.Command
