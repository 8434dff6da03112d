import DocumentMerge.Disk.File
import DocumentMerge.Disk.Path

/-!
# The disk

A disk is a tree of directories and files.  It is kept as a list of places with what is there; a
place is the list of steps from the root.  Every reading and writing begins by following a path
step by step from the root or from the current directory, so a path through something missing, or
through a file, is refused with the system's cause.

* `Disk.locate` follows a path to its place;
* `Disk.read`, `Disk.write` and `Disk.remove` act on files by their paths;
* `Disk.admits` tells whether a directory takes a new file of a given name, and
  `Disk.admitsUnnamed` whether it takes one that has none;
* `Disk.fill` makes a file or a directory, and all that is missing on the way.

A disk also holds temporary files, which have numbers in place of paths.
-/

namespace DocumentMerge

/-- What can be at a place. -/
inductive Node where
  | file (content : File)
  | directory

/-- Whether there is a directory. -/
def Node.isDirectory : Option Node → Bool
  | some .directory => true
  | _ => false

/-- A disk. -/
structure Disk where
  nodes : List (List Text × Node)
  /-- The directory from which paths start that do not begin at the root. -/
  current : List Text
  /-- The temporary files by their numbers. -/
  temporaries : List (Nat × File)
  /-- Why no new file can be made in the directory at a place, if that is so at the time. -/
  refuses : List Text → Option DiskError := fun _ => none

namespace Disk

/-- The directory of temporary files, where no other is given. -/
def temporaryDirectory : Text := "/tmp".toList

/-- The name of a directory made for one run.  No path can spell it, as no path may contain the
character with number zero. -/
def privateName : Text := List.replicate 10 '\x00'

/-- A disk with nothing but its directories: that of temporary files, and in it the current one,
to which no path comes back by its name. -/
def empty : Disk where
  nodes := [([temporaryDirectory.tail], .directory),
    ([temporaryDirectory.tail, privateName], .directory)]
  current := [temporaryDirectory.tail, privateName]
  temporaries := []

instance : Inhabited Disk := ⟨empty⟩

/-- What is at a place.  The root is always there. -/
def node? (d : Disk) (place : List Text) : Option Node :=
  if place.isEmpty then some .directory else d.nodes.lookup place

/-- Removes what is at a place. -/
def erase (d : Disk) (place : List Text) : Disk :=
  { d with nodes := d.nodes.filter fun entry => entry.1 != place }

/-- Puts something at a place. -/
def put (d : Disk) (place : List Text) (node : Node) : Disk :=
  { d with nodes := (place, node) :: (d.erase place).nodes }

@[simp] theorem node?_nil (d : Disk) : d.node? [] = some .directory := rfl

theorem lookup_filter_ne {α : Type} {p q : List Text} (h : q ≠ p)
    (nodes : List (List Text × α)) :
    (nodes.filter fun entry => entry.1 != p).lookup q = nodes.lookup q := by
  induction nodes with
  | nil => rfl
  | cons entry nodes ih =>
    obtain ⟨r, a⟩ := entry
    rw [List.filter_cons, List.lookup_cons]
    by_cases same : r = p
    · subst same
      have : (q == r) = false := by simpa using h
      simp [this, ih]
    · simp [same, List.lookup_cons, ih]

/-- A place has what was put there last, and every other place what it had. -/
theorem node?_put {d : Disk} {p : List Text} {n : Node} (q : List Text) (h : p ≠ []) :
    (d.put p n).node? q = if q = p then some n else d.node? q := by
  by_cases same : q = p
  · subst same
    rw [if_pos rfl, node?, if_neg (by simpa using h), put, List.lookup_cons_self]
  · rw [if_neg same, node?, node?, put, List.lookup_cons]
    have : (q == p) = false := by simpa using same
    rw [this, erase, lookup_filter_ne same]

/-! ## Following paths -/

/-- The most bytes in a step. -/
def stepLimit : Nat := 255

/-- The most bytes in a path. -/
def pathLimit : Nat := 4095

/-- Follows steps from a place.  Every step but the last one must lead to a directory, and the
last one may lead to a place where nothing is. -/
def walk (d : Disk) (here : List Text) : List Text → Except DiskError (List Text)
  | [] => .ok here
  | step :: steps =>
    match d.node? here with
    | none => .error .notFound
    | some (.file _) => .error .notADirectory
    | some .directory =>
      if Path.moves step then
        if step = Path.up then walk d here.dropLast steps
        else if stepLimit < Text.byteSize step then .error .nameTooLong
        else walk d (here ++ [step]) steps
      else walk d here steps

/-- The place from which a path starts. -/
def start (d : Disk) (path : Text) : List Text :=
  if Path.isAbsolute path then [] else d.current

/-- Why a path is refused before it is followed, if it is. -/
def refusal? (path : Text) : Option DiskError :=
  if path.contains '\x00' then some .zeroInPath
  else if path.isEmpty then some .notFound
  else if pathLimit < Text.byteSize path then some .nameTooLong
  else none

/-- The place that a path leads to. -/
def locate (d : Disk) (path : Text) : Except DiskError (List Text) :=
  match refusal? path with
  | some cause => .error cause
  | none => d.walk (d.start path) (Path.steps path)

/-- What a path leads to, if there is anything. -/
def stat? (d : Disk) (path : Text) : Option Node :=
  match d.locate path with
  | .ok place => d.node? place
  | .error _ => none

/-- Whether there is something at a path. -/
def exists? (d : Disk) (path : Text) : Bool :=
  (d.stat? path).isSome

/-- Whether there is a file at a path. -/
def isFile (d : Disk) (path : Text) : Bool :=
  match d.stat? path with
  | some (.file _) => true
  | _ => false

/-- Whether there is a directory at a path. -/
def isDirectory (d : Disk) (path : Text) : Bool :=
  Node.isDirectory (d.stat? path)

/-! ## Files -/

/-- The file at a path. -/
def read (d : Disk) (path : Text) : Except DiskError File :=
  match d.locate path with
  | .error cause => .error cause
  | .ok place =>
    match d.node? place with
    | some (.file content) => .ok content
    | some .directory => .error .isADirectory
    | none => .error .notFound

/-- The text in the file at a path. -/
def readText (d : Disk) (path : Text) : Except DiskError Text :=
  match d.read path with
  | .error cause => .error cause
  | .ok content =>
    match Text.ofBytes? content.toBytes with
    | some t => .ok t
    | none => .error .notText

/-- The file at a path that is to be copied. -/
def readForCopy (d : Disk) (path : Text) : Except DiskError File :=
  match d.read path with
  | .error .isADirectory => .error .notAFile
  | result => result

/-- Follows steps from a place to a directory. -/
def walkToDirectory (d : Disk) (here : List Text) (steps : List Text) :
    Except DiskError (List Text) :=
  d.walk here (steps ++ [Path.here])

/-- The place at which a file can be written.  The directory in which it lies is found first.  A
path that ends in a slash, or in a step that is not a name, is that of a directory; this is noticed
before the length of the name is. -/
def placeOfFile (d : Disk) (path : Text) : Except DiskError (List Text) :=
  match refusal? path with
  | some cause => .error cause
  | none =>
    let written := Text.dropEndWhile (· == '/') path
    let steps := Path.steps written
    let name := steps.getLast?.getD []
    match d.walkToDirectory (d.start path) steps.dropLast with
    | .error cause => .error cause
    | .ok directory =>
      if written.length < path.length || !Path.moves name || name = Path.up then
        .error .isADirectory
      else if stepLimit < Text.byteSize name then .error .nameTooLong
      else if Node.isDirectory (d.node? (directory ++ [name])) then .error .isADirectory
      else .ok (directory ++ [name])

/-- Checks that a new file can be made in the directory at a place. -/
def accepts (d : Disk) (directory : List Text) : Except DiskError Unit :=
  match d.refuses directory with
  | some cause => .error cause
  | none => .ok ()

/-- Writes a file in the place of an earlier one, or else a new one. -/
def write (d : Disk) (path : Text) (content : File) : Except DiskError Disk :=
  match d.placeOfFile path with
  | .error cause => .error cause
  | .ok place =>
    match d.node? place with
    | some _ => .ok (d.put place (.file content))
    | none => (d.accepts place.dropLast).map fun _ => d.put place (.file content)

/-- Removes a file; a path without a file is left alone. -/
def remove (d : Disk) (path : Text) : Disk :=
  match d.locate path with
  | .ok place =>
    match d.node? place with
    | some (.file _) => d.erase place
    | _ => d
  | .error _ => d

/-! ## Making new files -/

/-- The path of the current directory. -/
def currentPath (d : Disk) : Text :=
  if d.current.isEmpty then ['/'] else d.current.flatMap fun step => '/' :: step

/-- Checks that a new file of a name can be made in a directory.  A new file is made by its path
from the root, so this path must not be too long; a directory without a name is the current one. -/
def admits (d : Disk) (directory name : Text) : Except DiskError Unit :=
  let path := Path.join (Path.join d.currentPath directory) name
  if directory.contains '\x00' then .error .zeroInPath
  else if pathLimit < Text.byteSize path then .error .nameTooLong
  else (d.walkToDirectory (d.start directory) (Path.steps directory)).bind d.accepts

/-- Checks that a file without a name can be made in a directory. -/
def admitsUnnamed (d : Disk) (directory : Text) : Except DiskError Unit :=
  (d.locate directory).bind d.accepts

/-! ## Filling a disk -/

/-- Follows steps from a place, and makes the directories that are missing. -/
def lead (d : Disk) (here : List Text) : List Text → List Text × Disk
  | [] => (here, d)
  | step :: steps =>
    if step = Path.up then d.lead here.dropLast steps
    else
      let there := here ++ [step]
      match d.node? there with
      | some _ => d.lead there steps
      | none => (d.put there .directory).lead there steps

/-- Puts something at a path, with all directories on the way. -/
def fill (d : Disk) (path : Text) : Node → Disk
  | .directory => (d.lead (d.start path) ((Path.steps path).filter Path.moves)).2
  | .file content =>
    let steps := (Path.steps path).filter Path.moves
    let (directory, d) := d.lead (d.start path) steps.dropLast
    d.put (directory ++ steps.getLast?.toList) (.file content)

end Disk

end DocumentMerge
