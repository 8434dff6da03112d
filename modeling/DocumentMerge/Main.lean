import DocumentMerge.Command.Run

/-!
# The command

The files that a command line can reach are read into a disk, the command is run on this disk, and
the result is written where the command line says.  What is printed and reported is that of the
run.
-/

namespace DocumentMerge.Command

/-- What is at a path of the system. -/
def look (path : Text) : IO (Option Node) := do
  let found := (← IO.currentDir) / String.ofList path
  if ← found.isDir then return some .directory
  else if ← found.pathExists then return some (.file (.bytes (← IO.FS.readBinFile found)))
  else return none

/-- The path up to each of its slashes, and the whole path. -/
def leads (path : Text) : List Text :=
  ((List.range path.length).filter fun n => path[n]? == some '/').map (fun n => path.take n)
    ++ [path]

/-- Reads what is at a path, and the directories on the way, into a disk. -/
def fetch (disk : Disk) (path : Text) : IO Disk :=
  (leads path).foldlM (fun disk lead =>
    match disk.locate lead with
    | .error _ => return disk
    | .ok place =>
      match disk.node? place with
      | some _ => return disk
      | none => do
        match ← look lead with
        | some node => return disk.put place node
        | none => return disk) disk

/-- A disk with the current directory and that of temporary files. -/
def currentDisk : IO Disk := do
  let here := (← IO.currentDir).toString.toList
  let current := (Path.steps here).filter Path.moves
  let disk : Disk := { nodes := [], current, temporaries := [] }
  return (disk.fill here .directory).fill Disk.temporaryDirectory .directory

/-- The paths that a command line names. -/
def Arguments.paths (a : Arguments) : List Text :=
  [a.template, a.output] ++ [a.data, a.config, a.directory].filterMap id

mutual

/-- The paths of all images in merge data. -/
def imagePaths : MergeData → List Text
  | .row _ images segments => images.map (fun image => image.2.path) ++ segmentPaths segments

/-- The paths of all images of several segments. -/
def segmentPaths : List (Text × List MergeData) → List Text
  | [] => []
  | (_, rows) :: rest => rowPaths rows ++ segmentPaths rest

/-- The paths of all images of rows. -/
def rowPaths : List MergeData → List Text
  | [] => []
  | r :: rows => imagePaths r ++ rowPaths rows

end

/-- The disk that a merge needs. -/
def diskFor (a : Arguments) : IO Disk := do
  let disk ← a.paths.foldlM fetch (← currentDisk)
  let disk ←
    match config disk a with
    | .ok c => c.directory.toList.foldlM fetch disk
    | .error _ => pure disk
  match data disk a with
  | .ok data => (imagePaths data).foldlM fetch disk
  | .error _ => return disk

/-- Writes the result of a merge. -/
def writeResult (disk : Disk) (a : Arguments) : IO Unit :=
  match disk.read a.output with
  | .ok content => IO.FS.writeBinFile (String.ofList a.output) content.toBytes
  | .error _ => return

end DocumentMerge.Command

open DocumentMerge Command in
/-- Runs the command line. -/
def main (arguments : List String) : IO UInt32 := do
  let arguments := arguments.map String.toList
  let (outcome, written) ←
    match Request.ofArguments arguments with
    | .merge a => do
      let (outcome, disk) := run (← diskFor a) arguments
      pure (outcome, if outcome.code = 0 then some (disk, a) else none)
    | _ => pure ((run Disk.empty arguments).1, none)
  if let some (disk, a) := written then writeResult disk a
  IO.print (String.ofList outcome.printed)
  if let some report := outcome.report then IO.eprintln (String.ofList report)
  return outcome.code.toUInt32
