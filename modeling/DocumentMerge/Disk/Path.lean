import DocumentMerge.Text.Basic

/-!
# Paths

A path is a text of steps between slashes.  Empty steps and the step `.` stand still, so a path
may be written in several ways; `..` goes up.  A path is passed around, compared and reported as
it was written.
-/

namespace DocumentMerge.Path

/-- The steps between the slashes. -/
def steps : Text → List Text
  | [] => [[]]
  | c :: s =>
    if c = '/' then [] :: steps s
    else
      match steps s with
      | t :: ts => (c :: t) :: ts
      | [] => [[c]]

/-- The step that stands still. -/
def here : Text := ['.']

/-- The step that goes up. -/
def up : Text := ['.', '.']

/-- Whether a step moves. -/
def moves (step : Text) : Bool :=
  !step.isEmpty && step != here

/-- Whether a path begins at the root. -/
def isAbsolute (p : Text) : Bool :=
  p.head? == some '/'

/-- The steps by which paths are compared: those that move, behind a first step that stands
still. -/
def components (p : Text) : List Text :=
  ((steps p).take 1).filter (· == here) ++ (steps p).filter moves

/-- Whether two paths are the same but for repeated slashes and steps that stand still. -/
def same (p q : Text) : Bool :=
  isAbsolute p == isAbsolute q && components p == components q

/-- The name of the file that a path leads to: its last step, unless that goes up. -/
def fileName? (p : Text) : Option Text :=
  match ((steps p).filter moves).getLast? with
  | some name => if name = up then none else some name
  | none => none

/-- Drops slashes, and steps that stand still, at the end of a path given backwards. -/
def trimEnd : Text → Text
  | '/' :: s => trimEnd s
  | ['.'] => ['.']
  | '.' :: '/' :: s => trimEnd ('/' :: s)
  | s => s
termination_by s => s.length

/-- The directory that a path lies in: the path without its last step.  A path without steps
lies nowhere. -/
def parent? (p : Text) : Option Text :=
  let absolute := isAbsolute p
  match trimEnd p.reverse with
  | [] => none
  | back =>
    match trimEnd (back.dropWhile fun c => c != '/') with
    | [] => some (if absolute then ['/'] else [])
    | rest => some rest.reverse

/-- A path as seen from a directory. -/
def join (directory p : Text) : Text :=
  if isAbsolute p then p
  else
    match directory.getLast? with
    | some c => if c = '/' then directory ++ p else directory ++ '/' :: p
    | none => p

end DocumentMerge.Path
