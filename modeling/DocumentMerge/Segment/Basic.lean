import DocumentMerge.Values
import DocumentMerge.WorkingCopy

/-!
# Segments

A segment is a named region of a document that is repeated, once for every row of data.  Regions
inside it are segments too, its children.  A segment is filled row by row: its variables are bound
and it is merged, then they are bound again for the next row.  Every merge adds one copy of the
fragment to the output, which waits there until the parent takes it.

A segment is a tree whose nodes are fragments.  A call on one node leaves all others as they are.
-/

namespace DocumentMerge

/-- Whether a segment has output that its parent has not taken. -/
inductive MergeState where
  /-- Nothing is waiting, and a merge of the parent merges the segment first. -/
  | drained
  /-- Merged rows are waiting for the parent. -/
  | accumulating
  deriving DecidableEq, Repr

/-- A segment by itself, without its children. -/
structure Fragment where
  name : Text
  /-- The text of the region, markers included. -/
  source : Text
  values : Values
  /-- The rows merged since the parent took the last ones. -/
  output : Text
  state : MergeState
  deriving DecidableEq

/-- A segment with its children in the order in which they were found. -/
inductive Segment where
  | node (own : Fragment) (children : List Segment)

/-- The fragment of a region before anything is bound or merged. -/
def Fragment.ofRegion (name source : Text) : Fragment :=
  ⟨name, source, Values.empty, [], .drained⟩

namespace Segment

instance : Inhabited Segment := ⟨.node (Fragment.ofRegion [] []) []⟩

def own : Segment → Fragment
  | .node own _ => own

def children : Segment → List Segment
  | .node _ children => children

@[simp] theorem own_node (f : Fragment) (cs : List Segment) : own (.node f cs) = f := rfl

@[simp] theorem children_node (f : Fragment) (cs : List Segment) : children (.node f cs) = cs :=
  rfl

def name (s : Segment) : Text :=
  s.own.name

mutual

/-- All fragments of a segment: its own, then those of each child. -/
def fragments : Segment → List Fragment
  | .node own children => own :: descendants children

/-- The fragments of all the given segments, each followed by those below it. -/
def descendants : List Segment → List Fragment
  | [] => []
  | c :: cs => fragments c ++ descendants cs

end

/-- The first child of a name. -/
def child? (s : Segment) (name : Text) : Option Segment :=
  s.children.find? fun c => c.name == name

/-! ## Calls on a node -/

/-- A call on a segment of a session.  What it leaves behind is answered also when it fails. -/
abbrev Call (α : Type) : Type :=
  Segment → Session → Except Error α × Segment × Session

/-- The call that does nothing. -/
def skip : Call Unit :=
  fun s session => (.ok (), s, session)

/-- Makes a call and then, if it succeeded, another one. -/
def andThen {α β : Type} (first : Call α) (next : Call β) : Call β :=
  fun s session =>
    match first s session with
    | (.ok _, s, session) => next s session
    | (.error cause, s, session) => (.error cause, s, session)

theorem andThen_of_ok {α β : Type} {first : Call α} {next : Call β} {a : α} {s t : Segment}
    {before after : Session} (h : first s before = (.ok a, t, after)) :
    andThen first next s before = next t after := by
  rw [andThen, h]

theorem andThen_of_error {α β : Type} {first : Call α} {next : Call β} {cause : Error}
    {s t : Segment} {before after : Session} (h : first s before = (.error cause, t, after)) :
    andThen first next s before = (.error cause, t, after) := by
  rw [andThen, h]

/-- Makes a call for every item of a list, up to the first that fails. -/
def each {ι : Type} (call : ι → Call Unit) : List ι → Call Unit
  | [] => skip
  | i :: is => andThen (call i) (each call is)

/-- Makes a call on the first of the segments that has a name, if there is one. -/
def callNamed {α : Type} (name : Text) (call : Call α) :
    List Segment → Session → Option (Except Error α × List Segment × Session)
  | [], _ => none
  | c :: cs, session =>
    if c.name = name then
      let (result, c, session) := call c session
      some (result, c :: cs, session)
    else
      (callNamed name call cs session).map fun (result, cs, session) => (result, c :: cs, session)

/-- Makes a call on the child of a name. -/
def onChild {α : Type} (name : Text) (call : Call α) : Call α
  | .node own children, session =>
    match callNamed name call children session with
    | some (result, children, session) => (result, .node own children, session)
    | none => (.error (.childNotFound own.name name), .node own children, session)

/-- Makes a call on the descendant to which a path of names leads. -/
def onPath {α : Type} (call : Call α) : List Text → Call α
  | [] => call
  | name :: names => onChild name (onPath call names)

/-- A call that changes the values of a node, or fails and changes nothing. -/
def edit (change : Fragment → Session → Except Error Values) : Call Unit
  | .node own children, session =>
    match change own session with
    | .ok values => (.ok (), .node { own with values } children, session)
    | .error cause => (.error cause, .node own children, session)

/-! ## Binding -/

/-- The tag of a variable, which must occur in the fragment. -/
def declaredTag (f : Fragment) (config : Config) (key : Text) : Except Error Text :=
  let tag := config.tag key
  if Bindings.declaredIn tag [f.source] then .ok tag
  else .error (.segmentVariableNotFound f.name key)

/-- Binds a variable to a text. -/
def bind (key value : Text) (encode : Bool) : Call Unit :=
  edit fun own session =>
    (declaredTag own session.config key).map fun tag => own.values.bind tag value encode

/-- Binds a variable to a text given as bytes in a charset. -/
def bindBytes (key : Text) (value : List UInt8) (encode : Bool) (charset : Text) : Call Unit :=
  edit fun own session => do
    let tag ← declaredTag own session.config key
    own.values.bindBytes tag value encode charset

/-- Binds a variable to an image. -/
def bindImage (key path : Text) (placement : Placement) : Call Unit :=
  edit fun own session => do
    let tag ← declaredTag own session.config key
    own.values.bindImage session.disk tag path placement

end Segment

end DocumentMerge
