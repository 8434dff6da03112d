import DocumentMerge.Proofs.Region.Marking
import DocumentMerge.Proofs.Segment.Reachable

/-!
# Templates as trees

A segment is a text, and what a merge means is buried in searches and replacements.  The meaning
that a reader of a template has in mind needs no text: a template is a tree whose nodes have a name
and a list of items, and an item is a literal text, the tag of a variable, or another template.
Merging a node goes through its items once and writes each of them.

* `Items σ` and `Template σ` are these trees; every node carries a note of type `σ`.  A template
  that somebody writes down has no notes (`Template Unit`), and the notes of a template in use are
  `Cell`s: the values bound on the node, and the rows that wait in it.
* `Template.render` writes a template as the text of a segment, with canonical markers and tags
  between braces.
* `Template.Sound` says when the text determines the tree: the names are different, texts, names
  and keys hold no bracket and no brace, names no marker space, and the tree is not too high.
* `Template.bind` and `Template.merge` are the two things that can be done with a node, `atPath`
  does them on any node, and `run` does one after the other.  `Items.expand` is the whole of what
  merging means: one pass over the items, in which a child gives the rows that wait in it or, if
  none do, one expansion of its own.
-/

namespace DocumentMerge

/-- What stands between the markers of a node, in order.  Every child carries a note. -/
inductive Items (σ : Type) where
  | done
  | literal (text : Text) (rest : Items σ)
  | tag (key : Text) (rest : Items σ)
  | child (name : Text) (note : σ) (inner rest : Items σ)

/-- A node with its items. -/
structure Template (σ : Type) where
  name : Text
  note : σ
  items : Items σ

namespace Items

variable {σ : Type}

/-- The items as text, with canonical markers and tags between braces. -/
def render : Items σ → Text
  | done => []
  | literal text rest => text ++ rest.render
  | tag key rest => Config.standard.tag key ++ rest.render
  | child name _ inner rest => Region.wrap name inner.render ++ rest.render

/-- The names of all nodes below, in order. -/
def names : Items σ → List Text
  | done => []
  | literal _ rest => rest.names
  | tag _ rest => rest.names
  | child name _ inner rest => name :: (inner.names ++ rest.names)

/-- The keys of the node itself. -/
def keys : Items σ → List Text
  | done => []
  | literal _ rest => rest.keys
  | tag key rest => key :: rest.keys
  | child _ _ _ rest => rest.keys

/-- The keys of all nodes below. -/
def keysBelow : Items σ → List Text
  | done => []
  | literal _ rest => rest.keysBelow
  | tag _ rest => rest.keysBelow
  | child _ _ inner rest => inner.keys ++ inner.keysBelow ++ rest.keysBelow

/-- How many levels of nodes are below. -/
def height : Items σ → Nat
  | done => 0
  | literal _ rest => rest.height
  | tag _ rest => rest.height
  | child _ _ inner rest => max (inner.height + 1) rest.height

/-- The items without the notes. -/
def bare : Items σ → Items Unit
  | done => done
  | literal text rest => literal text rest.bare
  | tag key rest => tag key rest.bare
  | child name _ inner rest => child name () inner.bare rest.bare

end Items

/-- A text without brackets and braces. -/
structure IsPlain (t : Text) : Prop where
  bracket : '[' ∉ t
  left : '\x7b' ∉ t
  right : '\x7d' ∉ t

/-- All texts, names and keys are plain, and the names hold no marker space. -/
def Items.Plain {σ : Type} : Items σ → Prop
  | done => True
  | literal text rest => IsPlain text ∧ rest.Plain
  | tag key rest => IsPlain key ∧ rest.Plain
  | child name _ inner rest =>
    (IsPlain name ∧ ∀ c ∈ name, Region.isMarkerSpace c = false) ∧ inner.Plain ∧ rest.Plain

/-- What a node has: the values bound on it by their keys, and the rows that wait in it. -/
structure Cell where
  bound : Text → Option Text
  pending : Option Text

/-- Nothing is bound and nothing waits. -/
def Cell.fresh : Cell :=
  ⟨fun _ => none, none⟩

/-- The output of a node: the rows that wait in it. -/
def Cell.output (c : Cell) : Text :=
  c.pending.getD []

namespace Items

/-- The items of a template nobody has used yet. -/
def fresh : Items Unit → Items Cell
  | done => done
  | literal text rest => literal text rest.fresh
  | tag key rest => tag key rest.fresh
  | child name _ inner rest => child name Cell.fresh inner.fresh rest.fresh

/-- One row: texts as they are, tags by their values where they have one, and for a child the rows
that wait in it or else one row of its own. -/
def expand (bound : Text → Option Text) : Items Cell → Text
  | done => []
  | literal text rest => text ++ rest.expand bound
  | tag key rest => (bound key).getD (Config.standard.tag key) ++ rest.expand bound
  | child _ cell inner rest =>
    (match cell.pending with
      | some rows => rows
      | none => inner.expand cell.bound) ++ rest.expand bound

/-- The items after a row was made of them: nothing waits in the children, nor below a child that
made a row of its own. -/
def spent : Items Cell → Items Cell
  | done => done
  | literal text rest => literal text rest.spent
  | tag key rest => tag key rest.spent
  | child name cell inner rest =>
    child name { cell with pending := none }
      (match cell.pending with
        | some _ => inner
        | none => inner.spent) rest.spent

/-- Changes the first child of a name. -/
def atChild (name : Text) (change : Template Cell → Template Cell) : Items Cell → Items Cell
  | done => done
  | literal text rest => literal text (rest.atChild name change)
  | tag key rest => tag key (rest.atChild name change)
  | child n cell inner rest =>
    if n = name then
      let t := change ⟨n, cell, inner⟩
      child n t.note t.items rest
    else child n cell inner (rest.atChild name change)

/-- The first child of a name. -/
def child? {σ : Type} (name : Text) : Items σ → Option (Template σ)
  | done => none
  | literal _ rest => rest.child? name
  | tag _ rest => rest.child? name
  | child n note inner rest => if n = name then some ⟨n, note, inner⟩ else rest.child? name

end Items

namespace Template

variable {σ : Type}

/-- The text of a template. -/
def render (t : Template σ) : Text :=
  Region.wrap t.name t.items.render

/-- The template without its notes. -/
def bare (t : Template σ) : Template Unit :=
  ⟨t.name, (), t.items.bare⟩

/-- The template as nobody has used it yet. -/
def fresh (t : Template Unit) : Template Cell :=
  ⟨t.name, Cell.fresh, t.items.fresh⟩

/-- A template whose text determines it. -/
structure Sound (t : Template σ) : Prop where
  name : IsPlain t.name ∧ ∀ c ∈ t.name, Region.isMarkerSpace c = false
  plain : t.items.Plain
  distinct : (t.name :: t.items.names).Nodup

/-- The node to which a path of names leads. -/
def at? : List Text → Template σ → Option (Template σ)
  | [], t => some t
  | name :: names, t => (t.items.child? name).bind (at? names)

/-! ## The machine -/

/-- Gives a key of the node a value. -/
def bind (key value : Text) (t : Template Cell) : Template Cell :=
  { t with
    note := { t.note with bound := fun k => if k = key then some value else t.note.bound k } }

/-- Adds one row to those that wait in the node. -/
def merge (t : Template Cell) : Template Cell where
  name := t.name
  note := { t.note with pending := some (t.note.output ++ t.items.expand t.note.bound) }
  items := t.items.spent

/-- Changes the node to which a path leads. -/
def atPath (change : Template Cell → Template Cell) : List Text → Template Cell → Template Cell
  | [], t => change t
  | name :: names, t => { t with items := t.items.atChild name (atPath change names) }

end Template

open Segment (Action)

namespace Template

/-- What an action does with a node. -/
def act (disk : Disk) (a : Action) (t : Template Cell) : Template Cell :=
  match a with
  | .merge => t.merge
  | a =>
    match a.stored? disk with
    | some (key, value) => t.bind key value
    | none => t

/-- Actions on nodes given by their paths, one after the other. -/
def run (disk : Disk) (steps : List (List Text × Action)) (t : Template Cell) : Template Cell :=
  steps.foldl (fun t step => t.atPath (act disk step.2) step.1) t

/-- What is asked of an action on the node to which a path leads: a value that is bound holds no
bracket, and its key holds no brace and does not occur below the node. -/
def Allows (disk : Disk) (path : List Text) (a : Action) (t : Template σ) : Prop :=
  ∀ key value, a.stored? disk = some (key, value) → ∀ node, t.at? path = some node →
    '[' ∉ value ∧ ('\x7b' ∉ key ∧ '\x7d' ∉ key) ∧ key ∉ node.items.keysBelow

end Template

end DocumentMerge
