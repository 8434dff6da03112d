import DocumentMerge.Json.Value

/-!
# Reading records and variants

A record with fixed fields is written as an object, in which fields may be missing, unknown
members are passed over and no field may come twice, or as an array of its fields in order, which
may stop early but not go on beyond the last field.  A variant without content may be written as
its name or as an object that puts `null` under its name.
-/

namespace DocumentMerge.Json.Syntax

/-- The members of an object, all of whose keys are texts. -/
def members : Syntax → Option (List (Text × Syntax))
  | .object members => members.mapM fun (key, v) => key.map fun key => (key, v)
  | _ => none

/-- The items of an array. -/
def items : Syntax → Option (List Syntax)
  | .array items => some items
  | _ => none

/-- The content of a string. -/
def text : Syntax → Option Text
  | .string t => t
  | _ => none

/-- A number as a double. -/
def float (s : Syntax) : Option Float :=
  match s with
  | .number n => n.number?.map Number.toFloat
  | _ => none

/-- An integer without sign, at most a limit. -/
def natural (limit : Nat) (s : Syntax) : Option Nat :=
  match s with
  | .number n =>
    match n.number? with
    | some (.integer i) => if 0 ≤ i ∧ i ≤ limit then some i.toNat else none
    | _ => none
  | _ => none

/-- The value of one field among the members of an object: it may be missing but not repeated. -/
def field? (members : List (Text × Syntax)) (name : Text) : Option (Option Syntax) :=
  match members.filter fun m => m.1 == name with
  | [] => some none
  | [(_, v)] => some (some v)
  | _ => none

/-- The fields of a record in order, each present or missing. -/
def record? (names : List Text) : Syntax → Option (List (Option Syntax))
  | .array items =>
    if items.length ≤ names.length then
      some (items.map some ++ List.replicate (names.length - items.length) none)
    else none
  | s => do
    let members ← s.members
    names.mapM (field? members)

/-- Reads a field, or takes what stands for a missing one. -/
def given {α : Type} (missing : α) (read : Syntax → Option α) : Option Syntax → Option α
  | none => some missing
  | some s => read s

/-- The name of a variant and its content, if it has one. -/
def variant? : Syntax → Option (Text × Option Syntax)
  | .string (some name) => some (name, none)
  | .object [(some name, v)] => some (name, some v)
  | _ => none

/-- The name of a variant that has no content. -/
def plainVariant? (s : Syntax) : Option Text :=
  match variant? s with
  | some (name, none) => some name
  | some (name, some .null) => some name
  | _ => none

end DocumentMerge.Json.Syntax
