import DocumentMerge.Bindings.EmptyTag
import DocumentMerge.Markup.Escape
import DocumentMerge.Text.Keyed
import DocumentMerge.Text.Pattern

/-!
# Bindings of tags

A tag such as `{name}` is bound to the text that takes its place.  Substitution reads a payload
once from left to right: at the first position where a bound tag occurs, the longest one is
replaced, and reading goes on behind it.  A replacement is never looked at again, so a value may
contain tags without being expanded.

An empty tag can be bound as well.  `EmptyTag` says at which places it counts; they are places
between bytes, so the substitution is then done on the bytes of the payload.
-/

namespace DocumentMerge

/-- Tags with their replacements, in the order of the tags. -/
structure Bindings where
  entries : List (Text × Text)
  /-- The tags ascend, so every tag has one replacement. -/
  ascending : Keyed.Ascending entries
  deriving DecidableEq

namespace Bindings

/-- No tag is bound. -/
def empty : Bindings := ⟨[], Keyed.ascending_nil⟩

instance : Inhabited Bindings := ⟨empty⟩

/-- Whether a tag occurs in one of the payloads.  The empty tag counts as absent. -/
def declaredIn (tag : Text) (payloads : List Text) : Bool :=
  !tag.isEmpty && payloads.any tag.occursIn

/-- Puts a replacement under a tag, as it is. -/
def put (b : Bindings) (tag replacement : Text) : Bindings :=
  ⟨Keyed.insert tag replacement b.entries, b.ascending.insert tag replacement⟩

/-- Binds a tag to a value; an earlier binding is lost. -/
def bind (b : Bindings) (tag value : Text) (encode : Bool) : Bindings :=
  b.put tag (Markup.encodeValue encode value)

/-- The replacement of a tag. -/
def get? (b : Bindings) (tag : Text) : Option Text :=
  Keyed.find? tag b.entries

/-- How many tags are bound. -/
def size (b : Bindings) : Nat :=
  b.entries.length

/-- The bound tags in order. -/
def tags (b : Bindings) : List Text :=
  b.entries.map Prod.fst

/-- After a binding its tag has the new replacement, and every other tag what it had. -/
theorem get?_put (b : Bindings) (tag replacement t : Text) :
    (b.put tag replacement).get? t = if t = tag then some replacement else b.get? t :=
  Keyed.find?_insert t tag replacement b.entries

/-! ## Substitution -/

/-- The longest of the given tags that a text begins with, with its replacement and the text
behind it.  Empty tags are passed over. -/
def longestAt : List (Text × Text) → Text → Option ((Text × Text) × Text)
  | [], _ => none
  | (tag, replacement) :: entries, s =>
    match if tag.isEmpty then none else Text.dropPrefix? tag s with
    | none => longestAt entries s
    | some rest =>
      match longestAt entries s with
      | some ((tag', replacement'), rest') =>
        if tag.length < tag'.length then some ((tag', replacement'), rest')
        else some ((tag, replacement), rest)
      | none => some ((tag, replacement), rest)

/-- What is found is a tag of the list, not empty, in front of the rest. -/
theorem longestAt_eq_some {entries : List (Text × Text)} {s rest : Text} {e : Text × Text}
    (h : longestAt entries s = some (e, rest)) : e ∈ entries ∧ e.1 ≠ [] ∧ s = e.1 ++ rest := by
  induction entries generalizing e rest with
  | nil => simp [longestAt] at h
  | cons head entries ih =>
    obtain ⟨tag, replacement⟩ := head
    have widen {e' : Text × Text} {rest' : Text} (h : longestAt entries s = some (e', rest')) :
        e' ∈ (tag, replacement) :: entries ∧ e'.1 ≠ [] ∧ s = e'.1 ++ rest' :=
      have ⟨mem, rest⟩ := ih h
      ⟨List.mem_cons_of_mem _ mem, rest⟩
    rw [longestAt] at h
    split at h
    · exact widen h
    · next found =>
      split at found
      · cases found
      · next nonempty =>
        rw [Text.dropPrefix?_eq_some_iff] at found
        have here : (tag, replacement) ∈ (tag, replacement) :: entries ∧
            (tag, replacement).1 ≠ [] ∧ s = (tag, replacement).1 ++ _ :=
          ⟨List.mem_cons_self, by simpa using nonempty, found⟩
        split at h
        · next later =>
          split at h
          · cases h; exact widen later
          · cases h; exact here
        · cases h; exact here

/-- The bound tags as a pattern that takes the longest one. -/
def pattern (b : Bindings) : Pattern (Text × Text) where
  match? := longestAt b.entries
  consumes h := by
    obtain ⟨_, nonempty, e⟩ := longestAt_eq_some h
    exact ⟨_, nonempty, e⟩

/-- Substitution when the empty tag is bound too. -/
def applyWithEmpty (b : Bindings) (payload : Text) : Text :=
  let entries := b.entries.map fun (tag, replacement) =>
    (tag.toBytes.toList, replacement.toBytes.toList)
  let tags := (entries.map Prod.fst).filter fun tag => !tag.isEmpty
  let write (tag : List UInt8) := (entries.lookup tag).getD []
  let bytes := EmptyTag.replace tags write payload.toBytes.toList
  (Text.ofBytes? ⟨bytes.toArray⟩).getD []

/-- Replaces every bound tag in a payload. -/
def apply (b : Bindings) (payload : Text) : Text :=
  match b.get? [] with
  | none => b.pattern.replace Prod.snd payload
  | some _ => b.applyWithEmpty payload

end Bindings

end DocumentMerge
