/-!
# Where an empty tag stands

A tag with no text in it could be found at any place, so it needs a rule.  Places are searched
byte by byte, and a search goes on for as long as the bytes read last are the beginning of some
tag.  What it saw last is what it finds:

* at the place where it begins it sees the empty tag;
* behind a tag that was read whole it sees that tag;
* behind two or more bytes of a tag it sees the longest tag that ends there, and the empty tag if
  none does.  Behind the first byte of a tag it sees nothing new.

A tag that was read whole keeps what follows from counting as the beginning of another tag, so a
search never passes over it.  The next search begins behind what was found; if it would find no
more than the empty tag right there, it begins one byte later.  The empty tag inside a character
is found like any other but not replaced.

The other tags, none of them empty, are given as a list of byte texts.
-/

namespace DocumentMerge.EmptyTag

variable (tags : List (List UInt8))

/-- Whether a tag begins with the given bytes. -/
def begins (s : List UInt8) : Bool :=
  tags.any fun tag => s.isPrefixOf tag

/-- Whether the given bytes begin with a tag. -/
def opens (s : List UInt8) : Bool :=
  tags.any fun tag => tag.isPrefixOf s

/-- The longest end of what was read that is the beginning of a tag.  There is none when a tag
that was read whole stands in front of it. -/
def underWay? : List UInt8 → Option (List UInt8)
  | [] => some []
  | b :: s =>
    if begins tags (b :: s) then some (b :: s)
    else if opens tags (b :: s) then none
    else underWay? s

/-- The tag that is seen at the end of the beginning of a tag; the empty text stands for the
empty tag. -/
def seen? : List UInt8 → Option (List UInt8)
  | [] => some []
  | b :: s =>
    if tags.contains (b :: s) then some (b :: s)
    else if opens tags (b :: s) then none
    else if s.isEmpty && begins tags [b] then none
    else seen? s

/-- A tag that was found: how many bytes were passed before it, and what follows it. -/
structure Found where
  passed : Nat
  tag : List UInt8
  rest : List UInt8

/-- Goes on with a search that has passed `passed` bytes, the last of which are `state`, the
beginning of a tag. -/
def seek (found : Found) (passed : Nat) (state : List UInt8) : List UInt8 → Found
  | [] => found
  | b :: rest =>
    match underWay? tags (state ++ [b]) with
    | none | some [] => found
    | some state =>
      let found :=
        match seen? tags state with
        | some tag => ⟨passed + 1 - tag.length, tag, rest⟩
        | none => found
      seek found (passed + 1) state rest

/-- What a search finds. -/
def find (s : List UInt8) : Found :=
  seek tags ⟨0, [], s⟩ 0 [] s

theorem length_seek_le (found : Found) (passed : Nat) (state s : List UInt8) :
    (seek tags found passed state s).rest.length ≤ max found.rest.length s.length := by
  induction s generalizing found passed state with
  | nil => exact Nat.le_max_left _ _
  | cons b rest ih =>
    unfold seek
    split
    · exact Nat.le_max_left _ _
    · exact Nat.le_max_left _ _
    · refine Nat.le_trans (ih _ _ _) (Nat.max_le.2 ⟨?_, ?_⟩)
      · split
        · exact Nat.le_trans (Nat.le_succ _) (Nat.le_max_right _ _)
        · exact Nat.le_max_left _ _
      · exact Nat.le_trans (Nat.le_succ _) (Nat.le_max_right _ _)

theorem length_find_le (s : List UInt8) : (find tags s).rest.length ≤ s.length :=
  Nat.le_trans (length_seek_le tags ⟨0, [], s⟩ 0 [] s) (Nat.le_of_eq (Nat.max_self _))

/-- What is found behind a place where a tag was found. -/
def findBehind? (s : List UInt8) : Option Found :=
  let found := find tags s
  if found.rest.length < s.length then some found
  else
    match s with
    | [] => none
    | _ :: later =>
      let found := find tags later
      some { found with passed := found.passed + 1 }

theorem length_findBehind? {s : List UInt8} {found : Found} (h : findBehind? tags s = some found) :
    found.rest.length < s.length := by
  unfold findBehind? at h
  simp only at h
  split at h
  · next shorter => cases h; exact shorter
  · split at h
    · cases h
    · cases h
      exact Nat.lt_succ_of_le (length_find_le tags _)

/-! ## Replacing -/

/-- Whether a place is not inside a character. -/
def betweenCharacters (rest : List UInt8) : Bool :=
  match rest with
  | [] => true
  | b :: _ => b < 0x80 || 0xC0 ≤ b

/-- What takes the place of the bytes up to the end of a tag that was found in `s`. -/
def piece (write : List UInt8 → List UInt8) (s : List UInt8) (found : Found) : List UInt8 :=
  s.take found.passed
    ++ if betweenCharacters found.rest then write found.tag else found.tag

/-- Replaces what is found behind a place where a tag was found. -/
def replaceBehind (write : List UInt8 → List UInt8) (s : List UInt8) : List UInt8 :=
  match _found : findBehind? tags s with
  | none => s
  | some found => piece write s found ++ replaceBehind write found.rest
termination_by s.length
decreasing_by exact length_findBehind? tags _found

/-- Replaces all that is found, the empty tag included. -/
def replace (write : List UInt8 → List UInt8) (s : List UInt8) : List UInt8 :=
  let found := find tags s
  piece write s found ++ replaceBehind tags write found.rest

end DocumentMerge.EmptyTag
