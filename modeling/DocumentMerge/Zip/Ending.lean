import DocumentMerge.Zip.Field

/-!
# Where the directory of a package is

A package ends with an end record, which says where the directory of members is and how many
records it has.  Anything may follow the end record, so it is looked for from the end of the
bytes, and anything may stand in front of a package, so the recorded places may all be too small
by the length of what stands there.

An end record whose numbers are all ones is too narrow for what it should say.  Then a locator may
stand in front of it, which leads to a wide end record that counts instead.
-/

namespace DocumentMerge.Zip

/-- Where a directory is. -/
structure Directory where
  /-- By how much the recorded places are too small. -/
  shift : Nat
  /-- Where the first record begins. -/
  start : Nat
  /-- How many records there are. -/
  count : Nat
  deriving DecidableEq, Repr

/-! ## The end record -/

/-- What an end record says. -/
structure Ending where
  disk : Nat
  directoryDisk : Nat
  /-- How many records the directory has on this disk. -/
  onDisk : Nat
  /-- How many records the directory has. -/
  total : Nat
  /-- The recorded place of the directory. -/
  offset : Nat
  deriving DecidableEq, Repr

namespace Ending

/-- Reads the end record at a place.  Its comment has to fit in the bytes. -/
def read? (data : ByteArray) (place : Nat) : Option Ending := do
  if RecordKind.ending.begins data place then
    let disk ← field? data (place + 4) 2
    let directoryDisk ← field? data (place + 6) 2
    let onDisk ← field? data (place + 8) 2
    let total ← field? data (place + 10) 2
    let offset ← field? data (place + 16) 4
    let commentLength ← field? data (place + 20) 2
    if place + 22 + commentLength ≤ data.size then
      some ⟨disk, directoryDisk, onDisk, total, offset⟩
    else none
  else none

/-- Whether the numbers are too narrow for what they should say. -/
def isNarrow (e : Ending) : Bool :=
  e.total == 0xFFFF || e.offset == 0xFFFFFFFF

end Ending

/-- The first place from `place` on, in front of `stop`, at which a directory record begins. -/
def firstRecord? (data : ByteArray) (stop place : Nat) : Option Nat :=
  if place < stop then
    if RecordKind.directoryEntry.begins data place then some place
    else firstRecord? data stop (place + 1)
  else none
termination_by stop - place

/-- The directory of which the end record at a place speaks.  Its first record is the first one at
or behind the recorded place, and an empty directory is right in front of the end record. -/
def Ending.directory? (data : ByteArray) (place : Nat) (e : Ending) : Option Directory :=
  if e.disk ≠ e.directoryDisk then none
  else if e.total = 0 then
    let shift := place - e.offset
    some ⟨shift, e.offset + shift, e.onDisk⟩
  else
    (firstRecord? data place e.offset).map fun first => ⟨first - e.offset, first, e.onDisk⟩

/-! ## The wide end record -/

/-- What a locator says. -/
structure Locator where
  disk : Nat
  /-- The recorded place of the wide end record. -/
  offset : Nat
  /-- How many disks there are. -/
  disks : Nat
  deriving DecidableEq, Repr

/-- How many bytes a locator has. -/
def Locator.length : Nat := 20

/-- Reads the locator at a place. -/
def Locator.read? (data : ByteArray) (place : Nat) : Option Locator := do
  if RecordKind.locator.begins data place then
    let disk ← field? data (place + 4) 4
    let offset ← field? data (place + 8) 8
    let disks ← field? data (place + 16) 4
    some ⟨disk, offset, disks⟩
  else none

/-- What a wide end record says. -/
structure WideEnding where
  /-- How many bytes follow the number that says so. -/
  length : Nat
  madeBy : Nat
  /-- The version that a reader needs. -/
  needed : Nat
  disk : Nat
  directoryDisk : Nat
  onDisk : Nat
  total : Nat
  offset : Nat
  deriving DecidableEq, Repr

namespace WideEnding

/-- Reads the wide end record at a place. -/
def read? (data : ByteArray) (place : Nat) : Option WideEnding := do
  if RecordKind.wideEnding.begins data place then
    let length ← field? data (place + 4) 8
    let madeBy ← field? data (place + 12) 2
    let needed ← field? data (place + 14) 2
    let disk ← field? data (place + 16) 4
    let directoryDisk ← field? data (place + 20) 4
    let onDisk ← field? data (place + 24) 8
    let total ← field? data (place + 32) 8
    let offset ← field? data (place + 48) 8
    some ⟨length, madeBy, needed, disk, directoryDisk, onDisk, total, offset⟩
  else none

/-- The least number of bytes that a directory record has. -/
def leastEntry : Nat := 46

/-- Whether a wide end record reaches from a place to the locator at `stop`, agrees with it, and
leaves room for its directory. -/
def fits (w : WideEnding) (locator : Locator) (stop place : Nat) : Bool :=
  44 ≤ w.length && place + 12 + w.length == stop && w.directoryDisk == locator.disk
    && w.total * leastEntry + w.offset ≤ place

/-- Whether a wide end record does not contradict itself. -/
def isSound (w : WideEnding) : Bool :=
  w.onDisk ≤ w.total && w.needed ≤ w.madeBy && w.disk == w.directoryDisk

end WideEnding

/-- The first wide end record from `place` on that fits the locator at `stop`, with its place. -/
def firstWide? (data : ByteArray) (locator : Locator) (stop place : Nat) :
    Option (WideEnding × Nat) :=
  if place < stop then
    match (WideEnding.read? data place).filter fun w => w.fits locator stop place with
    | some w => some (w, place)
    | none => firstWide? data locator stop (place + 1)
  else none
termination_by stop - place

/-- The directory to which the locator at a place leads. -/
def Locator.directory? (data : ByteArray) (place : Nat) (locator : Locator) :
    Option Directory := do
  if locator.disks ≤ 1 then
    let (w, found) ← firstWide? data locator place locator.offset
    if w.isSound then
      let shift := found - locator.offset
      some ⟨shift, w.offset + shift, w.total⟩
    else none
  else none

/-! ## Both together -/

/-- The locator in front of the end record at a place, with its place, if that record is too
narrow. -/
def Ending.locator? (data : ByteArray) (place : Nat) (e : Ending) : Option (Locator × Nat) :=
  if e.isNarrow ∧ Locator.length ≤ place then
    (Locator.read? data (place - Locator.length)).map fun l => (l, place - Locator.length)
  else none

/-- The directory to which the end record at a place leads. -/
def directoryAt? (data : ByteArray) (place : Nat) : Option Directory := do
  let e ← Ending.read? data place
  match e.locator? data place with
  | some (locator, before) => locator.directory? data before
  | none => e.directory? data place

end DocumentMerge.Zip
