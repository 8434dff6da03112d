import DocumentMerge.Text.Basic

/-!
# Members of a package

A package is a list of members.  Each has a name, its content, and the method by which it is kept:
as it is, or compressed.  A name that ends in a slash is that of a directory, which has no content.

Members are read by more methods than they are written by.  A member that was read is `Held` in
memory with the method by which it was found; when it is written it becomes a `Member`, and what was
not stored is deflated, whatever it was before.
-/

namespace DocumentMerge.Zip

/-- Whether a name is that of a directory. -/
def isDirectoryName (name : Text) : Bool :=
  name.getLast? == some '/'

/-! ## Members that are written -/

/-- How the content of a member is written. -/
inductive Method where
  | stored
  | deflated
  deriving DecidableEq, Repr

/-- A member of a package that is written. -/
structure Member where
  name : Text
  method : Method
  data : ByteArray

/-! ## Members that are held in memory -/

/-- The ways to compress content that are read by decompressors from elsewhere, and never written. -/
inductive Codec where
  | deflate64
  | bzip2
  | lzma
  | zstd
  | xz
  deriving DecidableEq, Repr

/-- What decompressors make of the bytes that a member takes in a package, if they are not damaged. -/
abbrev Unpack := Codec → ByteArray → Option ByteArray

/-- How the content of a member is kept in a package that is read. -/
inductive Compression where
  | stored
  | deflated
  | coded (codec : Codec)
  deriving DecidableEq, Repr

/-- What was stored is written so again, and anything else is deflated. -/
def Compression.method : Compression → Method
  | .stored => .stored
  | .deflated | .coded _ => .deflated

/-- How content is found that was written by a method. -/
def Method.compression : Method → Compression
  | .stored => .stored
  | .deflated => .deflated

@[simp] theorem Method.method_compression (m : Method) : m.compression.method = m := by
  cases m with
  | stored => rfl
  | deflated => rfl

/-- A member that is held in memory. -/
structure Held where
  name : Text
  compression : Compression
  data : ByteArray

/-- Members that are held are compared field by field, and their content byte by byte. -/
instance : DecidableEq Held := fun a b =>
  decidable_of_iff (a.name = b.name ∧ a.compression = b.compression ∧ a.data.data = b.data.data)
    (by
      obtain ⟨_, _, ⟨_⟩⟩ := a
      obtain ⟨_, _, ⟨_⟩⟩ := b
      simp only [Held.mk.injEq, ByteArray.mk.injEq])

/-- A member as it is written, if its name demands nothing else. -/
def Held.member (h : Held) : Member :=
  ⟨h.name, h.compression.method, h.data⟩

/-- A member as it is found where it was written. -/
def Member.held (m : Member) : Held :=
  ⟨m.name, m.method.compression, m.data⟩

@[simp] theorem Member.member_held (m : Member) : m.held.member = m := by
  rw [held, Held.member, Method.method_compression]

@[simp] theorem Member.name_held (m : Member) : m.held.name = m.name := rfl

end DocumentMerge.Zip
