/-!
# Decompression

Compressed content is a sequence of blocks of bits.  A block holds bytes as they are, or symbols
in a prefix code: a symbol is a byte, the end of the block, or a length, which stands together
with a distance for a copy of what was decompressed before.

Bits are kept as a list, each byte giving its lowest bit first.  Every reader leaves fewer bits
than it was given, or as many, and the blocks come to an end because each takes at least its
header.
-/

namespace DocumentMerge.Zip.Inflate

/-- The bits of bytes, lowest first. -/
def bitsOf (data : ByteArray) : List Bool :=
  data.data.toList.flatMap fun b => (List.range 8).map fun i => b.toNat.testBit i

/-- A number of `n` bits, lowest first. -/
def number? : (n : Nat) → List Bool → Option (Nat × List Bool)
  | 0, bits => some (0, bits)
  | _ + 1, [] => none
  | n + 1, b :: bits =>
    match number? n bits with
    | some (high, rest) => some (2 * high + b.toNat, rest)
    | none => none

theorem length_number? {n m : Nat} {bits rest : List Bool} (h : number? n bits = some (m, rest)) :
    rest.length + n = bits.length := by
  fun_induction number? n bits generalizing m with
  | case1 => cases h; rfl
  | case2 => cases h
  | case3 n b bits high r found ih => cases h; have := ih found; simp only [List.length_cons]; omega
  | case4 => cases h

/-! ## Prefix codes -/

/-- A canonical prefix code: how many symbols have a code of each length, from one bit on, and
the symbols in the order of their codes. -/
structure Code where
  counts : List Nat
  symbols : Array Nat

/-- The longest code, in bits. -/
def maxCodeLength : Nat := 15

/-- The code in which each symbol has a code of the given length; zero stands for none. -/
def Code.ofLengths (lengths : List Nat) : Code :=
  let indexed := lengths.zipIdx
  let sizes := (List.range maxCodeLength).map (· + 1)
  { counts := sizes.map fun n => lengths.count n
    symbols := (sizes.flatMap fun n => (indexed.filter (·.1 == n)).map Prod.snd).toArray }

/-- Whether code lengths use up all codes, each code being as long as it says.  The number of codes
is doubled from one length to the next. -/
def isComplete (lengths : List Nat) : Bool :=
  (List.range maxCodeLength).foldl (fun used n => 2 * (used + lengths.count (n + 1))) 0 == 0x10000

/-- Whether code lengths make a code in which symbols of a block can be written.  A code that
stands for one symbol has one bit, and a code may stand for none. -/
def isUsable (lengths : List Nat) : Bool :=
  isComplete lengths || (lengths.filter fun n => n != 0).all (· == 1) && lengths.count 1 ≤ 1

/-- Reads a symbol.  Of the codes of the present length, `first` is the smallest and `index` the
number of symbols with shorter codes; `code` holds the bits read. -/
def symbolFrom? (symbols : Array Nat) (code first index : Nat) :
    (counts : List Nat) → List Bool → Option (Nat × List Bool)
  | [], _ => none
  | _, [] => none
  | count :: counts, b :: bits =>
    let code := code + b.toNat
    if code < first + count then
      (symbols[index + (code - first)]?).map fun s => (s, bits)
    else symbolFrom? symbols (2 * code) (2 * (first + count)) (index + count) counts bits

theorem length_symbolFrom? {symbols : Array Nat} {code first index s : Nat} {counts : List Nat}
    {bits rest : List Bool}
    (h : symbolFrom? symbols code first index counts bits = some (s, rest)) :
    rest.length < bits.length := by
  fun_induction symbolFrom? symbols code first index counts bits with
  | case1 => cases h
  | case2 => cases h
  | case3 =>
    obtain ⟨_, -, e⟩ := Option.map_eq_some_iff.1 h
    cases e
    exact Nat.lt_succ_self _
  | case4 => next ih => exact Nat.lt_succ_of_lt (ih h)

/-- Reads a symbol of a code. -/
def Code.symbol? (c : Code) (bits : List Bool) : Option (Nat × List Bool) :=
  symbolFrom? c.symbols 0 0 0 c.counts bits

/-! ## Lengths and distances -/

/-- A symbol that stands for a range: its least value and the number of bits that follow. -/
structure Span where
  base : Nat
  extra : Nat

/-- The spans of the length symbols, from symbol 257 on. -/
def lengthSpans : Array Span :=
  #[⟨3, 0⟩, ⟨4, 0⟩, ⟨5, 0⟩, ⟨6, 0⟩, ⟨7, 0⟩, ⟨8, 0⟩, ⟨9, 0⟩, ⟨10, 0⟩, ⟨11, 1⟩, ⟨13, 1⟩, ⟨15, 1⟩,
    ⟨17, 1⟩, ⟨19, 2⟩, ⟨23, 2⟩, ⟨27, 2⟩, ⟨31, 2⟩, ⟨35, 3⟩, ⟨43, 3⟩, ⟨51, 3⟩, ⟨59, 3⟩, ⟨67, 4⟩,
    ⟨83, 4⟩, ⟨99, 4⟩, ⟨115, 4⟩, ⟨131, 5⟩, ⟨163, 5⟩, ⟨195, 5⟩, ⟨227, 5⟩, ⟨258, 0⟩]

/-- The spans of the distance symbols. -/
def distanceSpans : Array Span :=
  #[⟨1, 0⟩, ⟨2, 0⟩, ⟨3, 0⟩, ⟨4, 0⟩, ⟨5, 1⟩, ⟨7, 1⟩, ⟨9, 2⟩, ⟨13, 2⟩, ⟨17, 3⟩, ⟨25, 3⟩, ⟨33, 4⟩,
    ⟨49, 4⟩, ⟨65, 5⟩, ⟨97, 5⟩, ⟨129, 6⟩, ⟨193, 6⟩, ⟨257, 7⟩, ⟨385, 7⟩, ⟨513, 8⟩, ⟨769, 8⟩,
    ⟨1025, 9⟩, ⟨1537, 9⟩, ⟨2049, 10⟩, ⟨3073, 10⟩, ⟨4097, 11⟩, ⟨6145, 11⟩, ⟨8193, 12⟩,
    ⟨12289, 12⟩, ⟨16385, 13⟩, ⟨24577, 13⟩]

/-- The value that a symbol of a table stands for. -/
def span? (spans : Array Span) (symbol : Nat) (bits : List Bool) : Option (Nat × List Bool) := do
  let span ← spans[symbol]?
  let (n, rest) ← number? span.extra bits
  some (span.base + n, rest)

theorem length_span? {spans : Array Span} {symbol n : Nat} {bits rest : List Bool}
    (h : span? spans symbol bits = some (n, rest)) : rest.length ≤ bits.length := by
  simp only [span?, Option.bind_eq_bind, Option.bind_eq_some_iff] at h
  obtain ⟨_, -, ⟨_, _⟩, found, e⟩ := h
  cases e
  exact Nat.le.intro (length_number? found)

/-- The byte at a distance back from the end.  In front of the beginning there are zeros. -/
def byteBack (distance : Nat) (out : ByteArray) : UInt8 :=
  if distance ≤ out.size then (out[out.size - distance]?).getD 0 else 0

/-- Copies bytes from a distance back, one after the other, so that a copy may overlap what it
writes. -/
def copyBack (distance : Nat) : (length : Nat) → ByteArray → ByteArray
  | 0, out => out
  | length + 1, out => copyBack distance length (out.push (byteBack distance out))

/-! ## Blocks -/

/-- What a symbol of a block says, its distance included. -/
inductive Item where
  | byte (b : UInt8)
  | stop
  | copy (length distance : Nat)

/-- Reads a symbol and what belongs to it. -/
def item? (literals distances : Code) (bits : List Bool) : Option (Item × List Bool) := do
  let (s, rest) ← literals.symbol? bits
  if s < 256 then some (.byte s.toUInt8, rest)
  else if s = 256 then some (.stop, rest)
  else
    let (length, rest) ← span? lengthSpans (s - 257) rest
    let (d, rest) ← distances.symbol? rest
    let (distance, rest) ← span? distanceSpans d rest
    some (.copy length distance, rest)

theorem length_item? {literals distances : Code} {bits rest : List Bool} {i : Item}
    (h : item? literals distances bits = some (i, rest)) : rest.length < bits.length := by
  simp only [item?, Option.bind_eq_bind, Option.bind_eq_some_iff] at h
  obtain ⟨⟨s, rest₀⟩, symbol, h⟩ := h
  have shorter := length_symbolFrom? symbol
  split at h
  · cases h; exact shorter
  · split at h
    · cases h; exact shorter
    · simp only [Option.bind_eq_some_iff] at h
      obtain ⟨⟨_, rest₁⟩, length, ⟨_, rest₂⟩, far, ⟨_, rest₃⟩, distance, e⟩ := h
      cases e
      exact Nat.lt_of_le_of_lt (length_span? distance)
        (Nat.lt_trans (length_symbolFrom? far) (Nat.lt_of_le_of_lt (length_span? length) shorter))

/-- Reads the symbols of a block up to its end. -/
def items? (literals distances : Code) (out : ByteArray) (bits : List Bool) :
    Option (ByteArray × List Bool) :=
  match _read : item? literals distances bits with
  | none => none
  | some (.byte b, rest) => items? literals distances (out.push b) rest
  | some (.stop, rest) => some (out, rest)
  | some (.copy length distance, rest) =>
    items? literals distances (copyBack distance length out) rest
termination_by bits.length
decreasing_by all_goals exact length_item? _read

/-- Reads bytes as they are. -/
def bytes? : (n : Nat) → ByteArray → List Bool → Option (ByteArray × List Bool)
  | 0, out, bits => some (out, bits)
  | n + 1, out, bits =>
    match number? 8 bits with
    | some (b, rest) => bytes? n (out.push b.toUInt8) rest
    | none => none

/-- A block of bytes as they are: it begins at a byte, with its length and the complement. -/
def plainBlock? (out : ByteArray) (bits : List Bool) : Option (ByteArray × List Bool) := do
  let (length, rest) ← number? 16 (bits.drop (bits.length % 8))
  let (complement, rest) ← number? 16 rest
  if length + complement = 0xFFFF then bytes? length out rest else none

/-- The literal code of a block that brings none. -/
def fixedLiterals : Code :=
  Code.ofLengths (List.replicate 144 8 ++ List.replicate 112 9 ++ List.replicate 24 7
    ++ List.replicate 8 8)

/-- The distance code of a block that brings none. -/
def fixedDistances : Code :=
  Code.ofLengths (List.replicate 32 5)

/-- The order in which the lengths of the length code stand. -/
def lengthOrder : List Nat :=
  [16, 17, 18, 0, 8, 7, 9, 6, 10, 5, 11, 4, 12, 3, 13, 2, 14, 1, 15]

/-- Reads the lengths of the length code, `missing` of them still to come. -/
def codeLengths? : (missing : Nat) → List Bool → Option (List Nat × List Bool)
  | 0, bits => some ([], bits)
  | missing + 1, bits => do
    let (n, rest) ← number? 3 bits
    let (ns, rest) ← codeLengths? missing rest
    some (n :: ns, rest)

/-- Reads code lengths until there are `wanted`; they are kept last one first.  Three symbols
repeat: the length before, and zero. -/
def lengths? (code : Code) (wanted : Nat) (read : List Nat) (bits : List Bool) :
    Option (List Nat × List Bool) :=
  if read.length = wanted then some (read.reverse, bits)
  else if wanted < read.length then none
  else
    match _symbol : code.symbol? bits with
    | none => none
    | some (s, rest) =>
      have shorter : rest.length < bits.length := length_symbolFrom? _symbol
      if s < 16 then lengths? code wanted (s :: read) rest
      else
        let (value?, base, extra) :=
          if s = 16 then (read.head?, 3, 2) else if s = 17 then (some 0, 3, 3) else (some 0, 11, 7)
        match value?, _times : number? extra rest with
        | some value, some (n, rest') =>
          have : rest'.length < bits.length := by
            have := length_number? _times
            omega
          lengths? code wanted (List.replicate (base + n) value ++ read) rest'
        | _, _ => none
termination_by bits.length

/-- How many symbols for bytes and lengths there can be. -/
def mostLiterals : Nat := 286

/-- How many symbols for distances there can be. -/
def mostDistances : Nat := 30

/-- Reads the two codes of a block that brings its own. -/
def ownCodes? (bits : List Bool) : Option ((Code × Code) × List Bool) := do
  let (literals, rest) ← number? 5 bits
  let (distances, rest) ← number? 5 rest
  let (given, rest) ← number? 4 rest
  let (ns, rest) ← codeLengths? (given + 4) rest
  let ordered := lengthOrder.zip ns
  let codeLengths := (List.range 19).map fun s =>
    ((ordered.find? (·.1 == s)).map Prod.snd).getD 0
  if literals + 257 ≤ mostLiterals ∧ distances + 1 ≤ mostDistances ∧ isComplete codeLengths then
    let (all, rest) ←
      lengths? (Code.ofLengths codeLengths) (literals + 257 + distances + 1) [] rest
    let own := all.take (literals + 257)
    let far := all.drop (literals + 257)
    if isUsable own ∧ isUsable far then some ((Code.ofLengths own, Code.ofLengths far), rest)
    else none
  else none

/-- Reads a block behind its header. -/
def block? (kind : Nat) (out : ByteArray) (bits : List Bool) : Option (ByteArray × List Bool) :=
  match kind with
  | 0 => plainBlock? out bits
  | 1 => items? fixedLiterals fixedDistances out bits
  | 2 => do
    let ((literals, distances), rest) ← ownCodes? bits
    items? literals distances out rest
  | _ => none

/-- Reads blocks up to the last one; `fuel` bounds their number. -/
def blocks? (out : ByteArray) : (fuel : Nat) → List Bool → Option ByteArray
  | 0, _ => none
  | fuel + 1, bits => do
    let (last, rest) ← number? 1 bits
    let (kind, rest) ← number? 2 rest
    let (out, rest) ← block? kind out rest
    if last = 1 then some out else blocks? out fuel rest

/-- Decompresses; what follows the last block is not looked at.  Every block takes at least its
header, so there are no more blocks than bits. -/
def inflate? (data : ByteArray) : Option ByteArray :=
  let bits := bitsOf data
  blocks? ByteArray.empty (bits.length + 1) bits

end DocumentMerge.Zip.Inflate
