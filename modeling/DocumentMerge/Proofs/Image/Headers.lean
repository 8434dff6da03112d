import DocumentMerge.Image.Format

/-!
# The size behind the headers of a JPEG

A JPEG may have any number of headers in front of the one that gives its size, and each says how long
it is.  The scan goes from one to the next and looks at nothing in between, so a payload may hold what
would be a frame header elsewhere.

* `isFrame_iff`: the markers of frame headers.
* `Header` and `Frame`: a header that is passed over, and the frame header with what follows it.  Both
  carry what makes them so.
* `frameSize?_headers`: the scan comes through any list of headers to the frame.
* `round`: one round of the scan by positions, where every byte is asked for by its own position and
  may be missing.  `Rounds` is the run of it up to an answer.
* `rounds_frameSize?`: from every position the rounds come to an end, none of them asks for a byte that
  is missing, and the answer is that of `frameSize?`.
* `size_behind_headers`: both together, for the size of a JPEG.
-/

namespace DocumentMerge.ImageFormat

theorem bigEndian_halves (n : UInt16) : bigEndian [(n >>> 8).toUInt8, n.toUInt8] = n.toNat := by
  have := n.toNat_lt
  simp [bigEndian, Nat.shiftRight_eq_div_pow]
  omega

namespace Jpeg

/-! ## Headers -/

/-- The markers of frame headers: those from C0 to CF but for three, which begin tables and
extensions. -/
theorem isFrame_iff {marker : UInt8} : isFrame marker = true ↔
    marker ∈ [0xC0, 0xC1, 0xC2, 0xC3, 0xC5, 0xC6, 0xC7, 0xC9, 0xCA, 0xCB, 0xCD, 0xCE, 0xCF] := by
  simp only [isFrame, Bool.and_eq_true, decide_eq_true_eq, bne_iff_ne, ne_eq, UInt8.le_iff_toNat_le,
    List.mem_cons, List.not_mem_nil, or_false, ← UInt8.toNat_inj, UInt8.reduceToNat]
  omega

/-- A header that is passed over: its marker begins no frame, and its length counts the payload and
the two bytes of the length. -/
structure Header where
  marker : UInt8
  high : UInt8
  low : UInt8
  payload : List UInt8
  /-- A marker is told from the byte in front of it. -/
  unlike : marker ≠ 0xFF
  frameless : isFrame marker = false
  counted : bigEndian [high, low] = payload.length + 2

/-- The bytes of a header. -/
def Header.bytes (h : Header) : List UInt8 :=
  0xFF :: h.marker :: h.high :: h.low :: h.payload

/-- A frame header that gives a size, with at least one byte behind it. -/
structure Frame where
  marker : UInt8
  high : UInt8
  low : UInt8
  precision : UInt8
  height : UInt16
  width : UInt16
  behind : List UInt8
  frames : isFrame marker = true
  tall : height ≠ 0
  wide : width ≠ 0
  followed : behind ≠ []

/-- The bytes of a frame header and what is behind it. -/
def Frame.bytes (f : Frame) : List UInt8 :=
  0xFF :: f.marker :: f.high :: f.low :: f.precision :: (f.height >>> 8).toUInt8 ::
    f.height.toUInt8 :: (f.width >>> 8).toUInt8 :: f.width.toUInt8 :: f.behind

/-- The bytes of a JPEG with some headers in front of its frame. -/
def image (headers : List Header) (frame : Frame) : List UInt8 :=
  0xFF :: 0xD8 :: (headers.flatMap Header.bytes ++ frame.bytes)

theorem Frame.ten_le (f : Frame) : 10 ≤ f.bytes.length := by
  have := List.length_pos_iff.2 f.followed
  simp only [bytes, List.length_cons]
  omega

/-! ## One step of the scan -/

variable {data : List UInt8} {lead marker l₁ l₂ : UInt8}

/-- Ten bytes are there one by one. -/
theorem exists_of_ten_le (h : 10 ≤ data.length) :
    ∃ b₀ b₁ b₂ b₃ b₄ b₅ b₆ b₇ b₈ b₉ rest,
      data = b₀ :: b₁ :: b₂ :: b₃ :: b₄ :: b₅ :: b₆ :: b₇ :: b₈ :: b₉ :: rest := by
  match data, h with
  | _ :: _ :: _ :: _ :: _ :: _ :: _ :: _ :: _ :: _ :: _, _ =>
    exact ⟨_, _, _, _, _, _, _, _, _, _, _, rfl⟩

/-- With fewer than ten bytes left the scan has found nothing. -/
theorem frameSize?_of_short (h : data.length < 10) : frameSize? data = none := by
  unfold frameSize?
  split
  · rfl
  · split
    · simp only [List.length_cons] at h
      omega
    · rfl

/-- A byte that begins no header is passed over by itself. -/
theorem frameSize?_of_ne (other : lead ≠ 0xFF) (long : 10 ≤ (lead :: data).length) :
    frameSize? (lead :: data) = frameSize? data := by
  obtain ⟨_, _, _, _, _, _, _, _, _, _, _, cut⟩ := exists_of_ten_le long
  obtain ⟨rfl, rfl⟩ := List.cons.inj cut
  conv => lhs; unfold frameSize?
  exact if_pos other

/-- A header is passed over by its length. -/
theorem frameSize?_of_frameless (frameless : isFrame marker = false)
    (long : 10 ≤ (0xFF :: marker :: l₁ :: l₂ :: data).length) :
    frameSize? (0xFF :: marker :: l₁ :: l₂ :: data)
      = frameSize? ((marker :: l₁ :: l₂ :: data).drop (1 + bigEndian [l₁, l₂])) := by
  obtain ⟨_, _, _, _, _, _, _, _, _, _, _, cut⟩ := exists_of_ten_le long
  cases cut
  conv => lhs; unfold frameSize?
  simp only [ne_eq, not_true_eq_false, if_false, frameless, Bool.false_eq_true]

/-- A frame header gives the size. -/
theorem frameSize?_frame (f : Frame) :
    frameSize? f.bytes = some (f.width.toNat, f.height.toNat) := by
  obtain ⟨c, behind, cut⟩ := List.exists_cons_of_ne_nil f.followed
  rw [Frame.bytes, cut]
  unfold frameSize?
  simp only [ne_eq, not_true_eq_false, if_false, f.frames, if_true, bigEndian_halves]

/-- A header is passed over as a whole, whatever its payload holds. -/
theorem frameSize?_header (h : Header) (long : 10 ≤ data.length) :
    frameSize? (h.bytes ++ data) = frameSize? data := by
  have whole : 10 ≤ (0xFF :: h.marker :: h.high :: h.low :: (h.payload ++ data)).length := by
    simp only [List.length_cons, List.length_append]
    omega
  have behind : (h.marker :: h.high :: h.low :: (h.payload ++ data)).drop (1 + (h.payload.length + 2))
      = data := by
    rw [show 1 + (h.payload.length + 2) = h.payload.length + 3 by omega]
    simp
  have step := frameSize?_of_frameless h.frameless whole
  rw [h.counted, behind] at step
  exact step

/-- The scan comes through all headers to the frame. -/
theorem frameSize?_headers (headers : List Header) (f : Frame) :
    frameSize? (headers.flatMap Header.bytes ++ f.bytes)
      = some (f.width.toNat, f.height.toNat) := by
  induction headers with
  | nil => exact frameSize?_frame f
  | cons h headers ih =>
    have long : 10 ≤ (headers.flatMap Header.bytes ++ f.bytes).length := by
      have := f.ten_le
      rw [List.length_append]
      omega
    rw [List.flatMap_cons, List.append_assoc, frameSize?_header h long, ih]

/-- A header or a frame stands behind the first two bytes. -/
theorem exists_headers_eq (headers : List Header) (f : Frame) :
    ∃ b rest, headers.flatMap Header.bytes ++ f.bytes = 0xFF :: b :: rest := by
  cases headers with
  | nil => exact ⟨_, _, rfl⟩
  | cons h headers => exact ⟨_, _, rfl⟩

theorem ofBytes?_image (headers : List Header) (f : Frame) :
    ofBytes? (image headers f) = some .jpeg := by
  obtain ⟨b, rest, front⟩ := exists_headers_eq headers f
  rw [image, front]
  rfl

theorem size?_image (headers : List Header) (f : Frame) :
    size? .jpeg (image headers f) = some (f.width.toNat, f.height.toNat) := by
  have wide : 0 < f.width.toNat := Nat.pos_of_ne_zero fun e => f.wide (UInt16.toNat_inj.1 e)
  have tall : 0 < f.height.toNat := Nat.pos_of_ne_zero fun e => f.tall (UInt16.toNat_inj.1 e)
  have found : headerSize? .jpeg (image headers f) = some (f.width.toNat, f.height.toNat) :=
    frameSize?_headers headers f
  rw [size?, found]
  simp [Option.filter, wide, tall]

/-! ## The scan by positions -/

/-- What a round of the scan comes to. -/
inductive Round where
  /-- The scan goes on at a position. -/
  | next (position : Nat)
  /-- The scan is at its end. -/
  | done (size : Option (Nat × Nat))
  deriving DecidableEq, Repr

/-- One round of the scan at a position.  Every byte is asked for by its position, and a round that
asks for one that is not there has no answer. -/
def round (data : List UInt8) (i : Nat) : Option Round :=
  if i + 9 < data.length then do
    let lead ← data[i]?
    if lead ≠ 0xFF then some (.next (i + 1))
    else
      let marker ← data[i + 1]?
      if isFrame marker then
        let height := bigEndian [← data[i + 5]?, ← data[i + 6]?]
        let width := bigEndian [← data[i + 7]?, ← data[i + 8]?]
        some (.done (some (width, height)))
      else
        let length := bigEndian [← data[i + 2]?, ← data[i + 3]?]
        some (.next (i + 2 + length))
  else some (.done none)

/-- A scan from a position that has an answer in every round and comes to its end with the last of
them. -/
inductive Rounds (data : List UInt8) : (rounds position : Nat) → Option (Nat × Nat) → Prop
  | done {i : Nat} {size : Option (Nat × Nat)} :
      round data i = some (.done size) → Rounds data 1 i size
  | next {n i j : Nat} {size : Option (Nat × Nat)} :
      round data i = some (.next j) → Rounds data n j size → Rounds data (n + 1) i size

/-- A round has an answer wherever it begins.  It goes on further behind, and what is found from there
is what is found from here. -/
theorem round_eq (data : List UInt8) (i : Nat) :
    round data i = some (.done (frameSize? (data.drop i))) ∨
      ∃ j, i < j ∧ i < data.length ∧ round data i = some (.next j) ∧
        frameSize? (data.drop i) = frameSize? (data.drop j) := by
  by_cases long : i + 9 < data.length
  · have ten : 10 ≤ (data.drop i).length := by rw [List.length_drop]; omega
    obtain ⟨b₀, b₁, b₂, b₃, b₄, b₅, b₆, b₇, b₈, b₉, rest, cut⟩ := exists_of_ten_le ten
    -- a byte at a position is one of those ten
    have at_ (k : Nat) : data[i + k]? = (data.drop i)[k]? := (List.getElem?_drop).symm
    have here : data[i]? = some b₀ := by simpa [cut] using at_ 0
    by_cases lead : b₀ = 0xFF
    · subst lead
      cases frame : isFrame b₁ with
      | true =>
        left
        rw [cut]
        unfold frameSize?
        simp [round, long, here, at_, cut, frame]
      | false =>
        refine .inr ⟨i + 2 + bigEndian [b₂, b₃], by omega, by omega, ?_, ?_⟩
        · simp [round, long, here, at_, cut, frame]
        · have behind : data.drop (i + 2 + bigEndian [b₂, b₃])
              = (data.drop i).drop (1 + bigEndian [b₂, b₃] + 1) := by
            rw [List.drop_drop, show i + 2 = i + 1 + 1 from rfl]
            congr 1
            omega
          rw [behind, cut, frameSize?_of_frameless frame (by simp), List.drop_succ_cons]
    · refine .inr ⟨i + 1, by omega, by omega, ?_, ?_⟩
      · simp [round, long, here, lead]
      · rw [← List.drop_drop, cut, frameSize?_of_ne lead (by simp)]
        rfl
  · left
    rw [round, if_neg long, frameSize?_of_short (by rw [List.length_drop]; omega)]

/-- From every position the rounds come to the answer of the scan of what stands there. -/
theorem rounds_frameSize? (data : List UInt8) (i : Nat) :
    ∃ n ≤ data.length - i + 1, Rounds data n i (frameSize? (data.drop i)) := by
  rcases round_eq data i with ended | ⟨j, further, within, passed, same⟩
  · exact ⟨1, by omega, .done ended⟩
  · obtain ⟨n, bound, rest⟩ := rounds_frameSize? data j
    exact ⟨n + 1, by omega, .next passed (same ▸ rest)⟩
termination_by data.length - i

/-- **The size of a JPEG is read behind any headers.**  Data with any list of headers in front of a frame
header is told to be a JPEG, and its size is the one of the frame.  For any data at all, the scan by
positions ends after no more rounds than there are bytes and one, no round asks for a byte outside of the
data, and the size that the header gives is the answer of this scan. -/
theorem size_behind_headers :
    (∀ headers frame, ofBytes? (image headers frame) = some .jpeg ∧
      size? .jpeg (image headers frame) = some (frame.width.toNat, frame.height.toNat)) ∧
    ∀ data, ∃ n ≤ data.length + 1, Rounds data n 2 (headerSize? .jpeg data) := by
  refine ⟨fun headers frame => ⟨ofBytes?_image headers frame, size?_image headers frame⟩, fun data => ?_⟩
  obtain ⟨n, bound, run⟩ := rounds_frameSize? data 2
  exact ⟨n, by omega, run⟩

/-- A header whose payload looks like a frame header of nine by nine. -/
def disguised : Header where
  marker := 0xE0
  high := 0
  low := 11
  payload := [0xFF, 0xC0, 0, 17, 8, 0, 9, 0, 9]
  unlike := by decide
  frameless := Bool.eq_false_iff.2 (mt isFrame_iff.1 (by decide))
  counted := by decide

/-- The frame header of a progressive image. -/
def progressive : Frame where
  marker := 0xC2
  high := 0
  low := 17
  precision := 8
  height := 120
  width := 416
  behind := [3]
  frames := isFrame_iff.2 (by decide)
  tall := by decide
  wide := by decide
  followed := by decide

/-- Payloads that look like frame headers are passed over. -/
theorem size_behind_headers_disguised :
    ofBytes? (image [disguised, disguised] progressive) = some .jpeg ∧
      size? .jpeg (image [disguised, disguised] progressive) = some (416, 120) :=
  size_behind_headers.1 [disguised, disguised] progressive

end Jpeg

end DocumentMerge.ImageFormat
