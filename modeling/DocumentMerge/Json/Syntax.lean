import DocumentMerge.Text.Basic

/-!
# The grammar of JSON texts

A JSON text is read into its syntax first: numbers keep their digits, objects keep the order and
the repetitions of their members, and a string knows whether it can be text at all, since an
escape may name half of a surrogate pair.  Whether a number is too large, a member unknown or
given twice, or the nesting too deep, depends on what the text is read as, and is decided there.

The readers return what is left, and each returns less than it was given; that is why reading
comes to an end.
-/

namespace DocumentMerge.Json

/-- The parts of a number as written. -/
structure Literal where
  negative : Bool
  /-- Digits before the point. -/
  whole : Text
  /-- Digits behind the point; none when there is no point. -/
  fraction : Text
  /-- Sign and digits of the exponent. -/
  exponent : Option (Bool × Text)
  deriving DecidableEq, Repr

/-- A JSON text by its grammar. -/
inductive Syntax where
  | null
  | bool (b : Bool)
  | number (n : Literal)
  /-- No content stands for a string that is not text. -/
  | string (content : Option Text)
  | array (items : List Syntax)
  | object (members : List (Option Text × Syntax))
  deriving Repr

namespace Syntax

/-- White space between tokens. -/
def isBlank (c : Char) : Bool :=
  c == ' ' || c == '\n' || c == '\t' || c == '\r'

/-- Skips white space. -/
def skipBlanks (s : Text) : Text :=
  s.dropWhile isBlank

theorem length_dropWhile_le {α : Type} (p : α → Bool) (s : List α) :
    (s.dropWhile p).length ≤ s.length :=
  (List.dropWhile_sublist p).length_le

theorem length_skipBlanks_le (s : Text) : (skipBlanks s).length ≤ s.length :=
  length_dropWhile_le _ s

/-! ## Numbers -/

/-- The digits at the beginning; at least one is needed. -/
def digits? (s : Text) : Option (Text × Text) :=
  match s with
  | c :: _ => if c.isDigit then some (s.takeWhile Char.isDigit, s.dropWhile Char.isDigit) else none
  | [] => none

theorem length_digits? {s ds rest : Text} (h : digits? s = some (ds, rest)) :
    rest.length < s.length := by
  unfold digits? at h
  split at h
  · next c t =>
    split at h
    · next digit =>
      cases h
      have := length_dropWhile_le Char.isDigit t
      simp only [List.dropWhile_cons, digit, ite_true, List.length_cons]
      omega
    · cases h
  · cases h

/-- The digits before the point: a lone zero, or digits that do not begin with zero. -/
def whole? (s : Text) : Option (Text × Text) :=
  match digits? s with
  | some (ds, rest) => if ds.head? = some '0' ∧ ds ≠ ['0'] then none else some (ds, rest)
  | none => none

/-- The digits behind a point; there are none when no point follows. -/
def fraction? (s : Text) : Option (Text × Text) :=
  match s with
  | '.' :: t => digits? t
  | _ => some ([], s)

/-- Sign and digits of an exponent, when one follows. -/
def exponent? (s : Text) : Option (Option (Bool × Text) × Text) :=
  match s with
  | c :: t =>
    if c = 'e' ∨ c = 'E' then
      let (negative, t) :=
        match t with
        | '-' :: u => (true, u)
        | '+' :: u => (false, u)
        | _ => (false, t)
      (digits? t).map fun (ds, rest) => (some (negative, ds), rest)
    else some (none, s)
  | [] => some (none, s)

/-- A number behind its sign. -/
def unsigned? (negative : Bool) (s : Text) : Option (Literal × Text) := do
  let (whole, s) ← whole? s
  let (fraction, s) ← fraction? s
  let (exponent, s) ← exponent? s
  some (⟨negative, whole, fraction, exponent⟩, s)

theorem length_fraction? {s ds rest : Text} (h : fraction? s = some (ds, rest)) :
    rest.length ≤ s.length := by
  unfold fraction? at h
  split at h
  · have := length_digits? h
    simp only [List.length_cons]
    omega
  · cases h; exact Nat.le_refl _

theorem length_exponent? {s rest : Text} {e : Option (Bool × Text)}
    (h : exponent? s = some (e, rest)) : rest.length ≤ s.length := by
  unfold exponent? at h
  split at h
  · next c t =>
    split at h
    · simp only [Option.map_eq_some_iff] at h
      obtain ⟨⟨ds, r⟩, hd, e⟩ := h
      have hr := length_digits? hd
      cases e
      split at hr <;> simp only [List.length_cons] at * <;> omega
    · cases h; exact Nat.le_refl _
  · cases h; exact Nat.le_refl _

theorem length_unsigned? {negative : Bool} {s rest : Text} {n : Literal}
    (h : unsigned? negative s = some (n, rest)) : rest.length < s.length := by
  simp only [unsigned?, Option.bind_eq_bind, Option.bind_eq_some_iff] at h
  obtain ⟨⟨_, a⟩, hw, ⟨_, b⟩, hf, ⟨_, c⟩, he, e⟩ := h
  cases e
  have hw : a.length < s.length := by
    unfold whole? at hw
    split at hw
    · next hd =>
      split at hw
      · cases hw
      · cases hw; exact length_digits? hd
    · cases hw
  exact Nat.lt_of_le_of_lt (Nat.le_trans (length_exponent? he) (length_fraction? hf)) hw

/-! ## Strings -/

/-- The value of a hexadecimal digit. -/
def hexDigit? (c : Char) : Option Nat :=
  if c.isDigit then some (c.toNat - '0'.toNat)
  else if 'a' ≤ c ∧ c ≤ 'f' then some (c.toNat - 'a'.toNat + 10)
  else if 'A' ≤ c ∧ c ≤ 'F' then some (c.toNat - 'A'.toNat + 10)
  else none

/-- The number that four hexadecimal digits name. -/
def hexFour? (a b c d : Char) : Option Nat := do
  let a ← hexDigit? a
  let b ← hexDigit? b
  let c ← hexDigit? c
  let d ← hexDigit? d
  some (((a * 16 + b) * 16 + c) * 16 + d)

/-- One unit of a string: a character, or a 16-bit code unit that an escape names. -/
inductive Piece where
  | char (c : Char)
  | unit (n : Nat)
  deriving DecidableEq, Repr

/-- The character that a one-letter escape stands for. -/
def escape? (c : Char) : Option Char :=
  match c with
  | '"' => some '"'
  | '\\' => some '\\'
  | '/' => some '/'
  | 'b' => some '\x08'
  | 'f' => some '\x0c'
  | 'n' => some '\n'
  | 'r' => some '\r'
  | 't' => some '\t'
  | _ => none

/-- Reads the pieces of a string up to its closing quote, which is consumed.  Characters below
the space must be escaped. -/
def pieces? (read : List Piece) : Text → Option (List Piece × Text)
  | [] => none
  | '"' :: s => some (read.reverse, s)
  | '\\' :: 'u' :: a :: b :: c :: d :: s =>
    match hexFour? a b c d with
    | some n => pieces? (.unit n :: read) s
    | none => none
  | '\\' :: e :: s =>
    match escape? e with
    | some c => pieces? (.char c :: read) s
    | none => none
  | c :: s => if c = '\\' ∨ c.toNat < 0x20 then none else pieces? (.char c :: read) s

theorem length_pieces? {read ps : List Piece} {s rest : Text}
    (h : pieces? read s = some (ps, rest)) : rest.length < s.length := by
  fun_induction pieces? read s with
  | case1 => cases h
  | case2 => cases h; simp
  | case3 read a b c d s n hn ih => have := ih h; simp only [List.length_cons]; omega
  | case4 => cases h
  | case5 read e s _ c hc ih => have := ih h; simp only [List.length_cons]; omega
  | case6 => cases h
  | case7 => cases h
  | case8 => next ih => have := ih h; simp only [List.length_cons]; omega

/-- Whether a code unit is the first half of a surrogate pair. -/
def isHighHalf (n : Nat) : Bool :=
  0xD800 ≤ n && n ≤ 0xDBFF

/-- Whether a code unit is the second half of a surrogate pair. -/
def isLowHalf (n : Nat) : Bool :=
  0xDC00 ≤ n && n ≤ 0xDFFF

/-- The text that the pieces of a string spell; there is none when a half of a surrogate pair
stands alone. -/
def text? (read : Text) : List Piece → Option Text
  | [] => some read.reverse
  | .char c :: ps => text? (c :: read) ps
  | .unit h :: ps =>
    if isLowHalf h then none
    else if isHighHalf h then
      match ps with
      | .unit l :: qs =>
        if isLowHalf l then
          text? (Char.ofNat (0x10000 + (h - 0xD800) * 0x400 + (l - 0xDC00)) :: read) qs
        else none
      | _ => none
    else text? (Char.ofNat h :: read) ps

/-- The content of a string, read behind its opening quote. -/
def content? (s : Text) : Option (Option Text × Text) :=
  (pieces? [] s).map fun (ps, rest) => (text? [] ps, rest)

theorem length_content? {s rest : Text} {t : Option Text} (h : content? s = some (t, rest)) :
    rest.length < s.length := by
  simp only [content?, Option.map_eq_some_iff] at h
  obtain ⟨⟨ps, r⟩, hp, e⟩ := h
  cases e
  exact length_pieces? hp

/-! ## Values -/

/-- What a reader leaves behind is shorter than a bound. -/
abbrev Rest (α : Type) (bound : Nat) : Type :=
  { r : α × Text // r.2.length < bound }

/-- Reads one of the three words, behind its first letter. -/
def word? (bound : Nat) (t : Text) (h : t.length < bound) (c : Char) : Option (Rest Syntax bound) :=
  let reading (tail : Text) (v : Syntax) : Option (Rest Syntax bound) :=
    match found : Text.dropPrefix? tail t with
    | some rest =>
      some ⟨(v, rest), by
        rw [Text.dropPrefix?_eq_some_iff] at found
        subst found
        simp only [List.length_append] at h
        show rest.length < bound
        omega⟩
    | none => none
  match c with
  | 'n' => reading "ull".toList .null
  | 't' => reading "rue".toList (.bool true)
  | 'f' => reading "alse".toList (.bool false)
  | _ => none

mutual

/-- Reads one value and the white space in front of it. -/
def value? (s : Text) : Option (Rest Syntax s.length) :=
  match _skipped : skipBlanks s with
  | [] => none
  | c :: t =>
    have : t.length < s.length := by
      have := length_skipBlanks_le s
      rw [_skipped] at this
      exact this
    if c = '"' then
      match found : content? t with
      | some (content, rest) =>
        some ⟨(.string content, rest), Nat.lt_trans (length_content? found) this⟩
      | none => none
    else if c = '[' then
      match _next : skipBlanks t with
      | ']' :: rest =>
        some ⟨(.array [], rest), by
          have shorter := length_skipBlanks_le t
          rw [_next] at shorter
          simp only [List.length_cons] at shorter
          show rest.length < s.length
          omega⟩
      | _ => items? s.length t this []
    else if c = '{' then
      match _next : skipBlanks t with
      | '}' :: rest =>
        some ⟨(.object [], rest), by
          have shorter := length_skipBlanks_le t
          rw [_next] at shorter
          simp only [List.length_cons] at shorter
          show rest.length < s.length
          omega⟩
      | _ => members? s.length t this []
    else if c = '-' then
      match found : unsigned? true t with
      | some (n, rest) => some ⟨(.number n, rest), Nat.lt_trans (length_unsigned? found) this⟩
      | none => none
    else if c.isDigit then
      match found : unsigned? false (c :: t) with
      | some (n, rest) =>
        some ⟨(.number n, rest), by
          have shorter := length_unsigned? found
          simp only [List.length_cons] at shorter
          show rest.length < s.length
          omega⟩
      | none => none
    else
      word? s.length t this c
termination_by (s.length, 1)

/-- Reads the items of an array up to its closing bracket. -/
def items? (bound : Nat) (s : Text) (h : s.length < bound) (read : List Syntax) :
    Option (Rest Syntax bound) :=
  match value? s with
  | none => none
  | some ⟨(v, t), ht⟩ =>
    match _next : skipBlanks t with
    | ',' :: u =>
      have : u.length < s.length := by
        have := length_skipBlanks_le t
        rw [_next] at this
        simp only [List.length_cons] at this ht
        omega
      items? bound u (Nat.lt_trans this h) (v :: read)
    | ']' :: u =>
      some ⟨(.array (v :: read).reverse, u), by
        have shorter := length_skipBlanks_le t
        rw [_next] at shorter
        simp only [List.length_cons] at shorter ht
        show u.length < bound
        omega⟩
    | _ => none
termination_by (s.length, 2)

/-- Reads the members of an object up to its closing brace. -/
def members? (bound : Nat) (s : Text) (h : s.length < bound) (read : List (Option Text × Syntax)) :
    Option (Rest Syntax bound) :=
  match _opened : skipBlanks s with
  | '"' :: t =>
    match _keyed : content? t with
    | none => none
    | some (key, t₁) =>
      match _colon : skipBlanks t₁ with
      | ':' :: t₂ =>
        have h₂ : t₂.length < s.length := by
          have h₀ := length_skipBlanks_le s
          have h₁ := length_content? _keyed
          have h₂ := length_skipBlanks_le t₁
          rw [_opened] at h₀
          rw [_colon] at h₂
          simp only [List.length_cons] at h₀ h₂
          omega
        match value? t₂ with
        | none => none
        | some ⟨(v, t₃), h₃⟩ =>
          match _next : skipBlanks t₃ with
          | ',' :: u =>
            have : u.length < s.length := by
              have := length_skipBlanks_le t₃
              rw [_next] at this
              simp only [List.length_cons] at this h₃
              omega
            members? bound u (Nat.lt_trans this h) ((key, v) :: read)
          | '}' :: u =>
            some ⟨(.object ((key, v) :: read).reverse, u), by
              have shorter := length_skipBlanks_le t₃
              rw [_next] at shorter
              simp only [List.length_cons] at shorter h₃
              show u.length < bound
              omega⟩
          | _ => none
      | _ => none
  | _ => none
termination_by (s.length, 2)

end

/-- Reads a whole JSON text: one value, with white space around it and nothing else. -/
def parse? (s : Text) : Option Syntax :=
  match value? s with
  | some ⟨(v, rest), _⟩ => if (skipBlanks rest).isEmpty then some v else none
  | none => none

end Syntax

end DocumentMerge.Json
