import DocumentMerge.Markup.Event
import DocumentMerge.Proofs.Text.Replacing
import Mathlib.Data.List.TakeWhile
import Mathlib.Tactic.ByContra

/-!
# How markup is written

The reader of markup takes one piece after the other from the beginning of a text.  How a piece of
markup is written does not depend on what follows: it ends at the first terminator, and this is part of
the piece.

* `Written` says for each kind how its pieces are written, without the reader.
* `written_of_markupPiece`, `Written.markupPiece_eq`: these are the pieces that the reader takes,
  whatever stands behind them.
* `Written.insert`: a text put into a comment, a character data section, an instruction or a document
  type becomes part of it, if it cannot end it.
-/

namespace DocumentMerge

namespace Text

/-- In the text with a part behind it, the part stands at the end and nowhere else. -/
def OnlyAtEnd (part t : Text) : Prop :=
  ∀ x y, t ++ part = x ++ part ++ y → y = []

/-- Cutting takes the text up to the first occurrence. -/
theorem cutAt?_eq_some_iff {part s a b : Text} (nonempty : part ≠ []) :
    cutAt? part s = some (a, b) ↔ s = a ++ part ++ b ∧ OnlyAtEnd part a := by
  obtain ⟨c, cs, rfl⟩ := List.exists_cons_of_ne_nil nonempty
  have cut : cutAt? (c :: cs) s = some (a, b) ↔ (Pattern.literal c cs).first? s = some ⟨a, (), b⟩ := by
    show ((Pattern.literal c cs).first? s).map _ = _ ↔ _
    rw [Option.map_eq_some_iff]
    constructor
    · rintro ⟨⟨a', u, b'⟩, found, same⟩
      cases same
      exact found
    · exact fun found => ⟨_, found, rfl⟩
  rw [cut, Pattern.first?_eq_some_iff]
  constructor
  · rintro ⟨found, rfl, here, none⟩
    obtain rfl := Pattern.literal_match?_eq_some_iff.1 here
    refine ⟨(List.append_assoc _ _ _).symm, fun x y earlier => ?_⟩
    by_contra more
    -- the occurrence begins in `a`, since something stands behind it
    have short : x.length < a.length := by
      have lengths := congrArg List.length earlier
      have := List.length_pos_iff.2 more
      simp only [List.length_append] at lengths
      omega
    rw [List.append_assoc] at earlier
    obtain ⟨d, split⟩ : x <+: a :=
      List.prefix_of_prefix_length_le ⟨c :: cs ++ y, earlier.symm⟩ ⟨c :: cs, rfl⟩
        (Nat.le_of_lt short)
    have inside : d ≠ [] := by
      rintro rfl
      rw [List.append_nil] at split
      exact Nat.lt_irrefl _ (split ▸ short)
    have unmatched := none d ⟨x, split⟩ inside
    rw [← split, List.append_assoc] at earlier
    have rest := List.append_cancel_left earlier
    have there : (Pattern.literal c cs).match? (c :: cs ++ (y ++ b)) = some ((), y ++ b) :=
      Pattern.literal_match?_eq_some_iff.2 rfl
    rw [← List.append_assoc, rest, List.append_assoc, there] at unmatched
    cases unmatched
  · rintro ⟨rfl, only⟩
    refine ⟨c :: cs ++ b, List.append_assoc _ _ _, Pattern.literal_match?_eq_some_iff.2 rfl,
      fun d suffix inside => Pattern.literal_match?_eq_none fun earlier => inside ?_⟩
    obtain ⟨x, rfl⟩ := suffix
    have short : c :: cs <+: d ++ c :: cs := by
      refine List.prefix_of_prefix_length_le earlier ⟨b, List.append_assoc _ _ _⟩ ?_
      rw [List.length_append]
      exact Nat.le_add_left _ _
    obtain ⟨y, same⟩ := short
    have nothing := only x y (by rw [List.append_assoc, ← same, List.append_assoc])
    rw [nothing, List.append_nil] at same
    exact (List.append_left_eq_self.1 same.symm)

/-- A text can be put in if the part neither stands in it nor touches it. -/
theorem OnlyAtEnd.insert {part a b ins : Text} (h : OnlyAtEnd part (a ++ b)) (nonempty : part ≠ [])
    (absent : ¬ part <:+: ins) {first last : Char} (begins : ins.head? = some first)
    (ends : ins.getLast? = some last) (apart : first ∉ part) (apart' : last ∉ part) :
    OnlyAtEnd part (a ++ ins ++ b) := by
  intro x y found
  rw [List.append_assoc, List.append_assoc, List.append_assoc, List.append_eq_append_iff] at found
  have before {z : Text} (e : a = x ++ part ++ z) : y = [] := by
    have none := h x (z ++ b ++ part) (by rw [e]; simp only [List.append_assoc])
    exact absurd (List.append_eq_nil_iff.1 none).2 nonempty
  have behind {w : Text} (e : b ++ part = w ++ (part ++ y)) : y = [] :=
    h (a ++ w) y (by rw [List.append_assoc, e]; simp only [List.append_assoc])
  rcases found with ⟨w, rfl, later⟩ | ⟨w, rfl, beyond⟩
  · rcases List.append_eq_append_iff.1 later with ⟨v, rfl, later⟩ | ⟨v, rfl, beyond⟩
    · rw [List.append_assoc] at later
      exact behind (List.append_cancel_left later)
    · rcases List.append_eq_append_iff.1 beyond with ⟨u, rfl, -⟩ | ⟨u, rfl, beyond⟩
      · exact absurd ⟨w, u, List.append_assoc _ _ _⟩ absent
      · rcases List.eq_nil_or_concat v with rfl | ⟨v, e, rfl⟩
        · exact behind (w := []) (by simpa using beyond)
        · rw [List.concat_eq_append, ← List.append_assoc, List.getLast?_concat] at ends
          cases ends
          simp at apart'
  · rcases List.append_eq_append_iff.1 beyond with ⟨v, rfl, -⟩ | ⟨v, rfl, beyond⟩
    · exact before (z := v) (List.append_assoc _ _ _).symm
    · cases v with
      | nil => exact before (z := []) (by simp)
      | cons e v =>
        obtain ⟨d, ins, rfl⟩ := List.exists_cons_of_ne_nil (l := ins) (by rintro rfl; cases begins)
        cases begins
        obtain ⟨rfl, -⟩ := List.cons_eq_cons.1 beyond
        simp at apart

end Text

namespace Markup

/-! ## Where pieces end -/

/-- A tag that was read ends where it does whatever stands behind it. -/
theorem exists_of_tagEnd? {quote : Option Char} {seen s tag rest : Text}
    (h : tagEnd? quote seen s = some (tag, rest)) :
    ∃ inside, tag = seen.reverse ++ inside ∧ s = inside ++ '>' :: rest ∧
      ∀ t, tagEnd? quote seen (inside ++ '>' :: t) = some (tag, t) := by
  induction s generalizing quote seen with
  | nil => simp [tagEnd?] at h
  | cons c s ih =>
    cases quote with
    | some q =>
      rw [tagEnd?] at h
      obtain ⟨inside, rfl, rfl, again⟩ := ih h
      refine ⟨c :: inside, by simp, rfl, fun t => ?_⟩
      rw [List.cons_append, tagEnd?]
      exact again t
    | none =>
      rw [tagEnd?] at h
      by_cases closed : c = '>'
      · rw [if_pos closed] at h
        cases h
        subst closed
        exact ⟨[], by simp, rfl, fun t => by simp [tagEnd?]⟩
      · rw [if_neg closed] at h
        obtain ⟨inside, rfl, rfl, again⟩ := ih h
        refine ⟨c :: inside, by simp, rfl, fun t => ?_⟩
        rw [List.cons_append, tagEnd?, if_neg closed]
        exact again t

/-- The end of a document type does not depend on what stands behind it. -/
theorem exists_of_doctypeEnd? {depth : Nat} {seen s content rest : Text}
    (h : doctypeEnd? depth seen s = some (content, rest)) :
    ∃ w, s = w ++ '>' :: rest ∧ content = seen.reverse ++ w ∧
      ∀ seen y, doctypeEnd? depth seen (w ++ '>' :: y) = some (seen.reverse ++ w, y) := by
  induction s generalizing depth seen with
  | nil => cases h
  | cons c s ih =>
    have later {depth' : Nat} (h : doctypeEnd? depth' (c :: seen) s = some (content, rest))
        (step : ∀ seen s, doctypeEnd? depth seen (c :: s) = doctypeEnd? depth' (c :: seen) s) :
        ∃ w, c :: s = w ++ '>' :: rest ∧ content = seen.reverse ++ w ∧
          ∀ seen y, doctypeEnd? depth seen (w ++ '>' :: y) = some (seen.reverse ++ w, y) := by
      obtain ⟨w, rfl, rfl, reads⟩ := ih h
      refine ⟨c :: w, rfl, by simp, fun seen y => ?_⟩
      rw [List.cons_append, step, reads]
      simp
    rw [doctypeEnd?.eq_def] at h
    simp only at h
    split at h
    · next opens => exact later h fun seen s => by rw [doctypeEnd?.eq_def]; exact if_pos opens
    · next other =>
      split at h
      · next closes =>
        cases depth with
        | zero =>
          cases h
          exact ⟨[], by rw [closes, List.nil_append], (List.append_nil _).symm,
            fun seen y => by rw [List.append_nil]; rfl⟩
        | succ depth =>
          exact later h fun seen s => by
            rw [doctypeEnd?.eq_def]
            exact (if_neg other).trans (if_pos closes)
      · next inside =>
        exact later h fun seen s => by
          rw [doctypeEnd?.eq_def]
          exact (if_neg other).trans (if_neg inside)

/-! ## How pieces are written -/

/-- The text of a tag, in which no `>` stands outside quotes. -/
def TagText (tag : Text) : Prop :=
  ∀ y, tagEnd? none [] (tag ++ '>' :: y) = some (tag, y)

/-- The text of a document type, in which every `>` closes a `<`. -/
def DoctypeText (content : Text) : Prop :=
  ∀ y, doctypeEnd? 0 [] (content ++ '>' :: y) = some (content, y)

/-- A tag that does not begin as an end tag, an instruction or a declaration does. -/
def Opens (tag : Text) : Prop :=
  ∀ c ∈ tag.head?, c ≠ '!' ∧ c ≠ '/' ∧ c ≠ '?'

/-- The kind of a tag that opens an element. -/
def openKind (tag : Text) : Kind :=
  match tag.getLast? with
  | some '/' => .empty tag.dropLast
  | _ => .start tag

/-- How the pieces of each kind are written, running text excepted. -/
inductive Written : Kind → Text → Prop
  | comment {t : Text} : Text.OnlyAtEnd "-->".toList t →
    Written .other ("<!--".toList ++ t ++ "-->".toList)
  | cdata {t : Text} : Text.OnlyAtEnd "]]>".toList ("CDATA[".toList ++ t) →
    Written .other ("<![CDATA[".toList ++ t ++ "]]>".toList)
  | doctype {t : Text} : DoctypeText t → t.head? = some 'D' ∨ t.head? = some 'd' →
    beginsWith "DOCTYPE".toList t = true → (t.drop 7).all isSpace = false →
    Written .other ("<!".toList ++ t ++ ">".toList)
  | instruction {t : Text} : Text.OnlyAtEnd "?>".toList ('?' :: t) →
    Written .other ("<?".toList ++ t ++ "?>".toList)
  | close {tag : Text} : TagText tag → Written (.close tag) ("</".toList ++ tag ++ ">".toList)
  | tag {tag : Text} : TagText tag → Opens tag → Written (openKind tag) ('<' :: tag ++ ['>'])

theorem written_of_bangPiece {s : Text} {p : Piece} (h : bangPiece s = .ok (.ok p)) :
    Written p.kind p.written := by
  rw [bangPiece.eq_def] at h
  split at h
  · next c t =>
    split at h
    · next content rest found =>
      obtain ⟨-, ends⟩ := (Text.cutAt?_eq_some_iff (by decide)).1 found
      split at h
      · next dash =>
        cases h
        subst dash
        exact .comment ends
      · cases h
    · cases h
  · cases h
  · next t _ =>
    split at h
    · next content rest found =>
      obtain ⟨-, ends⟩ := (Text.cutAt?_eq_some_iff (by decide)).1 found
      split at h
      · next begins =>
        cases h
        obtain ⟨t, rfl⟩ := List.isPrefixOf_iff_prefix.1 begins
        exact .cdata ends
      · cases h
    · cases h
  · next c s _ _ =>
    split at h
    · next letter =>
      split at h
      · next content rest found =>
        obtain ⟨content, split, rfl, reads⟩ := exists_of_doctypeEnd? found
        split at h
        · next begins =>
          split at h
          · cases h
          · next named =>
            cases h
            refine .doctype (reads []) ?_ begins (by simpa using named)
            cases content with
            | nil => exact absurd begins (by decide)
            | cons d content =>
              obtain ⟨rfl, -⟩ := List.cons_eq_cons.1 split
              exact letter.imp (congrArg some) (congrArg some)
        · cases h
      · cases h
    · cases h
  · cases h

/-- A tag that is read opens an element of its kind. -/
theorem tagPiece_of_tagEnd? {s tag rest : Text} (found : tagEnd? none [] s = some (tag, rest)) :
    tagPiece s = .ok ⟨openKind tag, '<' :: tag ++ ['>'], rest⟩ := by
  rw [tagPiece, found, openKind]
  simp only
  cases tag.getLast? with
  | none => rfl
  | some c =>
    by_cases slash : c = '/'
    · subst slash
      rfl
    · simp [slash]

/-- The pieces of markup that are read are written so. -/
theorem written_of_markupPiece {s : Text} {p : Piece} (h : markupPiece s = .ok p) :
    Written p.kind p.written := by
  rw [markupPiece.eq_def] at h
  split at h
  · split at h
    · next read =>
      cases h
      exact written_of_bangPiece read
    · cases h
    · cases h
  · split at h
    · next tag rest found =>
      cases h
      obtain ⟨w, rfl, -, reads⟩ := exists_of_tagEnd? found
      exact .close reads
    · cases h
  · split at h
    · next c content rest found =>
      cases h
      obtain ⟨whole, ends⟩ := (Text.cutAt?_eq_some_iff (by decide)).1 found
      obtain ⟨rfl, -⟩ := List.cons_eq_cons.1 whole
      exact .instruction ends
    · cases h
  · next bang slash query =>
    split at h
    · next piece read =>
      cases h
      have ended := read
      rw [tagPiece] at ended
      split at ended
      · next tag rest found =>
        rw [tagPiece_of_tagEnd? found] at read
        cases read
        obtain ⟨tag, rfl, rfl, reads⟩ := exists_of_tagEnd? found
        refine .tag reads fun c first => ?_
        obtain ⟨tag, rfl⟩ := List.head?_eq_some_iff.1 first
        refine ⟨?_, ?_, ?_⟩
        · rintro rfl; exact bang _ rfl
        · rintro rfl; exact slash _ rfl
        · rintro rfl; exact query _ rfl
      · cases ended
    · cases h

/-- A piece is read as it is written, whatever follows. -/
theorem Written.markupPiece_eq {k : Kind} {w : Text} (h : Written k w) (y : Text) :
    ∃ s, w = '<' :: s ∧ markupPiece (s ++ y) = .ok ⟨k, w, y⟩ := by
  cases h with
  | @comment t ends =>
    have cut : Text.cutAt? "-->".toList (t ++ "-->".toList ++ y) = some (t, y) :=
      (Text.cutAt?_eq_some_iff (by decide)).2 ⟨rfl, ends⟩
    refine ⟨_, rfl, ?_⟩
    show markupPiece ('!' :: '-' :: '-' :: (t ++ "-->".toList ++ y)) = _
    rw [markupPiece, bangPiece, cut]
    rfl
  | @cdata t ends =>
    have cut : Text.cutAt? "]]>".toList ("CDATA[".toList ++ t ++ "]]>".toList ++ y)
        = some ("CDATA[".toList ++ t, y) :=
      (Text.cutAt?_eq_some_iff (by decide)).2 ⟨rfl, ends⟩
    have begins : "CDATA[".toList.isPrefixOf ("CDATA[".toList ++ t) = true :=
      List.isPrefixOf_iff_prefix.2 ⟨t, rfl⟩
    refine ⟨_, rfl, ?_⟩
    show markupPiece ('!' :: '[' :: ("CDATA[".toList ++ t ++ "]]>".toList ++ y)) = _
    rw [markupPiece, bangPiece, cut]
    simp only
    rw [if_pos begins]
    rfl
  | @doctype t reads first begins named =>
    refine ⟨_, rfl, ?_⟩
    obtain ⟨d, t, rfl⟩ := List.exists_cons_of_ne_nil (l := t) (by rintro rfl; simp at first)
    have letter : d = 'D' ∨ d = 'd' := by simpa using first
    have apart : d ≠ '-' ∧ d ≠ '[' := by rcases letter with rfl | rfl <;> decide
    have read : bangPiece (d :: t ++ '>' :: y)
        = .ok (.ok ⟨.other, "<!".toList ++ d :: t ++ ">".toList, y⟩) := by
      rw [List.cons_append, bangPiece.eq_def]
      split
      · next same => exact absurd (List.cons.inj same).1 apart.1
      · next same => exact absurd (List.cons.inj same).1 apart.1
      · next same => exact absurd (List.cons.inj same).1 apart.2
      · next same =>
        cases same
        rw [if_pos letter, ← List.cons_append, reads y]
        simp only
        rw [if_pos begins, named]
        rfl
      · next same => cases same
    show markupPiece ('!' :: (d :: t ++ '>' :: [] ++ y)) = _
    rw [List.append_assoc]
    show markupPiece ('!' :: (d :: t ++ '>' :: y)) = _
    rw [markupPiece, read]
  | @instruction t ends =>
    have cut : Text.cutAt? "?>".toList ('?' :: t ++ "?>".toList ++ y) = some ('?' :: t, y) :=
      (Text.cutAt?_eq_some_iff (by decide)).2 ⟨rfl, ends⟩
    refine ⟨_, rfl, ?_⟩
    show markupPiece ('?' :: t ++ "?>".toList ++ y) = _
    rw [markupPiece.eq_def]
    split
    · next same => exact absurd (List.cons.inj same).1 (by decide)
    · next same => exact absurd (List.cons.inj same).1 (by decide)
    · rw [cut]
      rfl
    · next other => exact absurd rfl (other _)
  | @close tag reads =>
    refine ⟨_, rfl, ?_⟩
    show markupPiece ('/' :: (tag ++ ['>'] ++ y)) = _
    rw [List.append_assoc]
    show markupPiece ('/' :: (tag ++ '>' :: y)) = _
    rw [markupPiece, reads y]
  | @tag tag reads opens =>
    refine ⟨tag ++ ['>'], rfl, ?_⟩
    rw [List.append_assoc]
    show markupPiece (tag ++ '>' :: y) = _
    have piece : tagPiece (tag ++ '>' :: y) = .ok ⟨openKind tag, '<' :: tag ++ ['>'], y⟩ :=
      tagPiece_of_tagEnd? (reads y)
    have first (c : Char) (s : Text) (same : tag ++ '>' :: y = c :: s) : c ≠ '!' ∧ c ≠ '/' ∧ c ≠ '?' := by
      cases tag with
      | nil =>
        cases same
        decide
      | cons d tag =>
        cases same
        exact opens c rfl
    rw [markupPiece.eq_def]
    split
    · next same => exact absurd rfl (first _ _ same).1
    · next same => exact absurd rfl (first _ _ same).2.1
    · next same => exact absurd rfl (first _ _ same).2.2
    · rw [piece]

/-- No piece of markup is the beginning of another one. -/
theorem Written.eq_nil_of_append {k l : Kind} {w v : Text} (h : Written k w)
    (longer : Written l (w ++ v)) : v = [] := by
  obtain ⟨s, rfl, reads⟩ := h.markupPiece_eq v
  obtain ⟨s', same, reads'⟩ := longer.markupPiece_eq []
  obtain rfl : s ++ v = s' := (List.cons.inj same).2
  rw [List.append_nil, reads] at reads'
  exact congrArg Piece.rest (Except.ok.inj reads')

/-- Running text is no piece of markup, and only tags mean something. -/
theorem Written.eq_other {k : Kind} {w : Text} {opened opened' : List Text} (h : Written k w)
    (means : Reader.meaning opened k = .ok (.other, opened')) : k = .other ∧ opened' = opened := by
  cases h with
  | comment | cdata | doctype | instruction =>
    cases means
    exact ⟨rfl, rfl⟩
  | close =>
    rw [Reader.meaning.eq_def] at means
    simp only at means
    split at means
    · cases means
    · split at means <;> cases means
  | @tag tag =>
    rw [openKind] at means
    split at means <;> cases means

/-- A piece of markup begins with a bracket. -/
theorem Written.head?_eq {k : Kind} {w : Text} (h : Written k w) : w.head? = some '<' := by
  obtain ⟨s, rfl, -⟩ := h.markupPiece_eq []
  rfl

namespace Reader

/-- Without a byte order mark, the reader begins where the text begins. -/
theorem ofText_cons {c : Char} (plain : c ≠ '\ufeff') (s : Text) : ofText (c :: s) = ⟨[], c :: s⟩ := by
  unfold ofText
  split
  · next same => exact absurd (List.cons.inj same).1 plain
  · rfl

/-- What one step reads: running text, which means nothing, or a piece of markup. -/
theorem step?_cases {r : Reader} {s : Step} (h : r.step? = .ok (some s)) :
    (s.event = .other ∧ s.next.opened = r.opened ∧ '<' ∉ s.written) ∨
      ∃ k, Written k s.written ∧ meaning r.opened k = .ok (s.event, s.next.opened) := by
  rw [step?] at h
  split at h
  · cases h
  · next c t _ =>
    split at h
    · cases h
    · next p read =>
      split at h
      · next event opened means =>
        cases h
        rw [piece] at read
        split at read
        · exact .inr ⟨p.kind, written_of_markupPiece read, means⟩
        · next plain =>
          cases read
          cases means
          refine .inl ⟨rfl, rfl, ?_⟩
          rw [List.mem_cons, not_or]
          exact ⟨Ne.symm plain, fun mem => by simpa using List.mem_takeWhile_imp mem⟩
      · cases h

/-- A piece of markup is read whatever follows. -/
theorem step?_of_written {k : Kind} {w : Text} {opened opened' : List Text} {event : Event}
    (h : Written k w) (means : meaning opened k = .ok (event, opened')) (y : Text) :
    step? ⟨opened, w ++ y⟩ = .ok (some ⟨event, w, ⟨opened', y⟩⟩) := by
  obtain ⟨s, rfl, reads⟩ := h.markupPiece_eq y
  rw [step?]
  simp only [List.cons_append]
  rw [piece, if_pos rfl, reads]
  simp only
  rw [means]

/-- Running text is read up to the next bracket. -/
theorem step?_of_text {c : Char} (plain : c ≠ '<') (opened : List Text) (t : Text) :
    step? ⟨opened, c :: t⟩ = .ok (some ⟨.other, c :: t.takeWhile (fun d => d != '<'),
      ⟨opened, t.dropWhile fun d => d != '<'⟩⟩) := by
  rw [step?]
  simp only
  rw [piece, if_neg plain]
  rfl

end Reader

/-! ## Putting a text into a piece -/

/-- What goes on in a document type goes on in the same way behind each part of it. -/
theorem exists_depth_of_doctypeEnd? {depth : Nat} {seen a b y : Text}
    (h : doctypeEnd? depth seen (a ++ b ++ '>' :: y) = some (seen.reverse ++ (a ++ b), y)) :
    ∃ d, ∀ seen z, doctypeEnd? depth seen (a ++ z) = doctypeEnd? d (a.reverse ++ seen) z := by
  induction a generalizing depth seen with
  | nil => exact ⟨depth, fun seen z => rfl⟩
  | cons c a ih =>
    have later {depth' : Nat}
        (step : ∀ seen s, doctypeEnd? depth seen (c :: s) = doctypeEnd? depth' (c :: seen) s) :
        ∃ d, ∀ seen z, doctypeEnd? depth seen (c :: a ++ z)
          = doctypeEnd? d ((c :: a).reverse ++ seen) z := by
      rw [List.cons_append, List.cons_append, step] at h
      have below : doctypeEnd? depth' (c :: seen) (a ++ b ++ '>' :: y)
          = some ((c :: seen).reverse ++ (a ++ b), y) := by
        rw [h]
        simp
      obtain ⟨d, same⟩ := ih below
      refine ⟨d, fun seen z => ?_⟩
      rw [List.cons_append, step, same]
      simp
    by_cases opens : c = '<'
    · exact later fun seen s => by rw [doctypeEnd?.eq_def]; exact if_pos opens
    · by_cases closes : c = '>'
      · cases depth with
        | zero =>
          rw [List.cons_append, List.cons_append, doctypeEnd?.eq_def] at h
          simp [closes] at h
        | succ depth =>
          exact later fun seen s => by
            rw [doctypeEnd?.eq_def]
            exact (if_neg opens).trans (if_pos closes)
      · exact later fun seen s => by
          rw [doctypeEnd?.eq_def]
          exact (if_neg opens).trans (if_neg closes)

/-- Every `>` stands behind a `/`. -/
def Slashed (t : Text) : Prop :=
  ∀ x y, t = x ++ '>' :: y → x.getLast? = some '/'

theorem Slashed.append {s t : Text} (hs : Slashed s) (ht : Slashed t) : Slashed (s ++ t) := by
  intro x y split
  rcases List.append_eq_append_iff.1 split with ⟨w, rfl, rest⟩ | ⟨w, rfl, rest⟩
  · rw [List.getLast?_append, ht w y rest]
    rfl
  · cases w with
    | nil => cases ht [] y rest.symm
    | cons c w =>
      obtain ⟨rfl, -⟩ := List.cons_eq_cons.1 rest
      exact hs x w rfl

theorem slashed_of_plain {t : Text} (plain : '>' ∉ t) : Slashed t := by
  rintro x y rfl
  simp at plain

theorem slashed_end {t : Text} (plain : '>' ∉ t) : Slashed (t ++ ['/', '>']) := by
  intro x y split
  rcases List.append_eq_append_iff.1 split with ⟨w, rfl, rest⟩ | ⟨w, rfl, rest⟩
  · cases w with
    | nil => cases rest
    | cons c w =>
      obtain ⟨rfl, rest⟩ := List.cons_eq_cons.1 rest
      cases w with
      | nil => simp
      | cons d w => simp at rest
  · cases w with
    | nil => cases rest
    | cons c w =>
      obtain ⟨rfl, -⟩ := List.cons_eq_cons.1 rest
      simp at plain

/-- Document types go on behind the text as they did before it. -/
def Balanced (t : Text) : Prop :=
  ∀ depth seen y, doctypeEnd? depth seen (t ++ y) = doctypeEnd? depth (t.reverse ++ seen) y

theorem Balanced.append {s t : Text} (hs : Balanced s) (ht : Balanced t) : Balanced (s ++ t) := by
  intro depth seen y
  rw [List.append_assoc, hs, ht, List.reverse_append, List.append_assoc]

theorem balanced_of_plain {t : Text} (opens : '<' ∉ t) (closes : '>' ∉ t) : Balanced t := by
  induction t with
  | nil => exact fun _ _ _ => rfl
  | cons c t ih =>
    intro depth seen y
    rw [List.mem_cons, not_or] at opens closes
    rw [List.cons_append, doctypeEnd?.eq_def]
    simp only
    rw [if_neg (Ne.symm opens.1), if_neg (Ne.symm closes.1), ih opens.2 closes.2]
    simp

/-- A tag is closed by its own bracket. -/
theorem balanced_bracket {t : Text} (h : Balanced t) : Balanced ('<' :: t ++ ['>']) := by
  intro depth seen y
  have opens : doctypeEnd? depth seen ('<' :: (t ++ '>' :: y))
      = doctypeEnd? (depth + 1) ('<' :: seen) (t ++ '>' :: y) := rfl
  have closes (seen : Text) : doctypeEnd? (depth + 1) seen ('>' :: y)
      = doctypeEnd? depth ('>' :: seen) y := rfl
  have text : '<' :: t ++ ['>'] ++ y = '<' :: (t ++ '>' :: y) := by simp
  rw [text, opens, h, closes]
  simp

/-- A text that does not end the piece into which it is put: it is made of whole lines, has a `>` only
behind a `/`, and as many `<` before it. -/
structure Harmless (ins : Text) : Prop where
  begins : ∃ c, ins.head? = some c ∧ (c = '<' ∨ c = '\n')
  ends : ins.getLast? = some '\n'
  slashed : Slashed ins
  balanced : Balanced ins

/-- A place within a piece, behind a `>` and some `<` within the piece, or in front of a `<`. -/
structure Within (u v : Text) : Prop where
  begun : u ≠ []
  unfinished : v ≠ []
  place : '<' ∈ u.tail ∧ u.getLast? = some '>' ∨ v.head? = some '<'

/-- Such a place is neither in the beginning of a piece nor in its end. -/
theorem Within.exists_append {head t term u v : Text} (h : Within u v)
    (whole : head ++ t ++ term = u ++ v) (nonempty : head ≠ []) (single : '<' ∉ head.tail)
    (absent : '<' ∉ term) (final : '>' ∉ term.dropLast) :
    ∃ a b, t = a ++ b ∧ u = head ++ a ∧ v = b ++ term := by
  obtain ⟨begun, unfinished, place⟩ := h
  rw [List.append_assoc, List.append_eq_append_iff] at whole
  rcases whole with ⟨a, rfl, rest⟩ | ⟨w, rfl, rfl⟩
  · rcases List.append_eq_append_iff.1 rest with ⟨w, rfl, rfl⟩ | ⟨b, rfl, rfl⟩
    · rcases List.eq_nil_or_concat w with rfl | ⟨w, c, rfl⟩
      · exact ⟨t, [], by simp, by simp, by simp⟩
      · -- a part of the terminator stands before the place, and another one behind it
        rcases place with ⟨-, ends⟩ | first
        · have : (head ++ (t ++ w.concat c)).getLast? = some c := by simp
          rw [this] at ends
          cases ends
          refine absurd ?_ final
          rw [List.dropLast_append_of_ne_nil unfinished]
          simp
        · exact absurd (List.mem_append_right _ (List.mem_of_mem_head? first)) absent
    · exact ⟨a, b, rfl, rfl, rfl⟩
  · cases w with
    | nil => exact ⟨[], t, by simp, by simp, by simp⟩
    | cons c w =>
      obtain ⟨d, u, rfl⟩ := List.exists_cons_of_ne_nil begun
      rcases place with ⟨mem, -⟩ | first
      · exact absurd (List.mem_append_left _ mem) single
      · cases first
        exact absurd (List.mem_append_right _ List.mem_cons_self) single

theorem openKind_ne_other (tag : Text) : openKind tag ≠ .other := by
  rw [openKind]
  split <;> exact Kind.noConfusion

/-- A part that ends in `>`, with no `/` before it, is not ended by what is put in. -/
theorem Harmless.onlyAtEnd {ins part a b : Text} (h : Harmless ins) (mark : Char)
    (closes : ∃ front, part = front ++ [mark, '>']) (plain : mark ≠ '/')
    (apart : '<' ∉ part ∧ '\n' ∉ part) (only : Text.OnlyAtEnd part (a ++ b)) :
    Text.OnlyAtEnd part (a ++ ins ++ b) := by
  obtain ⟨front, rfl⟩ := closes
  obtain ⟨first, begins, which⟩ := h.begins
  refine only.insert (by simp) ?_ begins h.ends ?_ apart.2
  · rintro ⟨x, y, rfl⟩
    have before := h.slashed (x ++ (front ++ [mark])) y (by simp)
    rw [← List.append_assoc, List.getLast?_concat] at before
    exact plain (Option.some.inj before)
  · rcases which with rfl | rfl
    · exact apart.1
    · exact apart.2

theorem Harmless.doctypeText {ins a b : Text} (h : Harmless ins) (reads : DoctypeText (a ++ b)) :
    DoctypeText (a ++ ins ++ b) := by
  intro y
  have whole := reads y
  obtain ⟨d, behind⟩ := exists_depth_of_doctypeEnd? whole
  rw [List.append_assoc, behind] at whole
  obtain ⟨w, -, content, reads⟩ := exists_of_doctypeEnd? whole
  obtain rfl : b = w := by simpa using content
  rw [List.append_assoc, List.append_assoc, behind, h.balanced, reads]
  simp

/-- The letters with which a document type begins hold no bracket. -/
theorem take_of_beginsWith {t : Text} (h : beginsWith "DOCTYPE".toList t = true) :
    (t.take 7).map Char.toUpper = "DOCTYPE".toList ∧ (t.take 7).length = 7 ∧ '<' ∉ t.take 7 := by
  have word : (t.take 7).map Char.toUpper = "DOCTYPE".toList := by
    rw [beginsWith, beq_iff_eq] at h
    exact h
  refine ⟨word, ?_, fun mem => ?_⟩
  · rw [← List.length_map, word]
    rfl
  · have upper := List.mem_map_of_mem (f := Char.toUpper) mem
    rw [word] at upper
    exact absurd upper (by decide)

/-- **Texts within a piece.**  A comment, a character data section, an instruction or a document type
stays one if a harmless text is put into it. -/
theorem Written.insert {u v ins : Text} (h : Written .other (u ++ v)) (place : Within u v)
    (harmless : Harmless ins) : Written .other (u ++ ins ++ v) := by
  generalize whole : u ++ v = w at h
  generalize kind : Kind.other = k at h
  cases h with
  | @comment t only =>
    obtain ⟨a, b, rfl, rfl, rfl⟩ := place.exists_append whole.symm (by decide) (by decide) (by decide)
      (by decide)
    have still := harmless.onlyAtEnd '-' ⟨['-'], rfl⟩ (by decide) (by decide) only
    simpa using Written.comment still
  | @cdata t only =>
    obtain ⟨a, b, rfl, rfl, rfl⟩ := place.exists_append whole.symm (by decide) (by decide) (by decide)
      (by decide)
    rw [← List.append_assoc] at only
    have still := harmless.onlyAtEnd ']' ⟨[']'], rfl⟩ (by decide) (by decide) only
    rw [List.append_assoc, List.append_assoc] at still
    simpa using Written.cdata still
  | @instruction t only =>
    obtain ⟨a, b, rfl, rfl, rfl⟩ := place.exists_append whole.symm (by decide) (by decide) (by decide)
      (by decide)
    rw [← List.cons_append] at only
    have still := harmless.onlyAtEnd '?' ⟨[], rfl⟩ (by decide) (by decide) only
    rw [List.append_assoc, List.cons_append] at still
    simpa using Written.instruction still
  | @doctype t reads first begins named =>
    obtain ⟨word, size, plain⟩ := take_of_beginsWith begins
    have parts : "<!".toList ++ t.take 7 ++ t.drop 7 ++ ">".toList = u ++ v := by
      rw [List.append_assoc "<!".toList, List.take_append_drop, whole]
    obtain ⟨a, b, rest, rfl, rfl⟩ := place.exists_append parts (by simp) (by simpa using plain)
      (by decide) (by decide)
    have split : t = t.take 7 ++ a ++ b := by
      rw [List.append_assoc, ← rest, List.take_append_drop]
    have closed : DoctypeText (t.take 7 ++ a ++ ins ++ b) :=
      harmless.doctypeText (by rwa [← split])
    have still := Written.doctype closed
      (by
        rw [split] at first
        generalize front : t.take 7 = x at *
        cases x with
        | nil => simp at size
        | cons c x => simpa using first)
      (by
        rw [beginsWith, beq_iff_eq, List.append_assoc, List.append_assoc]
        show (List.take 7 _).map Char.toUpper = "DOCTYPE".toList
        rw [List.take_append_of_le_length (by omega), List.take_of_length_le (by omega), word])
      (by
        rw [rest, List.all_eq_false] at named
        obtain ⟨c, mem, text⟩ := named
        rw [List.append_assoc, List.append_assoc, List.drop_append_of_le_length (by omega),
          List.drop_of_length_le (by omega), List.nil_append, List.all_eq_false]
        refine ⟨c, ?_, text⟩
        rcases List.mem_append.1 mem with left | right
        · exact List.mem_append_left _ left
        · exact List.mem_append_right _ (List.mem_append_right _ right))
    simpa using still
  | close => cases kind
  | tag => exact absurd kind.symm (openKind_ne_other _)

end Markup

end DocumentMerge
