import DocumentMerge.Proofs.Region.Locating
import DocumentMerge.Proofs.Region.Marking

/-!
# Rows from which all markers go

The markers of a row go in two ways.  The text of each child is replaced by its output, and then the
regions of the segment's own name are replaced by what is in them.  Nothing else takes a marker away, so
whether any is left depends on how the row was put together.

* `Absent part piece`: a text begins nowhere in a piece, not even if what comes behind it is taken along.
  Absence is closed under concatenation.
* `Turns scan s s'`: a scan makes `s'` of `s`, whatever comes behind it.  So it goes from piece to piece,
  and a piece in which nothing begins that is searched for stays as it is (`Absent.turns`).
* `Plain ns t`: no marker of the given names begins in a text.
* `Pieced ns texts t`: plain text, closing markers and copies of some given texts, in any order.  If no
  texts are given, such a text is `Loose`: it may have closing markers, but opens no region.
* `LaidOut ns n texts t`: the same, and regions of one name `n` around such pieces.
* `LaidOut.replaceAll`: a given text is replaced by a loose one wherever it stands, and nowhere else, so
  the row stays laid out, in fewer given texts.
* `LaidOut.unwrap`: when no given texts are left, the row without the markers of `n` is loose.

A closing marker may be in the way of the markers of `n`, as a region ends at the nearest one
(`Loose.cases_closing`).  Therefore the pieces are kept together until the end, and it does not matter
which of the closing markers goes.
-/

namespace DocumentMerge

/-! ## Texts that begin nowhere in a piece -/

namespace Text

variable {part w s t : Text}

/-- A part begins nowhere in a piece, whatever comes behind it. -/
def Absent (part piece : Text) : Prop :=
  ∀ x y rest, piece ++ rest = x ++ (part ++ y) → piece.length ≤ x.length

theorem absent_nil : Absent part [] :=
  fun _ _ _ _ => Nat.zero_le _

theorem Absent.append (hs : Absent part s) (ht : Absent part t) : Absent part (s ++ t) := by
  intro x y rest cut
  rw [List.append_assoc] at cut
  obtain ⟨x, rfl⟩ : s <+: x :=
    List.prefix_of_prefix_length_le ⟨_, cut⟩ (List.prefix_append x _) (hs x y _ cut)
  rw [List.append_assoc, List.append_cancel_left_eq] at cut
  have := ht x y rest cut
  simp only [List.length_append]
  omega

/-- A longer part begins nowhere either. -/
theorem Absent.longer (h : Absent w s) (front : w <+: part) : Absent part s := by
  obtain ⟨more, rfl⟩ := front
  intro x y rest cut
  rw [List.append_assoc w] at cut
  exact h x (more ++ y) rest cut

theorem absent_of_notMem {c : Char} (free : c ∉ s) : Absent (c :: w) s := by
  intro x y rest cut
  by_contra short
  obtain ⟨d, rfl⟩ : x <+: s :=
    List.prefix_of_prefix_length_le ⟨_, cut.symm⟩ (List.prefix_append s rest) (by omega)
  rw [List.append_assoc, List.append_cancel_left_eq] at cut
  cases d with
  | nil => simp at short
  | cons e d =>
    obtain ⟨rfl, -⟩ := List.cons.inj cut
    exact free (by simp)

theorem Absent.not_within (h : Absent part s) (nonempty : part ≠ []) : ¬ part <:+: s := by
  rintro ⟨x, y, cut⟩
  have le := h x y [] (by rw [List.append_nil, ← cut, List.append_assoc])
  have := List.length_pos_iff.2 nonempty
  rw [← cut] at le
  simp only [List.length_append] at le
  omega

/-- A scan makes one text of another, whatever comes behind it. -/
def Turns (scan : Text → Text) (s s' : Text) : Prop :=
  ∀ u, scan (s ++ u) = s' ++ scan u

theorem Turns.append {scan : Text → Text} {s' t' : Text} (hs : Turns scan s s')
    (ht : Turns scan t t') : Turns scan (s ++ t) (s' ++ t') := by
  intro u
  rw [List.append_assoc, hs, ht, List.append_assoc]

theorem Turns.eq {scan : Text → Text} {s' : Text} (h : Turns scan s s') (nil : scan [] = []) :
    scan s = s' := by
  have whole := h []
  rwa [List.append_nil, nil, List.append_nil] at whole

/-- Replacing a part walks through a piece in which it does not begin. -/
theorem Absent.turns (h : Absent part s) (new : Text) : Turns (replaceAll part new) s s := by
  intro u
  cases part with
  | nil => rfl
  | cons c cs =>
    rw [replaceAll_cons, replaceAll_cons]
    refine Pattern.replace_append (Pattern.skips_of_forall fun x t rest cut found => ?_) u
    obtain ⟨⟨_, y⟩, here⟩ := Option.ne_none_iff_exists'.1 found
    exact h x y rest (by rw [cut, Pattern.literal_match?_eq_some_iff.1 here])

end Text

namespace Region

open Text (Absent Turns)

variable {ns : List Text} {texts : List Text} {m n v w t : Text}

/-! ## Markers in a piece -/

/-- Where no opening marker of a name begins, a search for its regions passes. -/
theorem skips_pattern (h : ∀ w, IsOpening n w → Absent w t) : (pattern fun m => m == n).Skips t := by
  refine Pattern.skips_of_forall fun x u rest cut found => ?_
  obtain ⟨⟨r, y⟩, here⟩ := Option.ne_none_iff_exists'.1 found
  have here : at? (fun m => m == n) u = some (r, y) := here
  obtain ⟨named, stands⟩ := at?_eq_some_iff.1 here
  have named : r.name = n := by simpa using named
  refine h r.opening (named ▸ stands.opens) x (r.inner ++ (r.closing ++ y)) rest ?_
  rw [cut, stands.whole, outer_append, List.nil_append]

/-- Where no closing marker of a name begins, a search for it passes. -/
theorem skips_closingPattern (h : ∀ w, IsClosing n w → Absent w t) : (closingPattern n).Skips t := by
  refine Pattern.skips_of_forall fun x u rest cut found => ?_
  obtain ⟨⟨w, y⟩, here⟩ := Option.ne_none_iff_exists'.1 found
  obtain ⟨closes, rfl⟩ := closing?_eq_some_iff.1 here
  exact h w closes x y rest cut

theorem turns_unwrap (h : ∀ w, IsOpening n w → Absent w t) : Turns (unwrap n) t t :=
  fun u => Pattern.replace_append (skips_pattern h) u

/-- A region gives way to its inner text if no marker in it closes it earlier. -/
theorem turns_region (opens : IsOpening n w) (h : ∀ v, IsClosing n v → Absent v t)
    (closes : IsClosing n v) : Turns (unwrap n) (w ++ (t ++ v)) t := by
  intro u
  simp only [List.append_assoc]
  have opened : opening? (w ++ (t ++ (v ++ u))) = some (⟨n, w⟩, t ++ (v ++ u)) :=
    opening?_eq_some_iff.2 ⟨opens, rfl⟩
  have closed : (closingPattern n).match? (v ++ u) = some (v, u) :=
    closing?_eq_some_iff.2 ⟨closes, rfl⟩
  have found : (closingPattern n).first? (t ++ (v ++ u)) = some ⟨t, v, u⟩ := by
    rw [Pattern.first?_append (skips_closingPattern h), Pattern.first?_of_match closed,
      Option.map_some, List.append_nil]
  have here : (pattern fun m => m == n).match? (w ++ (t ++ (v ++ u))) = some (⟨n, w, t, v⟩, u) := by
    show at? (fun m => m == n) _ = _
    rw [at?, opened]
    simp only [beq_self_eq_true, if_true, found, Option.map_some]
  exact Pattern.replace_of_match here

/-! ## Markers in markers -/

/-- In a marker another one begins nowhere, if it does not begin with it. -/
theorem IsWritten.absent {word word' : Text} (h : IsWritten word m v) (h' : IsWritten word' n w)
    (words : word = beginWord ∨ word = endWord) (words' : word' = beginWord ∨ word' = endWord)
    (spaceless : Spaceless m) (other : ∀ x y, v ++ x ≠ w ++ y) : Absent w v := by
  have bracketless : '[' ∉ word := by rcases words with rfl | rfl <;> decide
  have filled : word' ≠ [] := by rcases words' with rfl | rfl <;> decide
  have dashless : '-' ∉ word' := by rcases words' with rfl | rfl <;> decide
  intro x y rest cut
  by_contra short
  obtain ⟨u, rfl⟩ : x <+: v :=
    List.prefix_of_prefix_length_le ⟨_, cut.symm⟩ (List.prefix_append v rest) (by omega)
  have nonempty : u ≠ [] := by
    rintro rfl
    simp at short
  have begins : u ++ rest = w ++ y := by
    rwa [List.append_assoc, List.append_cancel_left_eq] at cut
  have whole : u = x ++ u := h.eq_of_suffix bracketless spaceless h' filled dashless
    (List.suffix_append x u) nonempty begins
  exact other rest y (by rw [← whole, begins])

theorem IsOpening.absent_closing (h : IsOpening n w) (h' : IsClosing m v) (spaceless : Spaceless m) :
    Absent w v :=
  IsWritten.absent h' h.2 (.inr rfl) (.inl rfl) spaceless fun _ _ e => h.not_closing h' e.symm

theorem IsOpening.absent_opening (h : IsOpening n w) (h' : IsOpening m v) (differ : n ≠ m) :
    Absent w v :=
  h'.2.absent h.2 (.inl rfl) (.inl rfl) h'.1 fun _ _ e => differ (h.name_eq h' e.symm)

/-- In one place stands at most one closing marker. -/
theorem IsClosing.name_eq {x y : Text} (h : IsClosing m v) (h' : IsClosing n w) (hm : Spaceless m)
    (hn : Spaceless n) (e : v ++ x = w ++ y) : m = n := by
  obtain ⟨a, b, c, -, -, hc, rfl⟩ := h
  obtain ⟨a', b', c', -, -, hc', rfl⟩ := h'
  have e : opener ++ (a :: (endWord ++ (b :: (m ++ c :: (closer ++ x)))))
      = opener ++ (a' :: (endWord ++ (b' :: (n ++ c' :: (closer ++ y))))) := by
    simpa only [List.append_assoc, List.cons_append] using e
  have e := (List.cons.inj (List.append_cancel_left e)).2
  have e := (List.cons.inj (List.append_cancel_left e)).2
  exact eq_of_append_stop hm hn hc hc' e

theorem IsClosing.absent_closing (h : IsClosing n w) (h' : IsClosing m v) (hn : Spaceless n)
    (hm : Spaceless m) (differ : n ≠ m) : Absent w v :=
  IsWritten.absent h' h (.inr rfl) (.inr rfl) hm fun _ _ e => differ (h.name_eq h' hn hm e.symm)

/-! ## Pieces -/

/-- No marker of the given names begins in a text, whatever comes behind it. -/
def Plain (ns : List Text) (t : Text) : Prop :=
  ∀ n ∈ ns, Spaceless n → ∀ w, IsOpening n w ∨ IsClosing n w → Absent w t

/-- A text put together from plain text, closing markers of the given names and some given texts. -/
inductive Pieced (ns texts : List Text) : Text → Prop
  | plain {t : Text} : Plain ns t → Pieced ns texts t
  | closing {n w : Text} : n ∈ ns → Spaceless n → IsClosing n w → Pieced ns texts w
  | given {t : Text} : t ∈ texts → Pieced ns texts t
  | append {s t : Text} : Pieced ns texts s → Pieced ns texts t → Pieced ns texts (s ++ t)

/-- A text in which no region of the given names is opened. -/
def Loose (ns : List Text) : Text → Prop :=
  Pieced ns []

/-- A text put together from pieces and from regions of one name around pieces. -/
inductive LaidOut (ns : List Text) (n : Text) (texts : List Text) : Text → Prop
  | pieced {t : Text} : Pieced ns texts t → LaidOut ns n texts t
  | region {w t v : Text} : IsOpening n w → Pieced ns texts t → IsClosing n v →
    LaidOut ns n texts (w ++ (t ++ v))
  | append {s t : Text} : LaidOut ns n texts s → LaidOut ns n texts t → LaidOut ns n texts (s ++ t)

/-- A text that begins with an opening marker of a name. -/
def Headed (n t : Text) : Prop :=
  ∃ w, IsOpening n w ∧ w <+: t

theorem Loose.append {s : Text} (hs : Loose ns s) (ht : Loose ns t) : Loose ns (s ++ t) :=
  Pieced.append hs ht

/-- A text without brackets is plain. -/
theorem plain_of_notMem (free : '[' ∉ t) : Plain ns t := by
  intro n _ _ w marker
  obtain ⟨word, a, b, c, -, -, -, rfl⟩ : ∃ word, IsWritten word n w :=
    marker.elim (fun opens => ⟨_, opens.2⟩) fun closes => ⟨_, closes⟩
  exact Text.absent_of_notMem free

/-- Where all markers have other names, no opening marker of a name begins. -/
theorem Marked.absent_opening (h : Marked ns t) (names : ∀ m ∈ ns, IsName m) (other : n ∉ ns)
    (opens : IsOpening n w) : Absent w t := by
  induction h with
  | plain free =>
    have plain : Plain [n] _ := plain_of_notMem free
    exact plain n List.mem_cons_self opens.1 w (.inl opens)
  | @opening m mem =>
    have differ : n ≠ m := fun e => other (e ▸ mem)
    exact opens.absent_opening (isOpening_beginMarker (names m mem).spaceless) differ
  | @closing m mem => exact opens.absent_closing (isClosing_endMarker m) (names m mem).spaceless
  | append _ _ ihs iht => exact ihs.append iht

theorem loose_nil : Loose ns [] :=
  .plain (plain_of_notMem List.not_mem_nil)

/-- Loose text may stand wherever given texts may. -/
theorem Loose.pieced (h : Loose ns t) (texts : List Text) : Pieced ns texts t := by
  induction h with
  | plain plain => exact .plain plain
  | closing mem spaceless closes => exact .closing mem spaceless closes
  | given mem => cases mem
  | append _ _ ihs iht => exact .append ihs iht

/-- A loose text opens no region. -/
theorem Loose.absent_opening (h : Loose ns t) (mem : n ∈ ns) (opens : IsOpening n w) :
    Absent w t := by
  induction h with
  | plain plain => exact plain n mem opens.1 w (.inl opens)
  | closing _ spaceless closes => exact opens.absent_closing closes spaceless
  | given mem => cases mem
  | append _ _ ihs iht => exact ihs.append iht

/-- A closing marker of a name begins in a loose text nowhere, or the first one is one of the pieces and
stands between loose texts. -/
theorem Loose.cases_closing (h : Loose ns t) (mem : n ∈ ns) (spaceless : Spaceless n) :
    (∀ v, IsClosing n v → Absent v t) ∨
      ∃ a v b, t = a ++ (v ++ b) ∧ Loose ns a ∧ Loose ns b ∧ IsClosing n v ∧
        ∀ w, IsClosing n w → Absent w a := by
  induction h with
  | plain plain => exact .inl fun v closes => plain n mem spaceless v (.inr closes)
  | @closing m w _ spaceless' closes =>
    by_cases same : m = n
    · subst same
      exact .inr ⟨[], w, [], by simp, loose_nil, loose_nil, closes, fun _ _ => Text.absent_nil⟩
    · exact .inl fun v closes' => closes'.absent_closing closes spaceless spaceless' (Ne.symm same)
  | given mem => cases mem
  | @append s t hs ht ihs iht =>
    rcases ihs with absent | ⟨a, v, b, rfl, ha, hb, closes, first⟩
    · rcases iht with absent' | ⟨a, v, b, rfl, ha, hb, closes, first⟩
      · exact .inl fun v closes => (absent v closes).append (absent' v closes)
      · exact .inr ⟨s ++ a, v, b, by rw [List.append_assoc], hs.append ha, hb, closes,
          fun w closes => (absent w closes).append (first w closes)⟩
    · exact .inr ⟨a, v, b ++ t, by simp only [List.append_assoc], ha, hb.append ht, closes, first⟩

/-- A region with canonical markers is laid out. -/
theorem laidOut_wrap (spaceless : Spaceless n) (h : Pieced ns texts t) :
    LaidOut ns n texts (wrap n t) := by
  rw [wrap, List.append_assoc]
  exact .region (isOpening_beginMarker spaceless) h (isClosing_endMarker n)

/-! ## Splicing -/

section Splicing

variable {c o : Text}

/-- Replacing one of the given texts by loose text walks through pieces and leaves pieces. -/
theorem Pieced.replaceAll (h : Pieced ns (c :: texts) t) (mem : n ∈ ns) (headed : Headed n c)
    (apart : ∀ d ∈ texts, Absent c d) (loose : Loose ns o) :
    ∃ t', Pieced ns texts t' ∧ Turns (Text.replaceAll c o) t t' := by
  obtain ⟨w, opens, front⟩ := headed
  have nonempty : c ≠ [] := fun e => opens.2.ne_nil (List.prefix_nil.1 (e ▸ front))
  -- a piece in which the text does not begin stays as it is
  have stays {t : Text} (piece : Pieced ns texts t) (absent : Absent c t) :
      ∃ t', Pieced ns texts t' ∧ Turns (Text.replaceAll c o) t t' :=
    ⟨t, piece, absent.turns o⟩
  induction h with
  | plain plain =>
    exact stays (.plain plain) ((plain n mem opens.1 w (.inl opens)).longer front)
  | closing mem' spaceless closes =>
    exact stays (.closing mem' spaceless closes)
      ((opens.absent_closing closes spaceless).longer front)
  | @given d mem' =>
    rcases List.mem_cons.1 mem' with rfl | mem'
    · exact ⟨o, loose.pieced texts, Text.replaceAll_append_self nonempty⟩
    · exact stays (.given mem') (apart d mem')
  | append _ _ ihs iht =>
    obtain ⟨s', hs, turns⟩ := ihs
    obtain ⟨t', ht, turns'⟩ := iht
    exact ⟨s' ++ t', hs.append ht, turns.append turns'⟩

theorem LaidOut.replaceAll {own : Text} (h : LaidOut ns own (c :: texts) t) (mem : n ∈ ns)
    (headed : Headed n c) (differ : n ≠ own) (apart : ∀ d ∈ texts, Absent c d) (loose : Loose ns o) :
    ∃ t', LaidOut ns own texts t' ∧ Turns (Text.replaceAll c o) t t' := by
  obtain ⟨x, opens, front⟩ := id headed
  induction h with
  | pieced pieces =>
    obtain ⟨t', pieces', turns⟩ := pieces.replaceAll mem headed apart loose
    exact ⟨t', .pieced pieces', turns⟩
  | @region w t v opens' pieces closes =>
    obtain ⟨t', pieces', turns⟩ := pieces.replaceAll mem headed apart loose
    have first : Absent c w := (opens.absent_opening opens' differ).longer front
    have last : Absent c v := (opens.absent_closing closes opens'.1).longer front
    exact ⟨w ++ (t' ++ v), .region opens' pieces' closes,
      (first.turns o).append (turns.append (last.turns o))⟩
  | append _ _ ihs iht =>
    obtain ⟨s', hs, turns⟩ := ihs
    obtain ⟨t', ht, turns'⟩ := iht
    exact ⟨s' ++ t', hs.append ht, turns.append turns'⟩

end Splicing

/-- Without the markers of the name, a row in which all given texts were replaced is loose. -/
theorem LaidOut.turns_unwrap (h : LaidOut ns n [] t) (mem : n ∈ ns) :
    ∃ t', Loose ns t' ∧ Turns (unwrap n) t t' := by
  have walk {t : Text} (loose : Loose ns t) : Turns (Region.unwrap n) t t :=
    Region.turns_unwrap fun _ opens => loose.absent_opening mem opens
  induction h with
  | pieced loose => exact ⟨_, loose, walk loose⟩
  | @region w t v opens loose closes =>
    rcases Loose.cases_closing loose mem opens.1 with open_ | ⟨a, v', b, rfl, ha, hb, closes', open_⟩
    · exact ⟨t, loose, turns_region opens open_ closes⟩
    · -- the region ends within, and the closing marker at the end is left
      have last : Loose ns v := .closing mem opens.1 closes
      have rest : Loose ns (b ++ v) := hb.append last
      refine ⟨a ++ (b ++ v), ha.append rest, ?_⟩
      have turns := (turns_region opens open_ closes').append (walk rest)
      simpa only [List.append_assoc] using turns
  | append _ _ ihs iht =>
    obtain ⟨s', hs, turns⟩ := ihs
    obtain ⟨t', ht, turns'⟩ := iht
    exact ⟨s' ++ t', hs.append ht, turns.append turns'⟩

theorem LaidOut.unwrap (h : LaidOut ns n [] t) (mem : n ∈ ns) : Loose ns (unwrap n t) := by
  obtain ⟨t', loose, turns⟩ := h.turns_unwrap mem
  have nothing : Region.unwrap n [] = [] := Pattern.replace_nil _
  rwa [turns.eq nothing]

/-- No region is found in a loose text. -/
theorem Loose.find?_eq_none (h : Loose ns t) (mem : n ∈ ns) : find? n t = none := by
  refine first?_eq_none_iff.2 fun m x accepted opened => ?_
  obtain ⟨w, y, opens, cut, -⟩ := opened
  obtain rfl : m = n := by simpa using accepted
  exact (h.absent_opening mem opens).not_within opens.2.ne_nil
    ⟨x, y, by rw [cut, List.append_assoc]⟩

end Region

end DocumentMerge
