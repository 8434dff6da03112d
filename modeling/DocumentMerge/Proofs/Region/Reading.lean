import DocumentMerge.Proofs.Text.Scanning
import DocumentMerge.Region.Search
import Mathlib.Data.List.TakeWhile

/-!
# Markers as they may be written

The readers of markers try one place after the other.  What they accept can be said without them: an
opening bracket, a word, a name and a closing bracket, with one space character of any kind between
neighbours.

* `IsOpening n w`, `IsClosing n w`: the text `w` is an opening or a closing marker of the name `n`.
* `opening?_eq_some_iff`, `closing?_eq_some_iff`: the readers read such markers, and nothing else.
* `IsWritten.eq_of_suffix`: no marker begins inside another one.  A name may hold the beginning of a
  marker, but a space behind it is the last one of the marker that the name stands in.
-/

namespace DocumentMerge.Region

/-! ## The parts of a marker -/

/-- A text without the space characters of markers. -/
def Spaceless (n : Text) : Prop :=
  ∀ c ∈ n, isMarkerSpace c = false

/-- The parts of a marker with one space character between neighbours. -/
def IsWritten (word n w : Text) : Prop :=
  ∃ a b c, isMarkerSpace a = true ∧ isMarkerSpace b = true ∧ isMarkerSpace c = true ∧
    w = opener ++ a :: word ++ b :: n ++ c :: closer

/-- A text is an opening marker of a name.  The name ends at the first space. -/
def IsOpening (n w : Text) : Prop :=
  Spaceless n ∧ IsWritten beginWord n w

/-- A text is a closing marker of a name. -/
def IsClosing (n w : Text) : Prop :=
  IsWritten endWord n w

theorem spaceless_opener : Spaceless opener := by
  simp [Spaceless, opener, isMarkerSpace]

theorem space?_cons {c : Char} (h : isMarkerSpace c = true) (s : Text) :
    space? (c :: s) = some (c, s) := by
  rw [space?, if_pos h]

theorem dropPrefix?_append (t rest : Text) : Text.dropPrefix? t (t ++ rest) = some rest :=
  Text.dropPrefix?_eq_some_iff.2 rfl

/-- Two texts that end where the first character of some kind stands are the same if the whole
is. -/
theorem eq_of_append_stop {stop : Char → Bool} {m n x y : Text} {a b : Char}
    (hm : ∀ c ∈ m, stop c = false) (hn : ∀ c ∈ n, stop c = false)
    (ha : stop a = true) (hb : stop b = true)
    (h : m ++ a :: x = n ++ b :: y) : m = n := by
  induction m generalizing n with
  | nil =>
    cases n with
    | nil => rfl
    | cons d n =>
      obtain ⟨rfl, -⟩ := List.cons.inj h
      rw [hn a List.mem_cons_self] at ha
      cases ha
  | cons c m ih =>
    cases n with
    | nil =>
      obtain ⟨rfl, -⟩ := List.cons.inj h
      rw [hm c List.mem_cons_self] at hb
      cases hb
    | cons d n =>
      obtain ⟨rfl, behind⟩ := List.cons.inj h
      rw [ih (fun c mem => hm c (List.mem_cons_of_mem _ mem))
        (fun c mem => hn c (List.mem_cons_of_mem _ mem)) behind]

/-! ## The readers -/

/-- An opening marker is read where it stands, whatever stands behind it, and nothing else is. -/
theorem opening?_eq_some_iff {s rest : Text} {o : Opening} :
    opening? s = some (o, rest) ↔ IsOpening o.name o.written ∧ s = o.written ++ rest := by
  constructor
  · intro h
    refine ⟨?_, eq_append_of_opening? h⟩
    simp only [opening?, Option.bind_eq_bind, Option.bind_eq_some_iff] at h
    obtain ⟨_, -, ⟨a, _⟩, ha, _, -, ⟨b, _⟩, hb, ⟨c, _⟩, hc, _, -, e⟩ := h
    cases e
    refine ⟨fun d mem => ?_, a, b, c, (space?_eq_some ha).2, (space?_eq_some hb).2,
      (space?_eq_some hc).2, rfl⟩
    simpa using List.mem_takeWhile_imp mem
  · obtain ⟨n, w⟩ := o
    rintro ⟨⟨spaceless, a, b, c, ha, hb, hc, written⟩, rfl⟩
    simp only at spaceless written
    subst written
    have stop : ∀ d ∈ n, (!isMarkerSpace d) = true := fun d mem => by rw [spaceless d mem]; rfl
    have last : ¬ (!isMarkerSpace c) = true := by simp [hc]
    have taken : (n ++ c :: (closer ++ rest)).takeWhile (fun d => !isMarkerSpace d) = n := by
      rw [List.takeWhile_append_of_pos stop,
        List.takeWhile_cons_of_neg (p := fun d => !isMarkerSpace d) last, List.append_nil]
    have left : (n ++ c :: (closer ++ rest)).dropWhile (fun d => !isMarkerSpace d)
        = c :: (closer ++ rest) := by
      rw [List.dropWhile_append_of_pos stop,
        List.dropWhile_cons_of_neg (p := fun d => !isMarkerSpace d) last]
    have cut : opener ++ a :: beginWord ++ b :: n ++ c :: closer ++ rest
        = opener ++ a :: (beginWord ++ b :: (n ++ c :: (closer ++ rest))) := by
      simp only [List.append_assoc, List.cons_append]
    rw [opening?, cut]
    simp only [dropPrefix?_append, space?_cons ha, space?_cons hb, taken, left, space?_cons hc,
      Option.bind_eq_bind, Option.bind_some]

/-- A closing marker of a name is read where it stands, and nothing else is. -/
theorem closing?_eq_some_iff {n s w rest : Text} :
    closing? n s = some (w, rest) ↔ IsClosing n w ∧ s = w ++ rest := by
  constructor
  · intro h
    refine ⟨?_, eq_append_of_closing? h⟩
    simp only [closing?, Option.bind_eq_bind, Option.bind_eq_some_iff] at h
    obtain ⟨_, -, ⟨a, _⟩, ha, _, -, ⟨b, _⟩, hb, _, -, ⟨c, _⟩, hc, _, -, e⟩ := h
    cases e
    exact ⟨a, b, c, (space?_eq_some ha).2, (space?_eq_some hb).2, (space?_eq_some hc).2, rfl⟩
  · rintro ⟨⟨a, b, c, ha, hb, hc, rfl⟩, rfl⟩
    have cut : opener ++ a :: endWord ++ b :: n ++ c :: closer ++ rest
        = opener ++ a :: (endWord ++ b :: (n ++ c :: (closer ++ rest))) := by
      simp only [List.append_assoc, List.cons_append]
    rw [closing?, cut]
    simp only [dropPrefix?_append, space?_cons ha, space?_cons hb, space?_cons hc,
      Option.bind_eq_bind, Option.bind_some]

/-! ## Where markers stand -/

/-- The length of a marker is settled by its word and its name. -/
theorem IsWritten.length_eq {word n w : Text} (h : IsWritten word n w) :
    w.length = n.length + (word.length + 10) := by
  obtain ⟨a, b, c, -, -, -, rfl⟩ := h
  have brackets : opener.length = 4 ∧ closer.length = 3 := ⟨rfl, rfl⟩
  simp only [List.length_append, List.length_cons]
  omega

theorem IsWritten.ne_nil {word n w : Text} (h : IsWritten word n w) : w ≠ [] := by
  have := h.length_eq
  rintro rfl
  rw [List.length_nil] at this
  omega

theorem IsClosing.ne_nil {n w : Text} (h : IsClosing n w) : w ≠ [] :=
  IsWritten.ne_nil h

/-- In one place stands at most one opening marker. -/
theorem IsOpening.name_eq {m n v w x y : Text} (h : IsOpening m v) (h' : IsOpening n w)
    (e : v ++ x = w ++ y) : m = n := by
  have first : opening? (v ++ x) = some (⟨m, v⟩, x) := opening?_eq_some_iff.2 ⟨h, rfl⟩
  have second : opening? (w ++ y) = some (⟨n, w⟩, y) := opening?_eq_some_iff.2 ⟨h', rfl⟩
  rw [e, second] at first
  cases first
  rfl

/-- In one place stands no marker of both kinds. -/
theorem IsOpening.not_closing {m n v w x y : Text} (h : IsOpening m v) (h' : IsClosing n w) :
    v ++ x ≠ w ++ y := by
  obtain ⟨-, a, b, c, -, -, -, rfl⟩ := h
  obtain ⟨a', b', c', -, -, -, rfl⟩ := h'
  simp [opener, beginWord, endWord]

/-- No marker begins where the end of a name and the bracket behind it are. -/
theorem IsWritten.ne_end {word n f w x y : Text} {c : Char} (h : IsWritten word n w)
    (filled : word ≠ []) (dashless : '-' ∉ word) (spaceless : Spaceless f)
    (space : isMarkerSpace c = true) : f ++ c :: closer ++ x ≠ w ++ y := by
  obtain ⟨a, b, d, ha, hb, hd, rfl⟩ := h
  intro e
  have e : f ++ c :: (closer ++ x) = opener ++ a :: (word ++ b :: n ++ d :: closer ++ y) := by
    simpa using e
  obtain rfl := eq_of_append_stop spaceless spaceless_opener space ha e
  obtain ⟨-, e⟩ := List.cons.inj (List.append_cancel_left e)
  obtain ⟨z, zs, rfl⟩ := List.exists_cons_of_ne_nil filled
  obtain ⟨rfl, -⟩ := List.cons.inj e
  exact dashless List.mem_cons_self

/-- **No marker begins inside another one.**  A marker has a bracket at its beginning and in its name
only, and behind the name stands its closing bracket and no word. -/
theorem IsWritten.eq_of_suffix {word word' m n u v w x y : Text} (h : IsWritten word m v)
    (bracketless : '[' ∉ word) (spaceless : Spaceless m) (h' : IsWritten word' n w)
    (filled : word' ≠ []) (dashless : '-' ∉ word') (suffix : u <:+ v) (nonempty : u ≠ [])
    (e : u ++ x = w ++ y) : u = v := by
  obtain ⟨a, b, c, ha, hb, hc, rfl⟩ := h
  have plain {d : Char} (space : isMarkerSpace d = true) : '[' ≠ d := by
    rintro rfl
    cases space
  obtain ⟨t, rfl⟩ : ∃ t, u = '[' :: t := by
    obtain ⟨a', b', c', -, -, -, rfl⟩ := h'
    obtain ⟨d, t, rfl⟩ := List.exists_cons_of_ne_nil nonempty
    obtain ⟨rfl, -⟩ := List.cons.inj e
    exact ⟨t, rfl⟩
  -- what stands behind the first bracket and in front of the name
  have front : '[' ∉ "!--".toList ++ a :: word ++ [b] := by
    simp [plain ha, plain hb, bracketless]
  obtain ⟨r, cut⟩ := suffix
  have cut : r ++ '[' :: t = '[' :: ("!--".toList ++ a :: word ++ [b]) ++ (m ++ c :: closer) := by
    simpa [opener] using cut
  have ends {f : Text} (within : f ⊆ m) : '[' :: t ≠ f ++ c :: closer := fun cut =>
    h'.ne_end filled dashless (fun d mem => spaceless d (within mem)) hc (cut ▸ e)
  rcases List.append_eq_append_iff.1 cut with ⟨d, before, behind⟩ | ⟨d, before, behind⟩
  · cases d with
    | nil => exact absurd behind (ends (List.Subset.refl m))
    | cons z d =>
      obtain ⟨rfl, behind⟩ := List.cons.inj behind
      cases r with
      | nil =>
        obtain ⟨-, before⟩ := List.cons.inj before
        rw [behind, ← before]
        simp [opener]
      | cons z r =>
        obtain ⟨-, before⟩ := List.cons.inj before
        exact absurd (before ▸ by simp) front
  · rcases List.append_eq_append_iff.1 behind with ⟨f, -, rest⟩ | ⟨f, name, rest⟩
    · have mem : '[' ∈ c :: closer := rest ▸ by simp
      rw [List.mem_cons] at mem
      exact absurd (mem.resolve_left (plain hc)) (by decide)
    · exact absurd rest (ends (name ▸ List.subset_append_right d f))

end DocumentMerge.Region
