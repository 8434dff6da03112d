import DocumentMerge.Proofs.Bindings.Lookup
import DocumentMerge.Proofs.Template.Shape

/-!
# Substitution in the text of a template

A merge first puts the values of a node into its whole text, the texts of its children included.
The tags of a template stand between braces and nothing else holds a brace, so the substitution
finds exactly the tags that are written there.  If no bound key occurs below the node, the texts of
the children stay as they are.

* `Bindings.Braced`: only keys without braces are bound.  Then `longestAt_tag` decides what is found
  at a tag: this tag, if it is bound, and nothing else.
* `Items.filled`: the text of a node with its own tags filled.
* `Binds items bound b`: the bindings `b` are the values `bound`, as far as the items can see.
* `Binds.apply_wrap`: substitution gives the filled text.
-/

namespace DocumentMerge

/-! ## Tags between braces -/

/-- A text without braces. -/
def IsBraceless (key : Text) : Prop :=
  '\x7b' ∉ key ∧ '\x7d' ∉ key

theorem IsPlain.isBraceless {t : Text} (h : IsPlain t) : IsBraceless t :=
  ⟨h.left, h.right⟩

theorem tag_eq_cons (key : Text) : Config.standard.tag key = '\x7b' :: (key ++ ['\x7d']) := rfl

/-- A tag ends at its brace, so no tag begins another one. -/
theorem key_eq_of_tag_append {k l x y : Text} (hk : IsBraceless k) (hl : IsBraceless l)
    (h : Config.standard.tag k ++ x = Config.standard.tag l ++ y) : k = l := by
  have h : k ++ '\x7d' :: x = l ++ '\x7d' :: y := by
    simpa [tag_eq_cons] using h
  have apart {key : Text} (free : IsBraceless key) : ∀ c ∈ key, (c == '\x7d') = false := by
    intro c mem
    have : c ≠ '\x7d' := fun e => free.2 (e ▸ mem)
    simpa using this
  exact Region.eq_of_append_stop (apart hk) (apart hl) rfl rfl h

theorem tag_injective {k l : Text} (hk : IsBraceless k) (hl : IsBraceless l)
    (h : Config.standard.tag k = Config.standard.tag l) : k = l :=
  key_eq_of_tag_append hk hl (congrArg (· ++ []) h)

namespace Bindings

/-- Only keys without braces are bound. -/
def Braced (b : Bindings) : Prop :=
  ∀ e ∈ b.entries, ∃ key, e.1 = Config.standard.tag key ∧ IsBraceless key

/-- What is found at a tag is this tag, if it is bound. -/
theorem longestAt_tag {entries : List (Text × Text)} {key : Text} (free : IsBraceless key)
    (braced : ∀ e ∈ entries, ∃ k, e.1 = Config.standard.tag k ∧ IsBraceless k) (rest : Text) :
    longestAt entries (Config.standard.tag key ++ rest)
      = (Keyed.find? (Config.standard.tag key) entries).map fun v =>
          ((Config.standard.tag key, v), rest) := by
  induction entries with
  | nil => rfl
  | cons head entries ih =>
    obtain ⟨t, v⟩ := head
    obtain ⟨k, rfl, hk⟩ := braced (t, v) List.mem_cons_self
    have later := ih fun e mem => braced e (List.mem_cons_of_mem _ mem)
    have filled : (Config.standard.tag k).isEmpty = false := rfl
    rw [longestAt, filled, if_neg Bool.false_ne_true, Keyed.find?, later]
    by_cases same : key = k
    · subst same
      rw [Region.dropPrefix?_append, if_pos rfl]
      cases Keyed.find? (Config.standard.tag key) entries with
      | none => rfl
      | some u =>
        simp only [Option.map_some, Nat.lt_irrefl, if_false]
    · have differ : Config.standard.tag key ≠ Config.standard.tag k :=
        fun e => same (tag_injective free hk e)
      have refused : Text.dropPrefix? (Config.standard.tag k) (Config.standard.tag key ++ rest)
          = none := by
        cases found :
            Text.dropPrefix? (Config.standard.tag k) (Config.standard.tag key ++ rest) with
        | none => rfl
        | some behind =>
          have cut := Text.dropPrefix?_eq_some_iff.1 found
          exact absurd (key_eq_of_tag_append free hk cut) same
      rw [refused, if_neg differ]

variable {b : Bindings}

theorem Braced.match?_tag (h : b.Braced) {key : Text} (free : IsBraceless key) (rest : Text) :
    b.pattern.match? (Config.standard.tag key ++ rest)
      = (b.get? (Config.standard.tag key)).map fun v => ((Config.standard.tag key, v), rest) :=
  longestAt_tag free h rest

theorem Braced.beginsWith (h : b.Braced) : b.pattern.BeginsWith '\x7b' := by
  intro s rest e found
  obtain ⟨mem, -, cut⟩ := longestAt_eq_some found
  obtain ⟨key, tagged, -⟩ := h e mem
  refine ⟨key ++ ['\x7d'] ++ rest, ?_⟩
  rw [cut, tagged]
  rfl

/-- A scan for bound tags walks through a text without braces. -/
theorem Braced.skips_of_notMem (h : b.Braced) {t : Text} (free : '\x7b' ∉ t) :
    b.pattern.Skips t :=
  Pattern.BeginsWith.skips_of_notMem h.beginsWith free

/-- A scan for bound tags walks through a tag that is not bound. -/
theorem Braced.skips_tag (h : b.Braced) {key : Text} (free : IsBraceless key)
    (unbound : b.get? (Config.standard.tag key) = none) :
    b.pattern.Skips (Config.standard.tag key) := by
  refine Pattern.BeginsWith.skips_cons h.beginsWith (fun rest => ?_) ?_
  · have := h.match?_tag free rest
    rw [unbound] at this
    exact this
  · have apart := free.1
    show '\x7b' ∉ key ++ ['\x7d']
    simp [apart]

/-- The empty tag is not among those that are bound. -/
theorem Braced.get?_nil (h : b.Braced) : b.get? [] = none := by
  cases found : b.get? [] with
  | none => rfl
  | some v =>
    obtain ⟨key, tagged, -⟩ := h _ (Keyed.mem_of_find? found)
    cases tagged

/-- So substitution is one scan for tags. -/
theorem Braced.apply_eq (h : b.Braced) (payload : Text) :
    b.apply payload = b.pattern.replace Prod.snd payload := by
  rw [apply, h.get?_nil]

end Bindings

/-! ## The filled text -/

open Region (wrap)

namespace Items

variable {σ : Type}

/-- The text with the node's own tags filled. -/
def filled (bound : Text → Option Text) : Items σ → Text
  | done => []
  | literal text rest => text ++ rest.filled bound
  | tag key rest => (bound key).getD (Config.standard.tag key) ++ rest.filled bound
  | child name _ inner rest => wrap name inner.render ++ rest.filled bound

end Items

theorem brace_notMem_beginMarker {n : Text} (h : IsPlain n) : '\x7b' ∉ Region.beginMarker n := by
  have := h.left
  simp [Region.beginMarker, Region.opener, Region.beginWord, Region.closer, this]

theorem brace_notMem_endMarker {n : Text} (h : IsPlain n) : '\x7b' ∉ Region.endMarker n := by
  have := h.left
  simp [Region.endMarker, Region.opener, Region.endWord, Region.closer, this]

namespace Bindings

variable {σ : Type} {b : Bindings}

/-- A text between markers is passed over if what is inside is. -/
theorem Braced.skips_wrap (h : b.Braced) {n inner : Text} (name : IsPlain n)
    (inside : b.pattern.Skips inner) : b.pattern.Skips (wrap n inner) :=
  Pattern.Skips.append
    (Pattern.Skips.append (h.skips_of_notMem (brace_notMem_beginMarker name)) inside)
    (h.skips_of_notMem (brace_notMem_endMarker name))

/-- Items none of whose keys is bound are passed over. -/
theorem Braced.skips_render (h : b.Braced) {items : Items σ} (plain : items.Plain)
    (here : ∀ key ∈ items.keys, b.get? (Config.standard.tag key) = none)
    (below : ∀ key ∈ items.keysBelow, b.get? (Config.standard.tag key) = none) :
    b.pattern.Skips items.render := by
  induction items with
  | done => exact Pattern.skips_nil
  | literal text rest ih =>
    exact (h.skips_of_notMem plain.1.left).append (ih plain.2 here below)
  | tag key rest ih =>
    refine (h.skips_tag plain.1.isBraceless (here key List.mem_cons_self)).append
      (ih plain.2 ?_ below)
    exact fun k mem => here k (List.mem_cons_of_mem _ mem)
  | child name note inner rest ihi ihr =>
    refine Pattern.Skips.append (h.skips_wrap plain.1.1 (ihi plain.2.1 ?_ ?_))
      (ihr plain.2.2 here ?_)
    · exact fun k mem => below k (List.mem_append_left _ (List.mem_append_left _ mem))
    · exact fun k mem => below k (List.mem_append_left _ (List.mem_append_right _ mem))
    · exact fun k mem => below k (List.mem_append_right _ mem)

/-- The tags of a node are filled, and the texts of its children stay as they are. -/
theorem Braced.replace_render (h : b.Braced) {items : Items σ} {bound : Text → Option Text}
    (plain : items.Plain)
    (here : ∀ key ∈ items.keys, b.get? (Config.standard.tag key) = bound key)
    (below : ∀ key ∈ items.keysBelow, b.get? (Config.standard.tag key) = none) (rest : Text) :
    b.pattern.replace Prod.snd (items.render ++ rest)
      = items.filled bound ++ b.pattern.replace Prod.snd rest := by
  induction items with
  | done => rfl
  | literal text items ih =>
    rw [Items.render, Items.filled, List.append_assoc, List.append_assoc,
      Pattern.replace_append (h.skips_of_notMem plain.1.left),
      ih plain.2 here below]
  | tag key items ih =>
    have found := here key List.mem_cons_self
    have later := ih plain.2 (fun k mem => here k (List.mem_cons_of_mem _ mem)) below
    rw [Items.render, Items.filled, List.append_assoc, List.append_assoc, ← later, ← found]
    cases value : b.get? (Config.standard.tag key) with
    | none =>
      rw [Pattern.replace_append (h.skips_tag plain.1.isBraceless value)]
      rfl
    | some v =>
      have matched := h.match?_tag plain.1.isBraceless (items.render ++ rest)
      rw [value] at matched
      rw [Pattern.replace_of_match matched]
      rfl
  | child name note inner items _ ih =>
    have inside : b.pattern.Skips inner.render :=
      h.skips_render plain.2.1
        (fun k mem => below k (List.mem_append_left _ (List.mem_append_left _ mem)))
        (fun k mem => below k (List.mem_append_left _ (List.mem_append_right _ mem)))
    rw [Items.render, Items.filled, List.append_assoc, List.append_assoc,
      Pattern.replace_append (h.skips_wrap plain.1.1 inside),
      ih plain.2.2 here fun k mem => below k (List.mem_append_right _ mem)]

end Bindings

/-! ## Bindings as values -/

/-- The bindings hold the values, as far as the items can see: the tags of the node have them, no
key below the node is bound, and no value holds a bracket. -/
structure Binds {σ : Type} (items : Items σ) (bound : Text → Option Text) (b : Bindings) :
    Prop where
  value : ∀ key ∈ items.keys, b.get? (Config.standard.tag key) = bound key
  entry : ∀ e ∈ b.entries, ∃ key, e.1 = Config.standard.tag key ∧ IsBraceless key ∧
    key ∉ items.keysBelow ∧ '[' ∉ e.2

namespace Binds

variable {σ : Type} {items : Items σ} {bound : Text → Option Text} {b : Bindings}

theorem braced (h : Binds items bound b) : b.Braced := by
  intro e mem
  obtain ⟨key, tagged, free, -⟩ := h.entry e mem
  exact ⟨key, tagged, free⟩

/-- No key below is bound. -/
theorem below (h : Binds items bound b) (plain : ∀ key ∈ items.keysBelow, IsBraceless key) :
    ∀ key ∈ items.keysBelow, b.get? (Config.standard.tag key) = none := by
  intro key mem
  cases found : b.get? (Config.standard.tag key) with
  | none => rfl
  | some v =>
    obtain ⟨k, tagged, free, apart, -⟩ := h.entry _ (Keyed.mem_of_find? found)
    exact absurd (tag_injective (plain key mem) free tagged ▸ mem) apart

/-- No value of the node holds a bracket. -/
theorem bracketless (h : Binds items bound b) {key v : Text} (mem : key ∈ items.keys)
    (found : bound key = some v) : '[' ∉ v := by
  rw [← h.value key mem] at found
  obtain ⟨-, -, -, -, free⟩ := h.entry _ (Keyed.mem_of_find? found)
  exact free

end Binds

namespace Items.Plain

variable {σ : Type}

theorem keys {items : Items σ} (h : items.Plain) : ∀ key ∈ items.keys, IsPlain key := by
  induction items with
  | done => exact fun key mem => absurd mem List.not_mem_nil
  | literal text rest ih => exact ih h.2
  | tag k rest ih =>
    intro key mem
    rcases List.mem_cons.1 mem with rfl | mem
    · exact h.1
    · exact ih h.2 key mem
  | child name note inner rest _ ih => exact ih h.2.2

theorem keysBelow {items : Items σ} (h : items.Plain) : ∀ key ∈ items.keysBelow, IsPlain key := by
  induction items with
  | done => exact fun key mem => absurd mem List.not_mem_nil
  | literal text rest ih => exact ih h.2
  | tag k rest ih => exact ih h.2
  | child name note inner rest ihi ihr =>
    intro key mem
    rcases List.mem_append.1 mem with mem | mem
    · rcases List.mem_append.1 mem with mem | mem
      · exact h.2.1.keys key mem
      · exact ihi h.2.1 key mem
    · exact ihr h.2.2 key mem

end Items.Plain

/-- Substitution gives the filled text. -/
theorem Binds.apply_wrap {σ : Type} {items : Items σ} {bound : Text → Option Text} {b : Bindings}
    (h : Binds items bound b) (plain : items.Plain) {n : Text} (name : IsPlain n) :
    b.apply (wrap n items.render) = wrap n (items.filled bound) := by
  have braced := h.braced
  have below := h.below fun key mem => (plain.keysBelow key mem).isBraceless
  have opened := braced.skips_of_notMem (brace_notMem_beginMarker name)
  have closed := braced.skips_of_notMem (brace_notMem_endMarker name)
  rw [braced.apply_eq, wrap, wrap, List.append_assoc, Pattern.replace_append opened,
    braced.replace_render plain h.value below, Pattern.replace_of_skips closed, List.append_assoc]

end DocumentMerge
