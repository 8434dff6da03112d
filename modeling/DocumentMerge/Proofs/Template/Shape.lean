import DocumentMerge.Proofs.Template.Basic

/-!
# The shape of a template

A template in use changes its notes and nothing else.  Everything that the text of a template
depends on is therefore the same before and after any run, and it is enough to know it of the
template that somebody wrote.

* `render_bare` and its companions: text, names, keys and height do not depend on the notes.
* `bare_run`: no run changes the shape.
* `Template.Sound.child`: a child of a sound template is sound.
* `Items.Plain.marked`: the text of a template is put together from markers of its names and from
  text without brackets, so what is known about such texts applies to it.
-/

namespace DocumentMerge

variable {σ τ : Type}

namespace Items

/-! ## Independence of the notes -/

@[simp] theorem render_bare (items : Items σ) : items.bare.render = items.render := by
  induction items with
  | done => rfl
  | literal text rest ih => rw [bare, render, render, ih]
  | tag key rest ih => rw [bare, render, render, ih]
  | child name note inner rest ihi ihr => rw [bare, render, render, ihi, ihr]

@[simp] theorem names_bare (items : Items σ) : items.bare.names = items.names := by
  induction items with
  | done => rfl
  | literal text rest ih => rw [bare, names, names, ih]
  | tag key rest ih => rw [bare, names, names, ih]
  | child name note inner rest ihi ihr => rw [bare, names, names, ihi, ihr]

@[simp] theorem keys_bare (items : Items σ) : items.bare.keys = items.keys := by
  induction items with
  | done => rfl
  | literal text rest ih => rw [bare, keys, keys, ih]
  | tag key rest ih => rw [bare, keys, keys, ih]
  | child name note inner rest ihi ihr => rw [bare, keys, keys, ihr]

@[simp] theorem keysBelow_bare (items : Items σ) : items.bare.keysBelow = items.keysBelow := by
  induction items with
  | done => rfl
  | literal text rest ih => rw [bare, keysBelow, keysBelow, ih]
  | tag key rest ih => rw [bare, keysBelow, keysBelow, ih]
  | child name note inner rest ihi ihr => rw [bare, keysBelow, keysBelow, ihi, ihr, keys_bare]

@[simp] theorem plain_bare (items : Items σ) : items.bare.Plain ↔ items.Plain := by
  induction items with
  | done => rfl
  | literal text rest ih => rw [bare, Plain, Plain, ih]
  | tag key rest ih => rw [bare, Plain, Plain, ih]
  | child name note inner rest ihi ihr => rw [bare, Plain, Plain, ihi, ihr]

theorem child?_bare (name : Text) (items : Items σ) :
    items.bare.child? name = (items.child? name).map Template.bare := by
  induction items with
  | done => rfl
  | literal text rest ih => exact ih
  | tag key rest ih => exact ih
  | child n note inner rest _ ih =>
    rw [bare, child?, child?]
    split
    · rfl
    · exact ih

variable {a b : Items σ}

theorem render_eq_of_bare_eq (h : a.bare = b.bare) : a.render = b.render := by
  rw [← render_bare a, h, render_bare]

/-! ## What a run leaves -/

@[simp] theorem bare_fresh (items : Items Unit) : items.fresh.bare = items := by
  induction items with
  | done => rfl
  | literal text rest ih => rw [fresh, bare, ih]
  | tag key rest ih => rw [fresh, bare, ih]
  | child name note inner rest ihi ihr => rw [fresh, bare, ihi, ihr]

@[simp] theorem bare_spent (items : Items Cell) : items.spent.bare = items.bare := by
  induction items with
  | done => rfl
  | literal text rest ih => rw [spent, bare, bare, ih]
  | tag key rest ih => rw [spent, bare, bare, ih]
  | child name cell inner rest ihi ihr =>
    rw [spent, bare, bare, ihr]
    cases cell.pending with
    | some rows => rfl
    | none => rw [ihi]

theorem bare_atChild {change : Template Cell → Template Cell}
    (keeps : ∀ t, (change t).bare = t.bare) (name : Text) (items : Items Cell) :
    (items.atChild name change).bare = items.bare := by
  induction items with
  | done => rfl
  | literal text rest ih => rw [atChild, bare, bare, ih]
  | tag key rest ih => rw [atChild, bare, bare, ih]
  | child n cell inner rest _ ih =>
    rw [atChild]
    split
    · have kept := congrArg Template.items (keeps ⟨n, cell, inner⟩)
      simp only [Template.bare] at kept
      simp only [bare, kept]
    · rw [bare, bare, ih]

end Items

namespace Template

@[simp] theorem bare_fresh (t : Template Unit) : t.fresh.bare = t := by
  simp [fresh, bare]

@[simp] theorem bare_bind (key value : Text) (t : Template Cell) :
    (t.bind key value).bare = t.bare := rfl

@[simp] theorem bare_merge (t : Template Cell) : t.merge.bare = t.bare := by
  simp [merge, bare]

/-- An action other than a merge binds what it stores, if it stores anything. -/
theorem act_of_ne_merge {a : Segment.Action} (h : a ≠ .merge) (disk : Disk) (t : Template Cell) :
    t.act disk a =
      match a.stored? disk with
      | some (key, value) => t.bind key value
      | none => t := by
  cases a with
  | merge => exact absurd rfl h
  | bind key value encode => rfl
  | bindBytes key value encode charset => rfl
  | bindImage key path placement => rfl

@[simp] theorem bare_act (disk : Disk) (a : Segment.Action) (t : Template Cell) :
    (t.act disk a).bare = t.bare := by
  by_cases h : a = .merge
  · subst h
    exact bare_merge t
  · rw [act_of_ne_merge h]
    cases a.stored? disk with
    | none => rfl
    | some stored => exact bare_bind _ _ t

theorem bare_atPath {change : Template Cell → Template Cell}
    (keeps : ∀ t, (change t).bare = t.bare) (path : List Text) (t : Template Cell) :
    (t.atPath change path).bare = t.bare := by
  induction path generalizing t with
  | nil => exact keeps t
  | cons name names ih =>
    rw [atPath, bare, bare]
    simp only [Items.bare_atChild ih]

/-- No run changes the shape. -/
theorem bare_run (disk : Disk) (steps : List (List Text × Segment.Action)) (t : Template Cell) :
    (t.run disk steps).bare = t.bare := by
  rw [run]
  induction steps generalizing t with
  | nil => rfl
  | cons step steps ih =>
    rw [List.foldl_cons, ih]
    exact bare_atPath (bare_act disk step.2) step.1 t

theorem at?_bare (path : List Text) (t : Template σ) :
    t.bare.at? path = (t.at? path).map bare := by
  induction path generalizing t with
  | nil => rfl
  | cons name names ih =>
    show (t.items.bare.child? name).bind (at? names) = ((t.items.child? name).bind _).map bare
    rw [Items.child?_bare]
    cases t.items.child? name with
    | none => rfl
    | some c => exact ih c

/-- Whether a template is sound depends on its shape. -/
theorem sound_bare {t : Template σ} : t.bare.Sound ↔ t.Sound := by
  constructor
  · intro h
    exact ⟨h.name, (Items.plain_bare _).1 h.plain, by simpa [bare] using h.distinct⟩
  · intro h
    exact ⟨h.name, (Items.plain_bare _).2 h.plain, by simpa [bare] using h.distinct⟩

theorem Sound.of_bare_eq {t : Template σ} {u : Template τ} (h : t.Sound) (same : u.bare = t.bare) :
    u.Sound :=
  sound_bare.1 (same ▸ sound_bare.2 h)

/-- So does what an action may do. -/
theorem allows_bare {disk : Disk} {path : List Text} {a : Segment.Action} {t : Template σ} :
    t.bare.Allows disk path a ↔ t.Allows disk path a := by
  constructor
  · intro h key value stored node found
    have := h key value stored node.bare (by rw [at?_bare, found]; rfl)
    simpa [bare] using this
  · intro h key value stored node found
    rw [at?_bare, Option.map_eq_some_iff] at found
    obtain ⟨node, found, rfl⟩ := found
    have := h key value stored node found
    simpa [bare] using this

theorem Allows.of_bare_eq {disk : Disk} {path : List Text} {a : Segment.Action} {t : Template σ}
    {u : Template τ} (h : t.Allows disk path a) (same : u.bare = t.bare) : u.Allows disk path a :=
  allows_bare.1 (same ▸ allows_bare.2 h)

end Template

/-! ## Parts of a sound template -/

namespace Items

/-- A child of plain items with different names is a sound template. -/
theorem sound_of_child? {name : Text} {items : Items σ} {c : Template σ} (plain : items.Plain)
    (distinct : items.names.Nodup) (found : items.child? name = some c) : c.Sound := by
  induction items with
  | done => cases found
  | literal text rest ih => exact ih plain.2 distinct found
  | tag key rest ih => exact ih plain.2 distinct found
  | child n note inner rest _ ih =>
    rw [names] at distinct
    rw [child?] at found
    split at found
    · cases found
      refine ⟨plain.1, plain.2.1, distinct.sublist ?_⟩
      exact (List.sublist_append_left inner.names rest.names).cons_cons n
    · refine ih plain.2.2 (distinct.sublist ?_) found
      exact (List.sublist_append_right inner.names rest.names).cons n

end Items

theorem Template.Sound.child {t c : Template σ} {name : Text} (h : t.Sound)
    (found : t.items.child? name = some c) : c.Sound :=
  Items.sound_of_child? h.plain h.distinct.of_cons found

/-! ## The text of a template -/

open Region (IsName Marked)

/-- A plain name without marker space is given back by a marker. -/
theorem IsPlain.isName {n : Text} (h : IsPlain n)
    (spaceless : ∀ c ∈ n, Region.isMarkerSpace c = false) :
    IsName n :=
  ⟨spaceless, h.bracket⟩

theorem Template.Sound.isName {t : Template σ} (h : t.Sound) : IsName t.name :=
  h.name.1.isName h.name.2

/-- A tag of a key without brackets holds no bracket. -/
theorem bracket_notMem_tag {key : Text} (h : '[' ∉ key) : '[' ∉ Config.standard.tag key := by
  simpa [Config.tag, Config.standard] using h

namespace Items.Plain

theorem isName {items : Items σ} (h : items.Plain) : ∀ n ∈ items.names, IsName n := by
  induction items with
  | done => exact fun n mem => absurd mem List.not_mem_nil
  | literal text rest ih => exact ih h.2
  | tag key rest ih => exact ih h.2
  | child name note inner rest ihi ihr =>
    intro n mem
    rcases List.mem_cons.1 mem with rfl | mem
    · exact h.1.1.isName h.1.2
    · rcases List.mem_append.1 mem with mem | mem
      · exact ihi h.2.1 n mem
      · exact ihr h.2.2 n mem

/-- The text is put together from markers of the names and from text without brackets. -/
theorem marked {items : Items σ} (h : items.Plain) : Marked items.names items.render := by
  induction items with
  | done => exact .plain List.not_mem_nil
  | literal text rest ih => exact .append (.plain h.1.bracket) (ih h.2)
  | tag key rest ih => exact .append (.plain (bracket_notMem_tag h.1.bracket)) (ih h.2)
  | child name note inner rest ihi ihr =>
    refine .append (.inside List.mem_cons_self ((ihi h.2.1).mono ?_)) ((ihr h.2.2).mono ?_)
    · intro n mem
      exact List.mem_cons_of_mem _ (List.mem_append_left _ mem)
    · intro n mem
      exact List.mem_cons_of_mem _ (List.mem_append_right _ mem)

end Items.Plain

end DocumentMerge
