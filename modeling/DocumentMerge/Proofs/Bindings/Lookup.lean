import DocumentMerge.Bindings
import DocumentMerge.Config

/-!
# Looking bindings up

Bindings are a list of pairs in the order of the tags, and no tag stands twice.  So a list and its
look-ups determine each other: what is found is in the list, and two lists in which everything is
found alike are equal.

* `Keyed.mem_of_find?`, `Keyed.Ascending.ext`: the two directions.
* `Bindings.ext_get?`: bindings are equal if every tag has the same replacement in both.
* `Bindings.get?_foldl_put`: putting the same replacements makes bindings agree on their tags and
  leaves them as they were on all others.
-/

namespace DocumentMerge

namespace Keyed

variable {α : Type}

/-- What is found under a key is in the list. -/
theorem mem_of_find? {α : Type} {key : Text} {v : α} {entries : List (Text × α)}
    (h : find? key entries = some v) : (key, v) ∈ entries := by
  induction entries with
  | nil => cases h
  | cons head entries ih =>
    obtain ⟨k, u⟩ := head
    rw [find?] at h
    split at h
    · next same =>
      cases h
      rw [same]
      exact List.mem_cons_self
    · exact List.mem_cons_of_mem _ (ih h)

theorem find?_eq_none_of_lt {key : Text} {entries : List (Text × α)}
    (h : ∀ e ∈ entries, key < e.1) : find? key entries = none := by
  induction entries with
  | nil => rfl
  | cons head rest ih =>
    obtain ⟨k, v⟩ := head
    have less : key < k := h (k, v) List.mem_cons_self
    have differ : key ≠ k := by
      rintro rfl
      exact List.lt_irrefl key less
    rw [find?, if_neg differ]
    exact ih fun e mem => h e (List.mem_cons_of_mem _ mem)

theorem lt_or_eq_or_gt (k l : Text) : k < l ∨ k = l ∨ l < k := by
  by_cases less : k < l
  · exact .inl less
  · rcases List.le_iff_lt_or_eq.1 (List.not_lt.1 less) with greater | e
    · exact .inr (.inr greater)
    · exact .inr (.inl e.symm)

/-- Nothing smaller than the first key is found. -/
theorem Ascending.not_lt_head {key l : Text} {w : α} {entries : List (Text × α)}
    (h : Ascending ((l, w) :: entries)) (found : find? key ((l, w) :: entries) ≠ none) :
    ¬ key < l := by
  intro less
  refine found (find?_eq_none_of_lt fun e mem => ?_)
  rcases List.mem_cons.1 mem with rfl | mem
  · exact less
  · exact List.lt_trans less ((List.pairwise_cons.1 h).1 e mem)

theorem find?_cons_self (key : Text) (v : α) (entries : List (Text × α)) :
    find? key ((key, v) :: entries) = some v := by
  rw [find?, if_pos rfl]

/-- A key stands once. -/
theorem Ascending.nodup_keys {entries : List (Text × α)} (h : Ascending entries) :
    (entries.map Prod.fst).Nodup := by
  refine List.pairwise_map.2 (h.imp fun {d e} less same => ?_)
  rw [same] at less
  exact List.lt_irrefl e.1 less

/-- Lists in the order of their keys are equal if every key holds the same in both. -/
theorem Ascending.ext {as bs : List (Text × α)} (ha : Ascending as) (hb : Ascending bs)
    (same : ∀ key, find? key as = find? key bs) : as = bs := by
  induction as generalizing bs with
  | nil =>
    cases bs with
    | nil => rfl
    | cons b bs =>
      have first := same b.1
      rw [find?_cons_self] at first
      cases first
  | cons a as ih =>
    obtain ⟨k, v⟩ := a
    cases bs with
    | nil =>
      have first := same k
      rw [find?_cons_self] at first
      cases first
    | cons b bs =>
      obtain ⟨l, w⟩ := b
      have foundk := same k
      have foundl := same l
      rw [find?_cons_self] at foundk foundl
      -- the smaller one of two different first keys would stand in one list only
      have first : k = l := by
        rcases lt_or_eq_or_gt k l with less | e | greater
        · exact absurd less (hb.not_lt_head (by simp [← foundk]))
        · exact e
        · exact absurd greater (ha.not_lt_head (by simp [foundl]))
      subst first
      rw [find?_cons_self] at foundk
      cases foundk
      obtain ⟨hka, ha'⟩ := List.pairwise_cons.1 ha
      obtain ⟨hkb, hb'⟩ := List.pairwise_cons.1 hb
      refine congrArg (List.cons (k, v)) (ih ha' hb' fun key => ?_)
      by_cases here : key = k
      · subst here
        rw [find?_eq_none_of_lt hka, find?_eq_none_of_lt hkb]
      · have later := same key
        simpa [find?, here] using later

end Keyed

/-- Bindings are equal if every tag has the same replacement in both. -/
theorem Bindings.ext_get? {a b : Bindings} (same : ∀ tag, a.get? tag = b.get? tag) : a = b := by
  obtain ⟨as, ha⟩ := a
  obtain ⟨bs, hb⟩ := b
  obtain rfl := ha.ext hb same
  rfl

/-- After the same replacements were put, tags that differ are among those that were not put. -/
theorem Bindings.get?_foldl_put {config : Config} {entries : List (Text × Text)} {a b : Bindings}
    (same : ∀ tag, (∀ e ∈ entries, tag ≠ config.tag e.1) → a.get? tag = b.get? tag) (tag : Text) :
    (entries.foldl (fun b e => b.put (config.tag e.1) e.2) a).get? tag =
      (entries.foldl (fun b e => b.put (config.tag e.1) e.2) b).get? tag := by
  induction entries generalizing a b with
  | nil => exact same tag fun e mem => absurd mem List.not_mem_nil
  | cons e entries ih =>
    rw [List.foldl_cons, List.foldl_cons]
    refine ih fun t other => ?_
    rw [get?_put, get?_put]
    by_cases here : t = config.tag e.1
    · rw [if_pos here, if_pos here]
    · rw [if_neg here, if_neg here]
      refine same t fun e' mem => ?_
      rcases List.mem_cons.1 mem with rfl | mem
      · exact here
      · exact other e' mem

end DocumentMerge
