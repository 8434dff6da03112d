import DocumentMerge.Text.Basic

/-!
# Lists in the order of their keys

Bindings, the objects of a data file and its segments are answered in the order of their keys, by
code point, and a key holds one value: a later one takes the place of an earlier one.  They are
kept as lists of pairs in which the keys ascend, and `Keyed.insert` keeps that order.
-/

namespace DocumentMerge.Keyed

variable {α : Type}

/-- Puts a value under a key: in the place of the value there, or where the key belongs. -/
def insert (key : Text) (value : α) : List (Text × α) → List (Text × α)
  | [] => [(key, value)]
  | (k, v) :: rest =>
    if key = k then (key, value) :: rest
    else if key < k then (key, value) :: (k, v) :: rest
    else (k, v) :: insert key value rest

/-- The value under a key. -/
def find? (key : Text) : List (Text × α) → Option α
  | [] => none
  | (k, v) :: rest => if key = k then some v else find? key rest

/-- Puts pairs one after the other, so that of two values for one key the later stays. -/
def ofList (pairs : List (Text × α)) : List (Text × α) :=
  pairs.foldl (fun entries (key, value) => insert key value entries) []

/-- The keys ascend, so no key stands twice. -/
def Ascending (entries : List (Text × α)) : Prop :=
  entries.Pairwise fun a b => a.1 < b.1

@[simp] theorem ascending_nil : Ascending ([] : List (Text × α)) :=
  List.Pairwise.nil

/-- Insertion adds its own pair and no other. -/
theorem mem_of_mem_insert {key : Text} {value : α} {entries : List (Text × α)} {e : Text × α}
    (h : e ∈ insert key value entries) : e = (key, value) ∨ e ∈ entries := by
  induction entries with
  | nil => simpa [insert] using h
  | cons head rest ih =>
    rw [insert] at h
    split at h
    · rcases List.mem_cons.1 h with h | h
      · exact .inl h
      · exact .inr (List.mem_cons_of_mem _ h)
    · split at h
      · rcases List.mem_cons.1 h with h | h
        · exact .inl h
        · exact .inr h
      · rcases List.mem_cons.1 h with h | h
        · exact .inr (h ▸ List.mem_cons_self)
        · exact (ih h).imp_right (List.mem_cons_of_mem _)

/-- Insertion keeps the keys in order. -/
theorem Ascending.insert {entries : List (Text × α)} (h : Ascending entries) (key : Text)
    (value : α) : Ascending (insert key value entries) := by
  induction entries with
  | nil => exact List.pairwise_singleton _ _
  | cons head rest ih =>
    obtain ⟨hhead, hrest⟩ := List.pairwise_cons.1 h
    rw [Keyed.insert]
    split
    · next same => exact List.pairwise_cons.2 ⟨fun e he => same ▸ hhead e he, hrest⟩
    · next differ =>
      split
      · next less =>
        refine List.pairwise_cons.2 ⟨fun e he => ?_, h⟩
        rcases List.mem_cons.1 he with rfl | he
        · exact less
        · exact List.lt_trans less (hhead e he)
      · next notLess =>
        refine List.pairwise_cons.2 ⟨fun e he => ?_, ih hrest⟩
        rcases mem_of_mem_insert he with rfl | he
        · exact (List.le_iff_lt_or_eq.1 (List.not_lt.1 notLess)).resolve_right (Ne.symm differ)
        · exact hhead e he

/-- After an insertion the key holds the new value, and every other key what it held before. -/
theorem find?_insert (k key : Text) (value : α) (entries : List (Text × α)) :
    find? k (insert key value entries) = if k = key then some value else find? k entries := by
  induction entries with
  | nil => simp [insert, find?]
  | cons head rest ih =>
    obtain ⟨k', v'⟩ := head
    rw [insert]
    split
    · next same => subst same; by_cases hk : k = key <;> simp [find?, hk]
    · next differ =>
      split
      · by_cases hk : k = key <;> simp [find?, hk]
      · by_cases hk : k = k'
        · subst hk; simp [find?, Ne.symm differ]
        · simp [find?, hk, ih]

end DocumentMerge.Keyed
