import DocumentMerge.Proofs.Bindings.Cutting
import DocumentMerge.Proofs.Region.Reading
import Mathlib.Data.Set.Defs

/-!
# Tags between delimiters

A scan takes tags that do not overlap, so where bound tags overlap some of them are passed over.  Tags
are written between delimiters, and with delimiters that are told apart from each other and from the
keys this cannot happen: wherever a tag begins, its left delimiter begins, and no character of it
stands behind the left delimiter of the tag before.

* `Config.Separates`: delimiters that are told apart from each other and from the keys of a set.
* `Config.Separates.eq_or_apart`: two occurrences of tags in a text are the same one, or one ends
  before the other begins.  A delimiter may be repetitive, so that it overlaps with itself; the character
  that decides is the one behind the first left delimiter.
* `Hits`: the hits of a cut are all occurrences of bound tags in a payload.
* `apply_delimited`: with such delimiters a substitution replaces every occurrence of a bound tag.
-/

namespace DocumentMerge

/-! ## Delimiters -/

/-- Delimiters that are not empty and are told apart from each other and from the keys: no character
of the left one is in the right one or in a key, and no character of the right one is in a key. -/
structure Config.Separates (c : Config) (keys : Set Text) : Prop where
  left_ne_nil : c.left ≠ []
  right_ne_nil : c.right ≠ []
  left_right : ∀ z ∈ c.left, z ∉ c.right
  left_key : ∀ key ∈ keys, ∀ z ∈ c.left, z ∉ key
  right_key : ∀ key ∈ keys, ∀ z ∈ c.right, z ∉ key

namespace Config.Separates

variable {c : Config} {keys : Set Text} {k l : Text} {a b d x y : Text}

theorem tag_ne_nil (h : c.Separates keys) (k : Text) : c.tag k ≠ [] := by
  rw [tag]
  simp [h.left_ne_nil]

/-- Behind its left delimiter a tag has no character of it. -/
theorem notMem_append (h : c.Separates keys) (hk : k ∈ keys) {z : Char} (hz : z ∈ c.left) :
    z ∉ k ++ c.right := by
  rw [List.mem_append, not_or]
  exact ⟨h.left_key k hk z hz, h.left_right z hz⟩

/-- In one place stands at most one tag. -/
theorem key_eq (h : c.Separates keys) (hk : k ∈ keys) (hl : l ∈ keys)
    (e : c.tag k ++ x = c.tag l ++ y) : k = l := by
  obtain ⟨r, rs, right⟩ := List.exists_cons_of_ne_nil h.right_ne_nil
  have first : r ∈ c.right := right ▸ List.mem_cons_self
  have free {key : Text} (mem : key ∈ keys) : ∀ z ∈ key, (z == r) = false := by
    intro z memz
    have differ : z ≠ r := fun same => h.right_key key mem r first (same ▸ memz)
    simpa using differ
  have behind : k ++ r :: (rs ++ x) = l ++ r :: (rs ++ y) := by
    simpa [tag, right] using e
  exact Region.eq_of_append_stop (free hk) (free hl) (by simp) (by simp) behind

/-- A tag that begins in another one is this one, or begins where the other has ended. -/
theorem eq_or_prefix (h : c.Separates keys) (hk : k ∈ keys) (hl : l ∈ keys)
    (e : c.tag k ++ x = d ++ (c.tag l ++ y)) : (d = [] ∧ k = l) ∨ c.tag k <+: d := by
  by_cases here : d = []
  · subst here
    exact .inl ⟨rfl, h.key_eq hk hl e⟩
  right
  by_contra long
  have whole : d <+: c.tag k ++ x := ⟨c.tag l ++ y, e.symm⟩
  obtain ⟨m, cut⟩ : d <+: c.tag k :=
    (List.prefix_or_prefix_of_prefix ⟨x, rfl⟩ whole).resolve_left long
  have nonempty : m ≠ [] := by
    rintro rfl
    exact long ⟨[], by rw [← cut, List.append_nil, List.append_nil]⟩
  -- the left delimiter of the second tag begins with `m`, an end of the first tag
  have second : m ++ x = c.left ++ (l ++ c.right ++ y) := by
    rw [← cut, List.append_assoc, List.append_cancel_left_eq] at e
    rw [e, tag]
    simp only [List.append_assoc]
  have parts : d ++ m = c.left ++ (k ++ c.right) := by
    rw [cut, tag, List.append_assoc]
  rcases List.append_eq_append_iff.1 parts with ⟨o, left, rest⟩ | ⟨o, -, rest⟩
  · -- it begins in the first left delimiter, and covers the first character behind that one
    obtain ⟨z, zs, behind⟩ : ∃ z zs, k ++ c.right = z :: zs :=
      List.exists_cons_of_ne_nil (by simp [h.right_ne_nil])
    have covered : o ++ [z] <+: c.left := by
      refine List.prefix_of_prefix_length_le ⟨zs ++ x, ?_⟩ ⟨l ++ c.right ++ y, second.symm⟩ ?_
      · rw [rest, behind]
        simp
      · have := List.length_pos_iff.2 here
        rw [left, List.length_append, List.length_append, List.length_singleton]
        omega
    have mem : z ∈ c.left := covered.subset (by simp)
    exact h.notMem_append hk mem (behind ▸ List.mem_cons_self)
  · -- it begins behind the first left delimiter
    obtain ⟨z, zs, rfl⟩ := List.exists_cons_of_ne_nil nonempty
    obtain ⟨p, ps, left⟩ := List.exists_cons_of_ne_nil h.left_ne_nil
    rw [left] at second
    obtain ⟨rfl, -⟩ := List.cons.inj second
    exact h.notMem_append hk (left ▸ List.mem_cons_self) (rest ▸ by simp)

/-- **Tags do not overlap**: two occurrences are the same one, or one ends before the other begins. -/
theorem eq_or_apart (h : c.Separates keys) (hk : k ∈ keys) (hl : l ∈ keys)
    (e : a ++ (c.tag k ++ x) = b ++ (c.tag l ++ y)) :
    (a = b ∧ k = l) ∨ a ++ c.tag k <+: b ∨ b ++ c.tag l <+: a := by
  rcases List.append_eq_append_iff.1 e with ⟨d, rfl, here⟩ | ⟨d, rfl, here⟩
  · rcases h.eq_or_prefix hk hl here with ⟨rfl, same⟩ | before
    · exact .inl ⟨by simp, same⟩
    · exact .inr (.inl ((List.prefix_append_right_inj a).2 before))
  · rcases h.eq_or_prefix hl hk here with ⟨rfl, same⟩ | before
    · exact .inl ⟨by simp, same.symm⟩
    · exact .inr (.inr ((List.prefix_append_right_inj b).2 before))

end Config.Separates

namespace Bindings

variable {stored : Text → Option Text} {s t v tail x y : Text}
  {hits : List (Text × (Text × Text))}

/-! ## Cuts with all tags -/

/-- If tags never overlap, every one that occurs in a payload is a hit of the cut. -/
theorem Cut.exists_hit (h : Cut stored s hits tail) (noEmpty : stored [] = none)
    (apart : ∀ {t u d x y}, stored t ≠ none → stored u ≠ none → t ++ x = d ++ (u ++ y) →
      (d = [] ∧ t = u) ∨ t <+: d)
    (bound : stored t ≠ none) (occurs : s = x ++ (t ++ y)) :
    ∃ front gap v back, hits = front ++ (gap, (t, v)) :: back ∧
      x = front.flatMap (fun hit => hit.1 ++ hit.2.1) ++ gap ∧
      y = back.flatMap (fun hit => hit.1 ++ hit.2.1) ++ tail := by
  have filled : t ≠ [] := fun e => bound (e ▸ noEmpty)
  induction h generalizing x with
  | @tail s free =>
    have begins := free (t ++ y) ⟨x, occurs.symm⟩ (by simp [filled]) t bound
    rw [List.append_nil] at begins
    exact absurd ⟨y, rfl⟩ begins
  | @tag gap u v s tail hits free known _ cut ih =>
    rcases List.append_eq_append_iff.1 occurs with ⟨d, rfl, here⟩ | ⟨d, rfl, here⟩
    · rcases apart (by simp [known]) bound here with ⟨rfl, rfl⟩ | ⟨z, rfl⟩
      · refine ⟨[], gap, v, hits, rfl, by simp, ?_⟩
        rw [← cut.eq_append]
        exact ((List.append_right_inj _).1 here).symm
      · rw [List.append_assoc, List.append_right_inj] at here
        obtain ⟨front, gap', v', back, rfl, behind, rest⟩ := ih here
        refine ⟨(gap, (u, v)) :: front, gap', v', back, rfl, ?_, rest⟩
        rw [behind, List.flatMap_cons]
        simp only [List.append_assoc]
    · by_cases there : d = []
      · -- the tag stands where the hit is
        subst there
        have same := apart (x := s) (d := []) (by simp [known]) bound here.symm
        obtain rfl : u = t := by
          rcases same with ⟨-, e⟩ | none
          · exact e
          · have empty := List.prefix_nil.1 none
            rw [empty, noEmpty] at known
            cases known
        refine ⟨[], x, v, hits, by simp, by simp, ?_⟩
        rw [← cut.eq_append]
        exact (List.append_right_inj _).1 here
      · exact absurd ⟨y, here⟩ (free d ⟨x, rfl⟩ there t bound)

/-- The hits of a cut, each with its value, are all occurrences of bound tags in the payload. -/
structure Hits (b : Bindings) (payload : Text) (hits : List (Text × (Text × Text)))
    (tail : Text) : Prop where
  text : payload = hits.flatMap (fun hit => hit.1 ++ hit.2.1) ++ tail
  value : ∀ hit ∈ hits, b.get? hit.2.1 = some hit.2.2
  every : ∀ t ∈ b.tags, ∀ x y, payload = x ++ (t ++ y) →
    ∃ front gap v back, hits = front ++ (gap, (t, v)) :: back ∧
      x = front.flatMap (fun hit => hit.1 ++ hit.2.1) ++ gap ∧
      y = back.flatMap (fun hit => hit.1 ++ hit.2.1) ++ tail

theorem Cut.value_of_mem (h : Cut stored s hits tail) :
    ∀ hit ∈ hits, stored hit.2.1 = some hit.2.2 := by
  induction h with
  | tail => exact fun hit mem => absurd mem List.not_mem_nil
  | tag _ known _ _ ih =>
    intro hit mem
    rcases List.mem_cons.1 mem with rfl | mem
    · exact known
    · exact ih hit mem

/-- A tag is bound exactly if it has a replacement. -/
theorem mem_tags_iff {b : Bindings} : t ∈ b.tags ↔ b.get? t ≠ none := by
  rw [tags, List.mem_map, Option.ne_none_iff_exists']
  constructor
  · rintro ⟨e, mem, rfl⟩
    exact ⟨e.2, mem_entries_iff.1 mem⟩
  · rintro ⟨v, bound⟩
    exact ⟨(t, v), mem_entries_iff.2 bound, rfl⟩

/-- **No occurrence of a bound tag is passed over** if the delimiters are told apart from each other
and from the keys: occurrences of bound tags are disjoint, and substitution writes the value of the
tag in the place of every one of them and changes nothing else. -/
theorem apply_delimited {c : Config} {keys : Set Text} {b : Bindings} (separates : c.Separates keys)
    (keyed : ∀ t ∈ b.tags, ∃ key ∈ keys, t = c.tag key) (payload : Text) :
    (∀ t ∈ b.tags, ∀ u ∈ b.tags, ∀ x y x' y', payload = x ++ (t ++ y) → payload = x' ++ (u ++ y') →
      (x = x' ∧ t = u) ∨ x.length + t.length ≤ x'.length ∨ x'.length + u.length ≤ x.length) ∧
    ∃ hits tail, Hits b payload hits tail ∧
      b.apply payload = hits.flatMap (fun hit => hit.1 ++ hit.2.2) ++ tail := by
  have noEmpty : b.get? [] = none := by
    by_contra bound
    obtain ⟨key, -, e⟩ := keyed [] (mem_tags_iff.2 bound)
    exact separates.tag_ne_nil key e.symm
  constructor
  · intro t memt u memu x y x' y' first second
    obtain ⟨k, hk, rfl⟩ := keyed t memt
    obtain ⟨l, hl, rfl⟩ := keyed u memu
    rcases separates.eq_or_apart hk hl (first.symm.trans second) with ⟨rfl, rfl⟩ | before | behind
    · exact .inl ⟨rfl, rfl⟩
    · have := before.length_le
      rw [List.length_append] at this
      exact .inr (.inl this)
    · have := behind.length_le
      rw [List.length_append] at this
      exact .inr (.inr this)
  · have cut : Cut b.get? payload (b.pattern.split payload).1 (b.pattern.split payload).2 :=
      (cut_iff_split noEmpty).2 rfl
    refine ⟨_, _, ⟨cut.eq_append, cut.value_of_mem, fun t mem x y occurs => ?_⟩, ?_⟩
    · refine cut.exists_hit noEmpty (fun {t u d x y} boundt boundu e => ?_) (mem_tags_iff.1 mem) occurs
      obtain ⟨k, hk, rfl⟩ := keyed t (mem_tags_iff.2 boundt)
      obtain ⟨l, hl, rfl⟩ := keyed u (mem_tags_iff.2 boundu)
      exact (separates.eq_or_prefix hk hl e).imp_left fun ⟨here, same⟩ => ⟨here, same ▸ rfl⟩
    · rw [apply, noEmpty]
      rfl

/-- Delimiters of two equal characters, the empty key, and a key that begins another one: in
`<<<a>><<ab>>><<>>` all three tags are replaced. -/
theorem apply_delimited_doubled :
    let c : Config := ⟨"<<".toList, ">>".toList, none⟩
    let keys := ["".toList, "a".toList, "ab".toList]
    let b := ofAssignments [⟨c.tag "".toList, "0".toList, true⟩, ⟨c.tag "a".toList, "1".toList, true⟩,
      ⟨c.tag "ab".toList, "2".toList, true⟩]
    let payload := "<<<a>><<ab>>><<>>".toList
    c.Separates {key | key ∈ keys} ∧ (∀ t ∈ b.tags, ∃ key ∈ keys, t = c.tag key) ∧
      (∃ hits tail, Hits b payload hits tail ∧
        b.apply payload = hits.flatMap (fun hit => hit.1 ++ hit.2.2) ++ tail) ∧
      b.apply payload = "<12>0".toList := by
  intro c keys b payload
  have apart : ∀ z ∈ c.left, z ∉ c.right := by simp [c]
  have left : ∀ key ∈ keys, ∀ z ∈ c.left, z ∉ key := by simp [c, keys]
  have right : ∀ key ∈ keys, ∀ z ∈ c.right, z ∉ key := by simp [c, keys]
  have separates : c.Separates {key | key ∈ keys} :=
    ⟨by decide, by decide, apart, left, right⟩
  have keyed : ∀ t ∈ b.tags, ∃ key ∈ keys, t = c.tag key := by decide
  exact ⟨separates, keyed, (apply_delimited separates keyed payload).2, by decide +kernel⟩

end Bindings

end DocumentMerge
