import DocumentMerge.Proofs.Bindings.Passing
import Mathlib.Data.List.Induction

/-!
# How a payload is cut at its tags

A substitution is defined by a scan.  What it gives can be said without one: the payload is cut at
tags so that every tag is the longest one where it stands and no tag begins in a gap between them.
There is one such cut for every payload, and the substitution keeps the gaps and puts replacements in
the place of the tags.  What was bound in which order does not matter, only what was bound last.

* `ofAssignments`, `lastStored?`: what calls one after the other leave bound, and the replacement that
  the last call for a tag stored.  They agree (`get?_ofAssignments`).
* `match?_eq_some_iff`, `match?_eq_none_iff`: what a scan finds at one place.
* `Cut stored payload hits tail`: the cut of a payload, for any partial map from tags to replacements.
* `cut_iff_split`: the scan gives the cut and nothing else does.
* `apply_cut`: the cut exists, is the only one, and determines the result.
-/

namespace DocumentMerge

/-- What stands under a key is found there, since no key stands twice. -/
theorem Keyed.Ascending.find?_eq_some_iff {α : Type} {key : Text} {v : α}
    {entries : List (Text × α)} (h : Ascending entries) :
    find? key entries = some v ↔ (key, v) ∈ entries := by
  refine ⟨mem_of_find?, fun mem => ?_⟩
  induction entries with
  | nil => cases mem
  | cons head entries ih =>
    obtain ⟨above, below⟩ := List.pairwise_cons.1 h
    rcases List.mem_cons.1 mem with rfl | mem
    · exact find?_cons_self key v entries
    · have differ : key ≠ head.1 := by
        rintro rfl
        exact List.lt_irrefl head.1 (above (head.1, v) mem)
      rw [find?, if_neg differ]
      exact ih below mem

namespace Bindings

/-! ## Calls that bind tags -/

/-- A call that binds a tag to a value. -/
structure Assignment where
  tag : Text
  value : Text
  encode : Bool
  deriving DecidableEq

/-- The replacement that a call stores. -/
def Assignment.stored (a : Assignment) : Text :=
  Markup.encodeValue a.encode a.value

/-- What is bound after some calls, one after the other. -/
def ofAssignments (as : List Assignment) : Bindings :=
  as.foldl (fun b a => b.bind a.tag a.value a.encode) empty

/-- The replacement that the last call for a tag stored. -/
def lastStored? (as : List Assignment) (t : Text) : Option Text :=
  (as.reverse.find? fun a => a.tag == t).map Assignment.stored

/-- The last call for a tag wins. -/
theorem get?_ofAssignments (as : List Assignment) : (ofAssignments as).get? = lastStored? as := by
  funext t
  induction as using List.reverseRecOn with
  | nil => rfl
  | append_singleton as a ih =>
    rw [ofAssignments, List.foldl_append] at *
    show ((ofAssignments as).put a.tag a.stored).get? t = _
    rw [get?_put, lastStored?, List.reverse_append, List.reverse_singleton, List.singleton_append,
      List.find?_cons]
    by_cases same : t = a.tag
    · simp [same]
    · have other : (a.tag == t) = false := by simpa using Ne.symm same
      rw [if_neg same, other]
      exact ih

/-- A tag has a replacement only if some call bound it. -/
theorem exists_of_lastStored? {as : List Assignment} {t : Text} (h : lastStored? as t ≠ none) :
    ∃ a ∈ as, a.tag = t := by
  cases found : as.reverse.find? fun a => a.tag == t with
  | none => rw [lastStored?, found] at h; exact absurd rfl h
  | some a =>
    exact ⟨a, List.mem_reverse.1 (List.mem_of_find?_eq_some found), by
      simpa using List.find?_some found⟩

/-! ## What is found at a place -/

variable {b : Bindings} {s t v rest tail : Text} {hits : List (Text × (Text × Text))}

theorem mem_entries_iff : (t, v) ∈ b.entries ↔ b.get? t = some v :=
  b.ascending.find?_eq_some_iff.symm

/-- A bound tag is found where it stands and no longer one does. -/
theorem match?_eq_some_iff : b.pattern.match? s = some ((t, v), rest) ↔
    t ≠ [] ∧ b.get? t = some v ∧ s = t ++ rest ∧
      ∀ u, b.get? u ≠ none → u <+: s → u.length ≤ t.length := by
  constructor
  · intro h
    obtain ⟨mem, nonempty, cut⟩ := longestAt_eq_some h
    refine ⟨nonempty, mem_entries_iff.1 mem, cut, fun u bound front => ?_⟩
    obtain ⟨w, found⟩ := Option.ne_none_iff_exists'.1 bound
    exact length_le_of_longestAt h (u, w) (mem_entries_iff.2 found) front
  · rintro ⟨nonempty, bound, rfl, longest⟩
    have mem := mem_entries_iff.2 bound
    cases found : b.pattern.match? (t ++ rest) with
    | none => exact absurd ⟨rest, rfl⟩ (longestAt_eq_none_iff.1 found (t, v) mem nonempty)
    | some hit =>
      obtain ⟨⟨u, w⟩, behind⟩ := hit
      obtain ⟨memu, -, cut⟩ := longestAt_eq_some found
      have boundu : b.get? u ≠ none := by simp [mem_entries_iff.1 memu]
      -- both are the longest, so they are equally long
      have le := longest u boundu ⟨behind, cut.symm⟩
      have ge := length_le_of_longestAt found (t, v) mem ⟨rest, rfl⟩
      obtain ⟨rfl, rfl⟩ := List.append_inj cut (Nat.le_antisymm ge le)
      rw [mem_entries_iff.1 memu, Option.some.injEq] at bound
      rw [bound]

/-- Nothing is found where no bound tag stands. -/
theorem match?_eq_none_iff :
    b.pattern.match? s = none ↔ ∀ u, b.get? u ≠ none → u ≠ [] → ¬ u <+: s := by
  refine longestAt_eq_none_iff.trans ⟨fun h u bound => ?_, fun h e mem => h e.1 ?_⟩
  · obtain ⟨w, found⟩ := Option.ne_none_iff_exists'.1 bound
    exact h (u, w) (mem_entries_iff.2 found)
  · simp [mem_entries_iff.1 (show (e.1, e.2) ∈ b.entries from mem)]

/-! ## The cut of a payload -/

/-- No tag begins in a gap, whether or not it ends there. -/
def Untagged (stored : Text → Option Text) (gap rest : Text) : Prop :=
  ∀ s, s <:+ gap → s ≠ [] → ∀ t, stored t ≠ none → ¬ t <+: s ++ rest

/-- A payload is cut at tags: no tag begins in the gap in front of one, each is the longest where it
stands and comes with its replacement, and no tag begins in the text behind the last one. -/
inductive Cut (stored : Text → Option Text) :
    Text → List (Text × (Text × Text)) → Text → Prop
  | tail {s : Text} : Untagged stored s [] → Cut stored s [] s
  | tag {gap t v s tail : Text} {hits : List (Text × (Text × Text))} :
    Untagged stored gap (t ++ s) → stored t = some v →
    (∀ u, stored u ≠ none → u <+: t ++ s → u.length ≤ t.length) →
    Cut stored s hits tail → Cut stored (gap ++ (t ++ s)) ((gap, (t, v)) :: hits) tail

/-- The gaps, the tags and the text behind them are the payload. -/
theorem Cut.eq_append {stored : Text → Option Text} (h : Cut stored s hits tail) :
    s = hits.flatMap (fun hit => hit.1 ++ hit.2.1) ++ tail := by
  induction h with
  | tail => rfl
  | tag _ _ _ _ ih =>
    rw [List.flatMap_cons, List.append_assoc, ← ih]
    simp only [List.append_assoc]

/-- Where no tag begins, none is found. -/
theorem untagged_iff (noEmpty : b.get? [] = none) {gap rest : Text} :
    Untagged b.get? gap rest ↔
      ∀ s, s <:+ gap → s ≠ [] → b.pattern.match? (s ++ rest) = none := by
  have filled {u : Text} (bound : b.get? u ≠ none) : u ≠ [] := fun e => bound (e ▸ noEmpty)
  refine ⟨fun h s suffix nonempty => match?_eq_none_iff.2 fun u bound _ => h s suffix nonempty u bound,
    fun h s suffix nonempty u bound => ?_⟩
  exact match?_eq_none_iff.1 (h s suffix nonempty) u bound (filled bound)

/-- **The scan gives the cut**, and nothing else is one. -/
theorem cut_iff_split (noEmpty : b.get? [] = none) :
    Cut b.get? s hits tail ↔ b.pattern.split s = (hits, tail) := by
  constructor
  · intro h
    induction h with
    | @tail s free =>
      refine Pattern.split_of_none (Pattern.first?_eq_none_iff.2 fun u suffix => ?_)
      by_cases nonempty : u = []
      · rw [nonempty, Pattern.match?_nil]
      · have passed := (untagged_iff noEmpty).1 free u suffix nonempty
        rwa [List.append_nil] at passed
    | @tag gap t v s tail hits free bound longest _ ih =>
      have nonempty : t ≠ [] := by
        rintro rfl
        rw [noEmpty] at bound
        cases bound
      have here : b.pattern.match? (t ++ s) = some ((t, v), s) :=
        match?_eq_some_iff.2 ⟨nonempty, bound, rfl, longest⟩
      have first : b.pattern.first? (gap ++ (t ++ s)) = some ⟨gap, (t, v), s⟩ :=
        Pattern.first?_eq_some_iff.2 ⟨_, rfl, here, (untagged_iff noEmpty).1 free⟩
      rw [Pattern.split_of_some first, ih]
  · intro h
    induction s using b.pattern.search_induct generalizing hits with
    | stop s found =>
      rw [Pattern.split_of_none found] at h
      cases h
      refine .tail ((untagged_iff noEmpty).2 fun u suffix _ => ?_)
      rw [List.append_nil]
      exact Pattern.first?_eq_none_iff.1 found u suffix
    | step s m found ih =>
      rw [Pattern.split_of_some found] at h
      cases h
      obtain ⟨here, cut, matched, passed⟩ := Pattern.first?_eq_some_iff.1 found
      obtain ⟨-, bound, front, longest⟩ :=
        match?_eq_some_iff.1 (show _ = some ((m.value.1, m.value.2), m.after) from matched)
      rw [cut]
      subst front
      exact .tag ((untagged_iff noEmpty).2 passed) bound longest (ih rfl)

/-- **Substitution takes the leftmost and longest tags, once.**  After any calls that bind tags, a
payload has exactly one cut; the substitution keeps its gaps and puts the replacements that were
stored last in the place of its tags.  So calls that leave the same replacements bound give the same
result. -/
theorem apply_cut {as : List Assignment} (nonempty : ∀ a ∈ as, a.tag ≠ []) :
    (∀ payload, ∃! cut : List (Text × (Text × Text)) × Text,
      Cut (lastStored? as) payload cut.1 cut.2) ∧
    (∀ payload hits tail, Cut (lastStored? as) payload hits tail →
      payload = hits.flatMap (fun hit => hit.1 ++ hit.2.1) ++ tail ∧
      (ofAssignments as).apply payload = hits.flatMap (fun hit => hit.1 ++ hit.2.2) ++ tail) ∧
    ∀ as', (∀ t, lastStored? as' t = lastStored? as t) → ∀ payload,
      (ofAssignments as').apply payload = (ofAssignments as).apply payload := by
  have noEmpty : (ofAssignments as).get? [] = none := by
    rw [get?_ofAssignments]
    by_contra bound
    obtain ⟨a, mem, e⟩ := exists_of_lastStored? bound
    exact nonempty a mem e
  rw [← get?_ofAssignments]
  refine ⟨fun payload => ?_, fun payload hits tail cut => ⟨cut.eq_append, ?_⟩,
    fun as' same payload => ?_⟩
  · refine ⟨(ofAssignments as).pattern.split payload, (cut_iff_split noEmpty).2 rfl, ?_⟩
    intro other cut
    exact ((cut_iff_split noEmpty).1 cut).symm
  · rw [apply, noEmpty]
    simp only
    rw [Pattern.replace, (cut_iff_split noEmpty).1 cut]
  · have equal : ofAssignments as' = ofAssignments as := ext_get? fun t => by
      rw [get?_ofAssignments as', same]
    rw [equal]

/-- Of two tags in one place the longer one is taken, a replacement that is a tag stays, and the
later value of a tag counts. -/
theorem apply_cut_longer_tag :
    let a := "\x7ba\x7d".toList
    let aa := "\x7ba\x7d\x7d".toList
    let as : List Assignment := [⟨a, "1".toList, false⟩, ⟨aa, a, false⟩, ⟨a, "<".toList, true⟩]
    let payload := "x".toList ++ aa ++ a ++ "y".toList
    (∀ b ∈ as, b.tag ≠ []) ∧
      Cut (lastStored? as) payload [("x".toList, (aa, a)), ([], (a, "&lt;".toList))] "y".toList ∧
      (ofAssignments as).apply payload = "x".toList ++ a ++ "&lt;y".toList := by
  intro a aa as payload
  have nonempty : ∀ b ∈ as, b.tag ≠ [] := by decide
  have cut : Cut (lastStored? as) payload [("x".toList, (aa, a)), ([], (a, "&lt;".toList))]
      "y".toList := by
    rw [← get?_ofAssignments]
    exact (cut_iff_split (by decide)).2 (by decide +kernel)
  obtain ⟨-, written⟩ := (apply_cut nonempty).2.1 payload _ _ cut
  exact ⟨nonempty, cut, written⟩

end Bindings

end DocumentMerge
