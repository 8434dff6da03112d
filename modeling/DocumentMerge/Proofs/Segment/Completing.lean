import DocumentMerge.Proofs.Segment.Copying

/-!
# Pictures of completed merges

A merge of a segment goes through the drained segments below it, and merges them one after the
other.  It can fail at any of them, but those whose merge was completed before have their pictures
in the package, and they stay there.

* `Session.Has`: the package of the session has a member of the name.  What a package has it keeps
  when a merge goes on (`Session.Extends.has`).
* `has_of_embed`: pictures that were copied are in the package, also those that were passed over.
* `Completes`: a merge of one segment, whether it succeeds or not, completes that of another.
  `has_of_completes`: afterwards the pictures of that other segment are in the package.
-/

namespace DocumentMerge

open Zip (Held)
open Archive (contentOf Edits Keeps)

/-! ## Members that are put -/

/-- The names that lead to something are those of members. -/
theorem Archive.isSome_contentOf {members : List Held} {name : Text} :
    (contentOf members name).isSome = true ↔ name ∈ members.map Held.name := by
  rw [contentOf, Option.isSome_map, List.find?_isSome, List.mem_map]
  simp only [beq_iff_eq]

/-- Every picture that was put is there, and so is one that was passed over. -/
theorem WorkingCopy.entry_mem_of_putPictures {disk : Disk} {keep : Bool} {pictures : List Picture}
    {a b : Archive} (opened : a.location.isSome = true)
    (h : putPictures disk keep pictures a = (.ok (), b)) :
    ∀ p ∈ pictures, p.entry ∈ b.held.map Held.name := by
  induction pictures generalizing a with
  | nil => exact fun p mem => absurd mem List.not_mem_nil
  | cons p pictures ih =>
    have later (c : Archive) (put : putPictures disk keep pictures c = (.ok (), b)) :
        c.held.map Held.name ⊆ b.held.map Held.name := by
      have kept := (Edits.putPictures disk keep pictures).keeps c
      rw [put] at kept
      exact kept.names
    rw [List.forall_mem_cons]
    rcases Archive.putPictures_cons_cases disk keep p pictures a with
      ⟨cause, stops⟩ | ⟨-, present, passed⟩ | ⟨content, -, -, put⟩
    · rw [stops] at h
      cases h
    · rw [passed] at h
      refine ⟨later a h ?_, ih opened h⟩
      rw [Archive.contains_of_open opened, Except.ok.injEq] at present
      exact Archive.isSome_contentOf.1 present
    · rw [put] at h
      refine ⟨later _ h ?_, ih (a := a.having p.entry content.toBytes) opened h⟩
      rw [← Archive.isSome_contentOf, Archive.having, Archive.contentOf_putMember, if_pos rfl]
      rfl

namespace Session

/-- The package of the session has a member of the name. -/
def Has (σ : Session) (name : Text) : Prop :=
  ∃ members, σ.Holds members ∧ name ∈ members.map Held.name

variable {σ τ : Session} {name : Text} {members : List Held}

theorem Extends.has (h : σ.Extends τ) (has : σ.Has name) : τ.Has name := by
  obtain ⟨members, held, mem⟩ := has
  obtain ⟨after, held, names⟩ := h members held
  exact ⟨after, held, names mem⟩

/-- An edit that succeeds leaves in the package all that it put. -/
theorem has_of_withOpen {α : Type} {touched : List Text} {x : α}
    {edit : Archive → Except Error α × Archive} (held : σ.Holds members)
    (edits : Edits touched edit) (done : (σ.withOpen edit).1 = .ok x) :
    ∃ location b, edit ⟨some location, members, false⟩ = (.ok x, b) ∧
      ∀ name ∈ b.held.map Held.name, (σ.withOpen edit).2.Has name := by
  obtain ⟨location, cases⟩ := withOpen_cases held edits
  rcases edited : edit ⟨some location, members, false⟩ with ⟨r, b⟩
  have answered (answer : (σ.withOpen edit).1 = r) : r = .ok x := answer.symm.trans done
  rcases cases _ edited with ⟨clean, answer, held⟩ | ⟨-, -, answer, held⟩ | ⟨-, -, failed, -⟩
  · have same := edits.clean ⟨some location, members, false⟩
    rw [edited] at same
    obtain rfl : b = _ := same clean
    exact ⟨location, _, by rw [edited, answered answer], fun name mem => ⟨members, held, mem⟩⟩
  · refine ⟨location, b, by rw [edited, answered answer], fun name mem => ⟨_, held, ?_⟩⟩
    exact (Keeps.rewritten [] b.held).names mem
  · obtain ⟨cause, failed⟩ := failed
    rw [done] at failed
    cases failed

/-- Pictures that were copied are in the package. -/
theorem has_of_embed {pictures : List Picture} (held : σ.Holds members)
    (done : σ.embed pictures = (.ok (), τ)) : ∀ p ∈ pictures, τ.Has p.entry := by
  by_cases empty : pictures = []
  · subst empty
    exact fun p mem => absurd mem List.not_mem_nil
  · rw [embed_eq_withOpen held empty] at done
    obtain ⟨location, b, put, has⟩ :=
      has_of_withOpen held (Edits.putPictures _ true pictures) (congrArg Prod.fst done)
    rw [done] at has
    intro p mem
    exact has _ (WorkingCopy.entry_mem_of_putPictures rfl put p mem)

end Session

namespace Segment

/-! ## Merges that are completed -/

/-- A merge of a segment in a session, whether it succeeds or not, completes the merge of a segment:
its own, or one that is completed while a drained child is merged, after the children before the
child. -/
inductive Completes : Segment → Session → Segment → Prop
  | self {s : Segment} {σ : Session} : (merge s σ).1 = .ok () → Completes s σ s
  | child {own : Fragment} {before after ds : List Segment} {c n : Segment} {σ σ₁ σ₂ : Session}
    {row : Row} :
    σ.embed own.values.pictures = (.ok (), σ₁) →
    mergeChildren own.firstRow before σ₁ = (.ok (), row, ds, σ₂) →
    c.own.state = .drained → Completes c σ₂ n →
    Completes (.node own (before ++ c :: after)) σ n

/-- Children that were merged let the children behind them be merged. -/
theorem mergeChildren_append {row row' : Row} {before ds : List Segment} {σ τ : Session}
    (h : mergeChildren row before σ = (.ok (), row', ds, τ)) (rest : List Segment) :
    (mergeChildren row (before ++ rest) σ).2.2.2 = (mergeChildren row' rest τ).2.2.2 := by
  induction before generalizing row ds σ with
  | nil =>
    rw [mergeChildren_nil] at h
    cases h
    rfl
  | cons c before ih =>
    rcases done : settle c σ with ⟨_ | _, d, σ'⟩
    · rw [mergeChildren_cons_of_error done] at h
      cases h
    · rw [mergeChildren_cons_of_ok done] at h
      rcases later : mergeChildren (row.take d.own) before σ' with ⟨r, row₁, ds₁, τ₁⟩
      rw [later] at h
      cases h
      rw [List.cons_append, mergeChildren_cons_of_ok done]
      exact ih later

/-- What is in the package when the first of several children was merged stays there. -/
theorem extends_mergeChildren_cons (row : Row) {c : Segment} (drained : c.own.state = .drained)
    (rest : List Segment) (σ : Session) :
    (merge c σ).2.2.Extends (mergeChildren row (c :: rest) σ).2.2.2 := by
  rcases done : merge c σ with ⟨_ | _, d, τ⟩
  · rw [← settle_of_drained drained] at done
    rw [mergeChildren_cons_of_error done]
    exact .refl τ
  · rw [← settle_of_drained drained] at done
    rw [mergeChildren_cons_of_ok done]
    exact extends_mergeChildren _ rest τ

/-- **Completed merges.**  The pictures of a segment whose merge was completed are in the package
when the whole merge is over, also when it failed. -/
theorem has_of_completes {s n : Segment} {σ : Session} {members : List Held}
    (held : σ.Holds members) (h : Completes s σ n) :
    ∀ p ∈ n.own.values.pictures, (merge s σ).2.2.Has p.entry := by
  induction h generalizing members with
  | @self s σ ok =>
    obtain ⟨own, children⟩ := s
    rcases done : merge (.node own children) σ with ⟨r, t, τ⟩
    rw [done] at ok
    obtain rfl : r = .ok () := ok
    rcases merge_cases done with ⟨cause, -, e, -⟩ | ⟨σ', embedded, ⟨cause, row, ds, -, e, -⟩ | whole⟩
    · cases e
    · cases e
    · obtain ⟨row, ds, finished, -, -⟩ := whole
      have kept := extends_mergeChildren own.firstRow children σ'
      rw [finished] at kept
      exact fun p mem => kept.has (Session.has_of_embed held embedded p mem)
  | @child own before after ds c n σ σ₁ σ₂ row embedded earlier drained inner ih =>
    obtain ⟨middle, held₁, -⟩ : ∃ ms, σ₁.Holds ms ∧ _ := by
      have kept := Session.Extends.embed σ own.values.pictures members held
      rwa [embedded] at kept
    obtain ⟨reached, held₂, -⟩ : ∃ ms, σ₂.Holds ms ∧ _ := by
      have kept := extends_mergeChildren own.firstRow before σ₁ middle held₁
      rwa [earlier] at kept
    have kept := extends_mergeChildren_cons row drained after σ₂
    rw [← mergeChildren_append earlier (c :: after)] at kept
    have same : (merge (.node own (before ++ c :: after)) σ).2.2
        = (mergeChildren own.firstRow (before ++ c :: after) σ₁).2.2.2 := by
      rcases done : merge (.node own (before ++ c :: after)) σ with ⟨r, t, τ⟩
      rcases merge_cases done with ⟨cause, failed, -⟩ | ⟨σ', embedded', below⟩
      · rw [embedded] at failed
        cases failed
      · rw [embedded] at embedded'
        cases embedded'
        rcases below with ⟨cause, row, ds, stopped, -⟩ | ⟨row, ds, finished, -⟩
        · rw [stopped]
        · rw [finished]
    rw [same]
    exact fun p mem => kept.has (ih held₂ p mem)

end Segment

end DocumentMerge
