import DocumentMerge.Proofs.Document.Closing
import DocumentMerge.Proofs.Document.Collecting
import DocumentMerge.Proofs.Package.Rewriting

/-!
# Calls that fail change nothing

Most calls on a document have several steps that may fail: the tag must be declared, the charset
known, the image readable, the region there.  All of them come before the first change, so a call
that fails leaves the document as it was.  Two kinds of calls are different: a merge may fail after
it put pictures into the package, and saving puts the values into the texts before anything is
written.

* `Segment.Atomic`: a call on a segment that changes nothing when it fails.  The bindings are such
  calls, on any node.
* `Usable`: the working copy can be read and written.
* `unchanged_of_error`: the calls that change nothing when they fail.
-/

namespace DocumentMerge

open Zip (Held)
open Archive (Edits)

/-! ## Calls on a segment -/

namespace Segment

/-- A call that changes nothing when it fails. -/
def Atomic {α : Type} (call : Call α) : Prop :=
  ∀ {s t : Segment} {σ τ : Session} {cause : Error}, call s σ = (.error cause, t, τ) →
    t = s ∧ τ = σ

namespace Atomic

variable {α : Type} {call : Call α}

theorem onChild (h : Atomic call) (name : Text) : Atomic (onChild name call) := by
  intro s t σ τ cause failed
  obtain ⟨own, cs⟩ := s
  rcases onChild_cases failed with ⟨before, c, after, d, rfl, -, -, called, rfl⟩ | ⟨-, -, rfl, rfl⟩
  · obtain ⟨rfl, rfl⟩ := h called
    exact ⟨rfl, rfl⟩
  · exact ⟨rfl, rfl⟩

theorem onPath (h : Atomic call) (path : List Text) : Atomic (onPath call path) := by
  induction path with
  | nil => exact h
  | cons name names ih => exact ih.onChild name

end Atomic

/-- A binding that fails changes nothing. -/
theorem atomic_call {a : Action} (binds : a ≠ .merge) : Atomic a.call := by
  intro s t σ τ cause failed
  obtain ⟨own, cs⟩ := s
  obtain ⟨rfl, cases⟩ := Action.call_cases binds failed
  rcases cases with ⟨key, v, values, -, -, -, ok, -⟩ | ⟨other, -, same, -⟩
  · cases ok
  · exact ⟨same, rfl⟩

theorem atomic_onPath {a : Action} (binds : a ≠ .merge) (path : List Text) :
    Atomic (onPath a.call path) :=
  Atomic.onPath (atomic_call binds) path

end Segment

namespace Document

variable {d : Document}

/-- A call on a segment that changes nothing when it fails may have declared the segment before. -/
theorem declareSegment_of_error {α : Type} {call : Segment.Call α} (atomic : Segment.Atomic call)
    {name : Text} {cause : Error} (failed : (d.onSegment name call).1 = .error cause) :
    (d.onSegment name call).2 = d ∨ d.declareSegment name = (.ok (), (d.onSegment name call).2) := by
  rcases d.onSegment_cases name call with ⟨other, -, undeclared⟩ | ⟨e, declared, cases⟩
  · rw [undeclared]
    exact .inl rfl
  · rcases done : Segment.onChild name call e.root e.session with ⟨cause' | x, t, τ⟩
    · obtain ⟨rfl, rfl⟩ := atomic.onChild name done
      rw [(cases _ _ _ done).1]
      exact .inr declared
    · rw [((cases _ _ _ done).2.2 x).2 rfl] at failed
      cases failed

/-- On a segment that was declared before it changes nothing. -/
theorem onSegment_of_error {α : Type} {call : Segment.Call α} (atomic : Segment.Atomic call)
    {name : Text} (declared : (d.segment? name).isSome = true) {cause : Error}
    (failed : (d.onSegment name call).1 = .error cause) : (d.onSegment name call).2 = d := by
  rcases declareSegment_of_error atomic failed with same | again
  · exact same
  · obtain ⟨s, found⟩ := Option.isSome_iff_exists.1 declared
    rw [declareSegment, found] at again
    exact (congrArg Prod.snd again).symm

/-! ## Properties -/

/-- The working copy can be read and written: it is a package, in which no name is too long, and a
new one can be prepared beside it. -/
def Usable (d : Document) : Prop :=
  ∃ w members, d.session.working = some w ∧
    Archive.load d.session.disk (.temporary w.file) = .ok members ∧
    members.all Held.fits = true ∧ d.session.disk.stage (.temporary w.file) = .ok ()

/-- A usable working copy is ready in a session whose handle is closed. -/
theorem Usable.exists_ready (h : d.Usable) (shut : d.session.Shut) :
    ∃ members, d.session.Ready members := by
  obtain ⟨w, members, working, loaded, fits, staged⟩ := h
  refine ⟨members, ⟨w, ?_⟩, fun v there => ?_, fits⟩
  swap
  · rw [working] at there
    cases there
    exact staged
  have closed : w.archive.isOpen = false := by
    rw [shut w working]
    rfl
  rw [Archive.load, Disk.fetch] at loaded
  cases file : d.session.disk.temporary? w.file with
  | none => rw [file] at loaded; cases loaded
  | some content =>
    rw [file] at loaded
    simp only at loaded
    cases read : content.read with
    | error fault => rw [read] at loaded; cases loaded
    | ok found =>
      rw [read] at loaded
      cases loaded
      exact ⟨content, working, closed, rfl, read⟩

/-- The working copy of a session that is ready is usable. -/
theorem usable_of_ready {members : List Held} (ready : d.session.Ready members) : d.Usable := by
  obtain ⟨w, content, working, -, file, read⟩ := ready.holds
  refine ⟨w, members, working, ?_, ready.fits, ready.staged w working⟩
  rw [Archive.load, Disk.fetch, file]
  simp only [read]

/-! ## Every call -/

/-- The calls that change nothing when they fail: all but those that merge a segment's row or save
the document, on segments that are declared. -/
def Action.Atomic (d : Document) : Action → Prop
  | .onSegment name _ call => (d.segment? name).isSome = true ∧ call ≠ .merge
  | .save _ => False
  | _ => True

/-- **Calls that fail change nothing.**  A document was opened and used, and its working copy can be
read and written.  If a call fails that binds something at the document or on a node of a declared
segment, declares a segment, puts its output into the content or sets a property, then nothing has
changed: neither the texts of the document, nor what is bound at it or at any node, nor the segments,
nor the working copy. -/
theorem unchanged_of_error (reached : d.Reached) (usable : d.Usable) {a : Action}
    (atomic : a.Atomic d) {cause : Error} (failed : (a.act d).1 = .error cause) :
    (a.act d).2 = d := by
  cases a with
  | bind key value encode => exact d.atomic_bind key value encode cause failed
  | bindBytes key value encode charset =>
    exact d.atomic_bindBytes key value encode charset cause failed
  | bindImage key path placement => exact d.atomic_bindImage key path placement cause failed
  | declareSegment name => exact d.atomic_declareSegment name cause failed
  | mergeSegment name => exact d.atomic_mergeSegment name cause failed
  | onSegment name path call =>
    exact onSegment_of_error (Segment.atomic_onPath atomic.2 path) atomic.1 failed
  | setProperty key value encode =>
    rw [Action.act] at failed ⊢
    rcases d.setProperty_cases key value encode with
      ⟨_, same⟩ | ⟨meta_, answer, session, put, done⟩
    · rw [same]
    · -- the new metadata is kept, but then it can be written, and the call does not fail
      obtain ⟨members, ready⟩ := usable.exists_ready reached.shut
      obtain ⟨after, -, -, written, -⟩ :=
        ready.holds.putText ⟨by decide, by decide⟩ (show Part.meta_.toBytes.size ≤ _ by decide) meta_
      have answered := written ready.staged ready.fits
      rw [put] at answered
      rw [done, show answer = .ok () from answered] at failed
      cases failed
  | save call => exact absurd atomic id

/-- An image that is not there cannot be bound on a segment, and a property that is not there cannot
be set.  Neither changes anything. -/
theorem unchanged_of_error_missing :
    ∃ d made, openAt (desk false) "t".toList Config.standard = (.ok d, made) ∧
      ∀ a ∈ [Action.onSegment "s".toList [] (.bindImage "p".toList "gone".toList Placement.inText),
        .setProperty "author".toList "x".toList true],
      let e := ((Action.declareSegment "s".toList).act d).2
      (∃ cause, (a.act e).1 = .error cause) ∧ (a.act e).2 = e := by
  let calls := [Action.onSegment "s".toList [] (.bindImage "p".toList "gone".toList Placement.inText),
    .setProperty "author".toList "x".toList true]
  have opens : (openAt (desk false) "t".toList Config.standard).1.toOption.isSome = true := by
    decide +kernel
  have outcome : ∀ d ∈ (openAt (desk false) "t".toList Config.standard).1.toOption,
      (((Action.declareSegment "s".toList).act d).2.segment? "s".toList).isSome = true ∧
      ∀ a ∈ calls, (a.act ((Action.declareSegment "s".toList).act d).2).1.toOption = none := by
    decide +kernel
  have fits : ∀ members ∈ (Archive.load (desk false) (.path "t".toList)).toOption,
      members.all Held.fits = true := by
    decide +kernel
  rcases opened : openAt (desk false) "t".toList Config.standard with ⟨cause | d, made⟩
  · rw [opened] at opens
    cases opens
  · refine ⟨d, made, rfl, fun a mem => ?_⟩
    intro e
    obtain ⟨declared, fails⟩ := outcome d (by rw [opened]; rfl)
    obtain ⟨members, loaded, held, -⟩ := exists_holds_of_openAt opened
    have session : e.session = d.session :=
      (d.atomic_declareSegment _).session fun _ done => (grows_declareSegment done).2
    have ready : e.session.Ready members := by
      rw [session]
      exact ⟨held, staged_of_openAt opened, fits members (by rw [loaded]; rfl)⟩
    have usable : e.Usable := usable_of_ready ready
    have atomic : a.Atomic e := by
      simp only [List.mem_cons, List.not_mem_nil, or_false] at mem
      rcases mem with rfl | rfl
      · exact ⟨declared, by simp⟩
      · exact trivial
    rcases done : (a.act e).1 with cause | u
    · exact ⟨⟨cause, rfl⟩, unchanged_of_error (.act _ (.opened opened)) usable atomic done⟩
    · have := fails a mem
      rw [done] at this
      cases this

end Document

end DocumentMerge
