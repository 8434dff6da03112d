import DocumentMerge.Proofs.Archive.Handle
import DocumentMerge.Proofs.Document.Retaining
import DocumentMerge.Proofs.MergeData.Rows

/-!
# The handle on the working copy

A working copy is edited through one handle.  Every edit opens the handle and closes it again, also
when the edit fails or the package cannot be written.  So the handle is closed whenever a call on a
document or a segment begins, and no such call ever finds it open.

* `closed_withOpen`: an edit leaves the handle closed, whatever calls it makes on it.
* `Spares`: an answer that is no failure of a kind; here, that a handle was open already.
* `Session.Shut`: the handle is closed.  `Segment.Orderly` and `Document.Orderly`: a call leaves it
  closed, and does not find it open.  `orderly_call` and `orderly_mergeRows` are about segments,
  `orderly_act` and `orderly_fill` about documents.
* `Reached` are the documents that were opened and used, and `Reached.shut` the invariant.
* `handle_states` puts this together with the states of a handle.
-/

namespace DocumentMerge

open Zip (Held)
open Archive (closed Puts Edits Tidy)

/-! ## Answers -/

/-- An answer that is no failure of a kind. -/
def Spares {ε α : Type} (kind : ε → Bool) (r : Except ε α) : Prop :=
  ∀ cause, r = .error cause → kind cause = false

namespace Spares

variable {ε δ α β : Type} {kind : ε → Bool}

theorem ok (a : α) : Spares kind (.ok a : Except ε α) :=
  fun _ failed => by cases failed

theorem error {cause : ε} (other : kind cause = false) :
    Spares kind (.error cause : Except ε α) := by
  intro cause' failed
  cases failed
  exact other

theorem map {r : Except ε α} (h : Spares kind r) (f : α → β) : Spares kind (r.map f) := by
  rcases r with cause | a
  · exact error (h cause rfl)
  · exact ok (f a)

theorem bind {r : Except ε α} (h : Spares kind r) {f : α → Except ε β}
    (later : ∀ a, Spares kind (f a)) : Spares kind (r.bind f) := by
  rcases r with cause | a
  · exact error (h cause rfl)
  · exact later a

theorem mapError {r : Except δ α} {f : δ → ε} (h : Spares (kind ∘ f) r) :
    Spares kind (r.mapError f) := by
  rcases r with cause | a
  · exact error (h cause rfl)
  · exact ok a

end Spares

/-- A failure because a handle was open already. -/
def ArchiveError.saysOpen : ArchiveError → Bool
  | .alreadyOpen _ => true
  | _ => false

/-- A failure because the handle on the working copy was open already. -/
def Error.saysOpen : Error → Bool
  | .archiveOpen _ cause | .archive cause | .notExported (.archive cause) => cause.saysOpen
  | .notExported .alreadyOpen => true
  | _ => false

/-! ## Calls on a handle -/

namespace Archive

variable (a : Archive)

theorem spares_members : Spares ArchiveError.saysOpen a.members := by
  rw [members]
  split
  · exact .ok _
  · exact .error rfl

theorem spares_contains (name : Text) : Spares ArchiveError.saysOpen (a.contains name) :=
  a.spares_members.map _

theorem spares_put (name : Text) (data : ByteArray) :
    Spares ArchiveError.saysOpen (a.put name data).1 := by
  rw [put]
  split
  · exact .error rfl
  · exact .ok _

theorem spares_putFile (disk : Disk) (source name : Text) :
    Spares ArchiveError.saysOpen (a.putFile disk source name).1 := by
  rw [putFile]
  split
  · exact .error rfl
  · exact a.spares_put _ _

theorem spares_text (name : Text) : Spares ArchiveError.saysOpen (a.text name) := by
  have bytes : Spares ArchiveError.saysOpen (a.bytes name) := by
    rw [Archive.bytes]
    split
    · next cause failed => exact .error (a.spares_members cause failed)
    · split
      · exact .ok _
      · exact .error rfl
  rw [text]
  split
  · next cause failed => exact .error (bytes cause failed)
  · split
    · exact .ok _
    · exact .error rfl

theorem spares_load (disk : Disk) (location : Location) :
    Spares ArchiveError.saysOpen (load disk location) := by
  rw [load]
  split
  · exact .error rfl
  · split
    · next fault _ => exact .error (by cases fault <;> rfl)
    · exact .ok _

theorem spares_openAt (disk : Disk) (location : Location) :
    Spares ArchiveError.saysOpen (closed.openAt disk location).1 := by
  rw [openAt, closed]
  simp only
  split
  · next cause failed => exact .error (spares_load disk location cause failed)
  · exact .ok _

theorem spares_close (disk : Disk) : Spares ArchiveError.saysOpen (a.close disk).1 := by
  have stored (location : Location) :
      Spares ArchiveError.saysOpen (store disk location a.entries) := by
    rw [store]
    split
    · exact .error rfl
    · split
      · exact .mapError fun _ _ => rfl
      · exact .error rfl
  rw [close]
  split
  · exact .error rfl
  · split
    · split
      · next cause failed => exact .error (stored _ cause failed)
      · exact .ok _
    · exact .ok _

end Archive

/-! ## Edits of the working copy -/

namespace WorkingCopy

variable {α : Type}

/-- An edit that does nothing with the handle but make calls on it, while others may change the disk.
Which calls these are may depend on what is found. -/
def MakesCalls (edit : Archive → Except Error α × Archive) : Prop :=
  ∀ a, ∃ disk events, (edit a).2 = (Archive.course events (a, disk)).1

theorem MakesCalls.tidy {edit : Archive → Except Error α × Archive} (calls : MakesCalls edit)
    {a : Archive} (opened : a.location.isSome = true) : Tidy (edit a).2 := by
  obtain ⟨disk, events, same⟩ := calls a
  rw [same]
  refine Tidy.course (s := (a, disk)) (fun shut => ?_) events
  rw [show a.location = none from shut] at opened
  cases opened

variable {w : WorkingCopy} {edit : Archive → Except Error α × Archive}

/-- An edit leaves the handle closed, whether it succeeds or not, and whether the package can be
written or not.  That the handle was open already is never the reason if it fails. -/
theorem closed_withOpen (shut : w.archive = closed)
    (tidy : ∀ a : Archive, a.location.isSome = true → Tidy (edit a).2) (disk : Disk) :
    (w.withOpen disk edit).2.1.archive = closed ∧
      ((∀ a, Spares Error.saysOpen (edit a).1) →
        Spares Error.saysOpen (w.withOpen disk edit).1) := by
  rw [withOpen, if_neg (by rw [shut]; decide), shut]
  have spared := Archive.spares_openAt disk (.temporary w.file)
  rcases opening : closed.openAt disk (.temporary w.file) with ⟨cause | ⟨⟩, opened⟩
  · rw [opening] at spared
    obtain rfl : opened = closed := by
      rcases closed.openAt_cases disk (.temporary w.file) with ⟨_, failed⟩ | ⟨_, -, -, done⟩
      · rw [opening] at failed
        cases failed
        rfl
      · rw [opening] at done
        cases done
    exact ⟨rfl, fun _ => .error (spared cause rfl)⟩
  · obtain ⟨-, -, fresh⟩ := Archive.openAt_eq_ok opening
    have after : ((edit opened).2.close disk).2.1 = closed := by
      rcases Archive.close_cases (edit opened).2 disk with ⟨none, failed⟩ | done
      · rw [failed]
        exact tidy opened (by rw [fresh]; rfl) none
      · exact done
    have spares := (edit opened).2.spares_close disk
    simp only
    split
    · next _ _ cause result =>
      exact ⟨after, fun plain => .error (plain opened cause result)⟩
    · next cause _ closing => exact ⟨after, fun _ => .error (spares cause closing)⟩
    · exact ⟨after, fun _ => .ok _⟩

/-- An edit that leaves the package where it is leaves an open handle open. -/
theorem tidy_of_location (keeps : ∀ a, (edit a).2.location = a.location) (a : Archive)
    (opened : a.location.isSome = true) : Tidy (edit a).2 := by
  intro shut
  rw [keeps a] at shut
  rw [shut] at opened
  cases opened

theorem spares_putText (name t : Text) (a : Archive) :
    Spares Error.saysOpen (putText name t a).1 :=
  .mapError (a.spares_put _ _)

theorem spares_putPictures (disk : Disk) (keep : Bool) (pictures : List Picture) (a : Archive) :
    Spares Error.saysOpen (putPictures disk keep pictures a).1 := by
  induction pictures generalizing a with
  | nil => exact .ok _
  | cons p pictures ih =>
    rw [putPictures]
    split
    · next cause failed => exact .error (a.spares_contains _ cause failed)
    · split
      · exact ih a
      · have put := a.spares_putFile disk p.source p.entry
        rcases done : a.putFile disk p.source p.entry with ⟨cause | ⟨⟩, b⟩
        · rw [done] at put
          exact .error (put cause rfl)
        · exact ih b

end WorkingCopy

/-! ## Sessions -/

namespace Session

variable {σ : Session}

/-- The handle on the working copy is closed. -/
def Shut (σ : Session) : Prop :=
  ∀ w ∈ σ.working, w.archive = closed

theorem Shut.withOpen {α : Type} {edit : Archive → Except Error α × Archive} (h : σ.Shut)
    (tidy : ∀ a : Archive, a.location.isSome = true → Tidy (edit a).2) :
    (σ.withOpen edit).2.Shut ∧ ((∀ a, Spares Error.saysOpen (edit a).1) →
      Spares Error.saysOpen (σ.withOpen edit).1) := by
  rw [Session.withOpen]
  cases working : σ.working with
  | none => exact ⟨h, fun _ => .error rfl⟩
  | some w =>
    obtain ⟨after, spares⟩ := WorkingCopy.closed_withOpen (h w working) tidy σ.disk
    refine ⟨fun w' there => ?_, spares⟩
    cases there
    exact after

/-- Copying pictures into the package leaves the handle closed. -/
theorem Shut.embed (h : σ.Shut) (pictures : List Picture) :
    (σ.embed pictures).2.Shut ∧ Spares Error.saysOpen (σ.embed pictures).1 := by
  rw [Session.embed]
  cases working : σ.working with
  | none => exact ⟨h, .ok _⟩
  | some w =>
    simp only [WorkingCopy.embed]
    split
    · refine ⟨fun w' there => ?_, .ok _⟩
      cases there
      exact h w working
    · obtain ⟨after, spares⟩ := WorkingCopy.closed_withOpen (h w working)
        (WorkingCopy.tidy_of_location (Edits.putPictures σ.disk true pictures).location) σ.disk
      refine ⟨fun w' there => ?_, spares (WorkingCopy.spares_putPictures _ _ _)⟩
      cases there
      exact after

end Session

/-! ## Calls on segments -/

theorem Frame.spares_build (disk : Disk) (path : Text) (placement : Placement) :
    Spares Error.saysOpen (Frame.build disk path placement) := by
  have size : Spares Error.saysOpen (Picture.size disk path) := by
    rw [Picture.size]
    split
    · exact .error rfl
    · simp only
      split
      · exact .error rfl
      · split
        · exact .error rfl
        · exact .ok _
  rw [build]
  split
  · exact .error rfl
  · split
    · next cause failed => exact .error (size cause failed)
    · exact .ok _

theorem Values.spares_bindBytes (v : Values) (tag : Text) (value : List UInt8) (encode : Bool)
    (label : Text) : Spares Error.saysOpen (v.bindBytes tag value encode label) := by
  rw [bindBytes]
  split
  · exact .ok _
  · exact .error rfl

theorem Values.spares_bindImage (v : Values) (disk : Disk) (tag path : Text)
    (placement : Placement) : Spares Error.saysOpen (v.bindImage disk tag path placement) :=
  (Frame.spares_build disk path placement).map _

namespace Segment

/-- A call that leaves the handle closed, and never finds it open. -/
def Orderly {α : Type} (call : Call α) : Prop :=
  ∀ s, Within Session.Shut (fun cause => cause.saysOpen = false) call s

theorem orderly_merge : Orderly merge := fun _ =>
  within_merge fun f _ _ h => h.embed f.values.pictures

/-- Every call on a node is orderly. -/
theorem orderly_call (a : Action) : Orderly a.call := by
  have tagged (own : Fragment) (σ : Session) (key : Text) :
      Spares Error.saysOpen (declaredTag own σ.config key) := by
    rw [declaredTag]
    split
    · exact .ok _
    · exact .error rfl
  cases a with
  | bind key value encode => exact Within.edit fun own σ _ => (tagged own σ key).map _
  | bindBytes key value encode charset =>
    exact Within.edit fun own σ _ =>
      (tagged own σ key).bind fun tag => own.values.spares_bindBytes tag value encode charset
  | bindImage key path placement =>
    exact Within.edit fun own σ _ =>
      (tagged own σ key).bind fun tag => own.values.spares_bindImage σ.disk tag path placement
  | merge => exact orderly_merge

theorem Orderly.onPath {α : Type} {call : Call α} (h : Orderly call) (path : List Text) :
    Orderly (onPath call path) :=
  Within.onPath h (fun _ _ => rfl) path

end Segment

namespace MergeData

theorem orderly_mergeRows (rows : List MergeData) : Segment.Orderly (mergeRows rows) :=
  within_mergeRows Segment.orderly_call (fun _ _ => rfl) rows

end MergeData

/-! ## Calls on documents -/

namespace Document

/-- A call that left the handle closed, and did not find it open. -/
structure Orderly {α : Type} (answer : Except Error α × Document) : Prop where
  shut : answer.2.session.Shut
  spares : Spares Error.saysOpen answer.1

variable {d : Document}

theorem orderly_of_atomic (h : d.session.Shut) {answer : Except Error Unit × Document}
    (atomic : Atomic d answer) (same : ∀ e, answer = (.ok (), e) → e.session = d.session)
    (spares : Spares Error.saysOpen answer.1) : Orderly answer := by
  refine ⟨?_, spares⟩
  rw [atomic.session same]
  exact h

/-! ### Binding -/

theorem spares_declaredTag (d : Document) (key : Text) :
    Spares Error.saysOpen (d.declaredTag key) := by
  rw [declaredTag]
  split
  · exact .ok _
  · exact .error rfl

theorem orderly_bind (h : d.session.Shut) (key value : Text) (encode : Bool) :
    Orderly (d.bind key value encode) := by
  refine orderly_of_atomic h (d.atomic_bind key value encode) (fun e done => ?_) ?_
  · obtain ⟨values, -, -, rfl⟩ := bind_eq_ok done
    rfl
  · rw [Document.bind]
    split
    · next cause undeclared => exact .error (spares_declaredTag d key cause undeclared)
    · exact .ok _

theorem orderly_bindBytes (h : d.session.Shut) (key : Text) (value : List UInt8) (encode : Bool)
    (charset : Text) : Orderly (d.bindBytes key value encode charset) := by
  refine orderly_of_atomic h (d.atomic_bindBytes key value encode charset) (fun e done => ?_) ?_
  · obtain ⟨values, -, -, rfl⟩ := bindBytes_eq_ok done
    rfl
  · rw [Document.bindBytes]
    split
    · next cause undeclared => exact .error (spares_declaredTag d key cause undeclared)
    · next tag _ =>
      split
      · next cause failed =>
        exact .error (d.values.spares_bindBytes tag value encode charset cause failed)
      · exact .ok _

theorem orderly_bindImage (h : d.session.Shut) (key path : Text) (placement : Placement) :
    Orderly (d.bindImage key path placement) := by
  refine orderly_of_atomic h (d.atomic_bindImage key path placement) (fun e done => ?_) ?_
  · obtain ⟨tag, frame, values, -, -, -, -, -, rfl⟩ := bindImage_eq_ok done
    rfl
  · rw [Document.bindImage]
    split
    · next cause undeclared => exact .error (spares_declaredTag d key cause undeclared)
    · next tag _ =>
      split
      · next cause failed =>
        exact .error (d.values.spares_bindImage d.session.disk tag path placement cause failed)
      · exact .ok _

/-! ### Segments -/

/-- A segment cannot be built only if it is nested too deeply. -/
theorem spares_parse (room : Nat) (name source : Text) :
    Spares Error.saysOpen (Segment.parse name source room) := by
  induction room generalizing name source with
  | zero =>
    rw [Segment.parse]
    split
    · exact .ok _
    · exact .error rfl
  | succ room ih =>
    rw [Segment.parse]
    refine .map ?_ _
    generalize Segment.childRegions name source = regions
    induction regions with
    | nil => exact .ok _
    | cons r regions later =>
      rw [List.mapM_cons]
      exact (ih r.name r.outer).bind fun s => later.bind fun cs => .ok (s :: cs)

theorem orderly_declareSegment (h : d.session.Shut) (name : Text) :
    Orderly (d.declareSegment name) := by
  refine orderly_of_atomic h (d.atomic_declareSegment name)
    (fun e done => (grows_declareSegment done).2) ?_
  rw [declareSegment]
  split
  · exact .ok _
  · split
    · exact .error rfl
    · split
      · next cause failed => exact .error (spares_parse _ _ _ cause failed)
      · exact .ok _

theorem orderly_onSegment {α : Type} {call : Segment.Call α} (orderly : Segment.Orderly call)
    (h : d.session.Shut) (name : Text) : Orderly (d.onSegment name call) := by
  have first := orderly_declareSegment h name
  rw [onSegment]
  rcases declared : d.declareSegment name with ⟨cause | ⟨⟩, e⟩
  · rw [declared] at first
    exact ⟨first.shut, .error (first.spares cause rfl)⟩
  · rw [declared] at first
    have shut : e.session.Shut := first.shut
    have below := Segment.Within.onChild orderly (fun _ _ => rfl) name
      (.node (Fragment.ofRegion [] []) e.segments) e.session shut
    rw [Segment.onChild] at below
    simp only
    cases named : Segment.callNamed name call e.segments e.session with
    | none => exact ⟨shut, .error rfl⟩
    | some answer =>
      obtain ⟨r, segments, τ⟩ := answer
      rw [named] at below
      exact ⟨below.1, below.2⟩

theorem orderly_mergeSegment (h : d.session.Shut) (name : Text) :
    Orderly (d.mergeSegment name) := by
  refine orderly_of_atomic h (d.atomic_mergeSegment name)
    (fun e done => (mergeSegment_eq_ok done).1) ?_
  rw [mergeSegment]
  split
  · exact .error rfl
  · split
    · exact .error rfl
    · exact .ok _

/-! ### Properties and saving -/

theorem orderly_setProperty (h : d.session.Shut) (key value : Text) (encode : Bool) :
    Orderly (d.setProperty key value encode) := by
  rw [setProperty]
  split
  · exact ⟨h, .error rfl⟩
  · exact ⟨h, .error rfl⟩
  · exact ⟨h, .error rfl⟩
  · next meta_ _ =>
    obtain ⟨shut, spares⟩ := h.withOpen
      (WorkingCopy.tidy_of_location (Edits.putText Part.meta_ meta_).location)
    exact ⟨shut, spares (WorkingCopy.spares_putText _ _)⟩

theorem spares_writeParts (d : Document) (a : Archive) :
    Spares Error.saysOpen (d.writeParts a).1 := by
  have all (edits : List (Archive → Except Error Unit × Archive))
      (each : ∀ edit ∈ edits, ∀ a, Spares Error.saysOpen (edit a).1) (a : Archive) :
      Spares Error.saysOpen (editAll edits a).1 := by
    induction edits generalizing a with
    | nil => exact .ok ()
    | cons edit edits ih =>
      rw [editAll]
      have first := each edit List.mem_cons_self a
      rcases done : edit a with ⟨cause | _, b⟩
      · rw [done] at first
        exact .error (first cause rfl)
      · exact ih (fun e mem => each e (List.mem_cons_of_mem _ mem)) b
  refine all _ (fun edit mem => ?_) a
  simp only [List.mem_cons, List.not_mem_nil, or_false] at mem
  rcases mem with rfl | rfl | rfl | rfl
  · exact WorkingCopy.spares_putText _ _
  · exact WorkingCopy.spares_putText _ _
  · exact WorkingCopy.spares_putText _ _
  · exact WorkingCopy.spares_putPictures _ _ _

theorem orderly_finalize (h : d.session.Shut) : Orderly d.finalize := by
  rcases finalize_cases d with ⟨cause, done⟩ | ⟨manifest, done⟩
  · rw [done]
    exact ⟨h, .error rfl⟩
  · rw [done]
    let e : Document := { d.substitute with manifest }
    have shut : e.session.Shut := h
    obtain ⟨shut, spares⟩ := shut.withOpen
      (WorkingCopy.tidy_of_location (edits_writeParts e).location)
    have same : Error.saysOpen ∘ exportError = Error.saysOpen := by
      funext cause
      cases cause <;> rfl
    exact ⟨shut, .mapError (same.symm ▸ spares (spares_writeParts e))⟩

theorem orderly_toFile (h : d.session.Shut) : Orderly d.toFile := by
  have written := orderly_finalize h
  rw [toFile]
  rcases done : d.finalize with ⟨cause | _, e⟩
  · rw [done] at written
    exact ⟨written.shut, .error (written.spares cause rfl)⟩
  · rw [done] at written
    simp only
    split
    · exact ⟨written.shut, .error rfl⟩
    · exact ⟨written.shut, .mapError fun _ _ => rfl⟩

theorem orderly_writeTo (h : d.session.Shut) (writer : File → Except DiskError Unit) :
    Orderly (d.writeTo writer) := by
  have made := orderly_toFile h
  rw [writeTo]
  rcases done : d.toFile with ⟨cause | file, e⟩
  · rw [done] at made
    exact ⟨made.shut, .error (made.spares cause rfl)⟩
  · rw [done] at made
    exact ⟨made.shut, .mapError fun _ _ => rfl⟩

theorem orderly_save (h : d.session.Shut) (destination? : Option Text) :
    Orderly (d.save destination?) := by
  have written := orderly_finalize h
  rw [save]
  rcases done : d.finalize with ⟨cause | _, e⟩
  · rw [done] at written
    exact ⟨written.shut, .error (written.spares cause rfl)⟩
  · rw [done] at written
    simp only
    split
    · exact ⟨written.shut, .error rfl⟩
    · split
      · exact ⟨written.shut, .error rfl⟩
      · exact ⟨written.shut, .ok ()⟩

theorem orderly_saveCall (h : d.session.Shut) (call : SaveCall) : Orderly (call.call d) := by
  cases call with
  | toFile => exact orderly_toFile h
  | writeTo writer =>
    have made := orderly_writeTo h writer
    exact ⟨made.shut, made.spares.bind fun _ => (orderly_toFile h).spares⟩
  | save destination? =>
    have made := orderly_save h destination?
    exact ⟨made.shut, made.spares.bind fun _ => .mapError fun _ _ => rfl⟩

/-! ### Every call -/

/-- Every call leaves the handle closed, and finds it closed. -/
theorem orderly_act (a : Action) (h : d.session.Shut) : Orderly (a.act d) := by
  cases a with
  | bind key value encode => exact orderly_bind h key value encode
  | bindBytes key value encode charset => exact orderly_bindBytes h key value encode charset
  | bindImage key path placement => exact orderly_bindImage h key path placement
  | declareSegment name => exact orderly_declareSegment h name
  | onSegment name path call =>
    exact orderly_onSegment ((Segment.orderly_call call).onPath path) h name
  | mergeSegment name => exact orderly_mergeSegment h name
  | setProperty key value encode => exact orderly_setProperty h key value encode
  | save call =>
    have made := orderly_saveCall h call
    exact ⟨made.shut, made.spares.map _⟩

/-- So does filling a document with data. -/
theorem orderly_fill (data : MergeData) (h : d.session.Shut) : Orderly (d.fill data) :=
  fill_induct (fun key value done => orderly_bind done.shut key value true)
    (fun key path placement done => orderly_bindImage done.shut key path placement)
    (fun name rows done => orderly_onSegment (MergeData.orderly_mergeRows rows) done.shut name)
    (fun name done => orderly_mergeSegment done.shut name) data ⟨h, .ok ()⟩

/-! ### Opening -/

/-- The handle on a new working copy is closed. -/
theorem closed_of_create {disk after : Disk} {template directory : Text} {w : WorkingCopy}
    (h : WorkingCopy.create disk template directory = (.ok w, after)) : w.archive = closed := by
  rw [WorkingCopy.create] at h
  split at h
  · cases h
  · split at h
    · cases h
    · cases h
      rfl

theorem spares_readParts (a : Archive) : Spares Error.saysOpen (readParts a) := by
  have part (name : Text) : Spares Error.saysOpen (readPart a name) := by
    rw [readPart]
    split
    · next cause failed => exact .error (a.spares_contains _ cause failed)
    · exact .error rfl
    · exact .mapError fun cause failed => a.spares_text _ cause failed
  exact (part _).bind fun _ => (part _).bind fun _ => (part _).bind fun _ =>
    (part _).bind fun _ => .ok _

/-- A document that was opened has a closed handle. -/
theorem shut_of_openAt {disk after : Disk} {path : Text} {config : Config} {d : Document}
    (h : openAt disk path config = (.ok d, after)) : d.session.Shut := by
  obtain ⟨directory, w, copied, parts, w', created, whole, rfl⟩ := openAt_eq_ok h
  have fresh : Session.Shut ⟨config, some w, copied⟩ := by
    intro w there
    cases there
    exact closed_of_create created
  have shut := (fresh.withOpen (WorkingCopy.tidy_of_location edits_readParts.location)).1
  rw [whole] at shut
  exact shut

/-- Opening a document never finds the handle open. -/
theorem spares_openAt (disk : Disk) (path : Text) (config : Config) :
    Spares Error.saysOpen (openAt disk path config).1 := by
  have valid : Spares Error.saysOpen (config.validate disk) := by
    rw [Config.validate]
    split
    · exact .error rfl
    · split
      · exact .error rfl
      · split
        · exact .error rfl
        · exact .ok _
  rw [openAt]
  split
  · exact .error rfl
  · split
    · next cause failed => exact .error (valid cause failed)
    · split
      · exact .error rfl
      · next w made created =>
        obtain ⟨-, spares⟩ := WorkingCopy.closed_withOpen (closed_of_create created)
          (WorkingCopy.tidy_of_location edits_readParts.location) made
        rcases edited : w.withOpen made fun a => (readParts a, a) with ⟨cause | parts, w', final⟩
        · rw [edited] at spares
          exact .error (spares spares_readParts cause rfl)
        · exact .ok _

/-- A document that was opened and is used, while others change the files that have paths. -/
inductive Reached : Document → Prop
  | opened {disk after : Disk} {path : Text} {config : Config} {d : Document} :
    openAt disk path config = (.ok d, after) → Reached d
  | act {d : Document} (a : Action) : Reached d → Reached (a.act d).2
  | fill {d : Document} (data : MergeData) : Reached d → Reached (d.fill data).2
  | outside {d : Document} (disk : Disk) : Reached d → Reached ((Event.outside disk).happen d)

/-- The handle is closed whenever no call is being made. -/
theorem Reached.shut {d : Document} (h : Reached d) : d.session.Shut := by
  induction h with
  | opened done => exact shut_of_openAt done
  | act a _ ih => exact (orderly_act a ih).shut
  | fill data _ ih => exact (orderly_fill data ih).shut
  | outside disk _ ih => exact ih

/-- **The states of a handle.**  Whatever calls are made on a handle that was closed at first, while
others change the disk: if it is closed it has no members and is not changed.  If it is open, then the
package was opened, and the handle was not closed since; it has the members that the package had
then, unless something was put, and their names are different if those of the package were.  A call
that fails does nothing, unless it closes the handle.

An edit of a working copy leaves the handle closed, whatever calls it makes and whether it fails or
not.  So no call on a document or a segment ever finds the handle open. -/
theorem handle_states :
    (∀ (disk : Disk) (events : List Archive.Event),
      let start := (closed, disk)
      let s := Archive.course events start
      (s.1.location = none → s.1.held = [] ∧ s.1.dirty = false) ∧
      (∀ location, s.1.location = some location → ∃ before after members,
        events = before ++ .call (.openAt location) :: after ∧ .call .close ∉ after ∧
        (Archive.course before start).1 = closed ∧
        Archive.load (Archive.course before start).2 location = .ok members ∧
        (s.1.dirty = false → s.1.held = members) ∧
        ((members.map Held.name).Nodup → (s.1.held.map Held.name).Nodup)) ∧
      ∀ (c : Archive.Call) (cause : ArchiveError), c ≠ .close → (c.act s).1 = .error cause →
        (c.act s).2 = s) ∧
    (∀ (α : Type) (w : WorkingCopy) (edit : Archive → Except Error α × Archive) (disk : Disk),
      w.archive = closed → WorkingCopy.MakesCalls edit →
        (w.withOpen disk edit).2.1.archive = closed) ∧
    (∀ disk path config, Spares Error.saysOpen (openAt disk path config).1) ∧
    (∀ d, Reached d → (∀ w ∈ d.session.working, w.archive = closed) ∧
      (∀ a : Action, Spares Error.saysOpen (a.act d).1) ∧
      ∀ data : MergeData, Spares Error.saysOpen (d.fill data).1) ∧
    ∀ (s : Segment) (σ : Session), σ.working = none → ∀ (path : List Text) (a : Segment.Action),
      Spares Error.saysOpen (Segment.onPath a.call path s σ).1 := by
  refine ⟨fun disk events => ?_, fun α w edit disk shut calls => ?_, fun disk path config => ?_,
    fun d reached => ?_, fun s σ none path a => ?_⟩
  · intro start s
    refine ⟨fun shut => ?_, fun location opened => ?_, fun c cause stays failed => ?_⟩
    · have tidy : Tidy s.1 := Tidy.course (s := start) (fun _ => rfl) events
      rw [tidy shut]
      exact ⟨rfl, rfl⟩
    · rcases Archive.closed_or_since disk events with same | ⟨location', members, since⟩
      · rw [show s.1 = closed from same] at opened
        cases opened
      · have at_ : s.1.location = some location' := since.location_eq
        rw [opened] at at_
        cases at_
        obtain ⟨before, after, split, open_, shut, loaded⟩ := since.split
        exact ⟨before, after, members, split, open_, shut, loaded, since.held_of_clean,
          since.nodup⟩
    · exact Archive.act_of_error stays failed
  · exact (WorkingCopy.closed_withOpen shut (fun a opened => calls.tidy opened) disk).1
  · exact spares_openAt disk path config
  · exact ⟨reached.shut, fun a => (orderly_act a reached.shut).spares,
      fun data => (orderly_fill data reached.shut).spares⟩
  · have shut : σ.Shut := fun w there => by rw [none] at there; cases there
    exact ((Segment.orderly_call a).onPath path s σ shut).2

/-- A disk with a package of one member. -/
def shelf : Disk :=
  { Disk.empty with nodes := (Disk.empty.current ++ ["u".toList],
    .file (.package [⟨"a".toList, .deflated, Text.toBytes "1".toList⟩])) :: Disk.empty.nodes }

/-- A member is added and the package is closed; then somebody puts the old package back.  The handle is
opened again, which cannot be done twice, and nothing can be put from a file that is not there. -/
def reopening : List Archive.Event :=
  [.call (.openAt (.path "u".toList)), .call (.put (.text "b".toList "2".toList)), .call .close,
    .outside shelf, .call (.openAt (.path "u".toList)), .call (.openAt (.path "u".toList)),
    .call (.put (.file "gone".toList "c".toList))]

/-- An image is bound on a segment, and removed before it is merged. -/
def removeImage : List Event :=
  [.call (.onSegment "s".toList [] (.bindImage "p".toList "x".toList Placement.inText)),
    .outside Disk.empty]

/-- The handle has what the package had when it was opened for the second time.  In a document a merge
fails while the handle is open, but not because it is, and leaves the handle closed. -/
theorem handle_states_reopening :
    (∃ before after members, reopening = before ++ .call (.openAt (.path "u".toList)) :: after ∧
      .call .close ∉ after ∧
      Archive.load (Archive.course before (closed, shelf)).2 (.path "u".toList) = .ok members ∧
      (Archive.course reopening (closed, shelf)).1.held = members ∧
      (members.map Held.name) = ["a".toList]) ∧
    ∃ d made e cause, openAt (desk false) "t".toList Config.standard = (.ok d, made) ∧
      (Action.onSegment "s".toList [] .merge).act (course removeImage d) = (.error cause, e) ∧
      cause.saysOpen = false ∧ ∀ w ∈ e.session.working, w.archive = closed := by
  constructor
  · have opened : (Archive.course reopening (closed, shelf)).1.location = some (.path "u".toList) ∧
        (Archive.course reopening (closed, shelf)).1.dirty = false ∧
        (Archive.course reopening (closed, shelf)).1.held.map Held.name = ["a".toList] := by
      decide +kernel
    obtain ⟨-, since, -⟩ := handle_states.1 shelf reopening
    obtain ⟨before, after, members, split, unclosed, -, loaded, clean, -⟩ := since _ opened.1
    have held := clean opened.2.1
    exact ⟨before, after, members, split, unclosed, loaded, held, held ▸ opened.2.2⟩
  · have opens : (openAt (desk false) "t".toList Config.standard).1.toOption.isSome = true := by
      decide +kernel
    have outcome : ∀ d ∈ (openAt (desk false) "t".toList Config.standard).1.toOption,
        ((Action.onSegment "s".toList [] .merge).act (course removeImage d)).1.toOption = none := by
      decide +kernel
    rcases opened : openAt (desk false) "t".toList Config.standard with ⟨cause | d, made⟩
    · rw [opened] at opens
      cases opens
    · have fails := outcome d (by rw [opened]; rfl)
      have reached : Reached (course removeImage d) := .outside Disk.empty (.act _ (.opened opened))
      rcases done : (Action.onSegment "s".toList [] .merge).act (course removeImage d) with
        ⟨cause | u, e⟩
      · obtain ⟨-, spares, -⟩ := handle_states.2.2.2.1 _ reached
        obtain ⟨shut, -, -⟩ := handle_states.2.2.2.1 _ (reached.act (.onSegment "s".toList [] .merge))
        rw [done] at shut
        exact ⟨d, made, e, cause, rfl, done, spares _ cause (by rw [done]), shut⟩
      · rw [done] at fails
        cases fails

end Document

end DocumentMerge
