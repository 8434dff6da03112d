import DocumentMerge.Command.Run
import DocumentMerge.Proofs.Document.Frames
import DocumentMerge.Proofs.MergeData.Rows

/-!
# What a run leaves behind

A merge writes all the time.  The template is copied first, every row that is merged puts its
pictures into the copy, and at the end the texts are put there, too.  All of this goes into one
file, the working copy, which is removed when the run ends.  Only the last step writes anything else,
when the copy is copied to the output.  So a run that does not come so far leaves the disk as it was,
however deep in the data it failed.

* `Session.Confined`: the working copy is a certain file, and the disk without this file is a certain
  disk.  This is kept by every edit of the package, by the calls on a segment at any depth
  (`confined_mergeRows`), by filling and by writing the result (`confined_fill`,
  `confined_finalize`).
* `openAt_cases`: a document that was opened is confined to its working copy, and nothing is left
  of one that could not be opened.
* `Prepared`: all steps of a merge but the last succeed.  `merge_cases` says when a merge succeeds,
  and `run_leaves` what is left on the disk after any run.
-/

namespace DocumentMerge

open Segment (Within)

/-! ## The working copy -/

/-- The session has a file as its working copy, and without this file the disk is a given one. -/
structure Session.Confined (disk : Disk) (file : Temporary) (σ : Session) : Prop where
  working : σ.working.map WorkingCopy.file = some file
  rest : σ.disk.discard file = disk

namespace Session.Confined

variable {disk : Disk} {file : Temporary} {σ : Session}

theorem withOpen {α : Type} {edit : Archive → Except Error α × Archive} (h : σ.Confined disk file)
    (keeps : ∀ a, (edit a).2.location = a.location) :
    (σ.withOpen edit).2.Confined disk file := by
  obtain ⟨working, rest⟩ := h
  obtain ⟨w, there, rfl⟩ := Option.map_eq_some_iff.1 working
  obtain ⟨same, kept⟩ := w.discard_withOpen σ.disk keeps
  rw [Session.withOpen, there]
  exact ⟨congrArg some same, kept.trans rest⟩

theorem embed (h : σ.Confined disk file) (pictures : List Picture) :
    (σ.embed pictures).2.Confined disk file := by
  obtain ⟨working, rest⟩ := h
  obtain ⟨w, there, rfl⟩ := Option.map_eq_some_iff.1 working
  rw [Session.embed, there]
  simp only [WorkingCopy.embed]
  split
  · exact ⟨rfl, rest⟩
  · obtain ⟨same, kept⟩ := w.discard_withOpen σ.disk
      (Archive.Edits.putPictures σ.disk true pictures).location
    exact ⟨congrArg some same, kept.trans rest⟩

end Session.Confined

/-- A template is copied into a new file, or nothing is left. -/
theorem WorkingCopy.create_cases (disk : Disk) (template directory : Text) :
    (∃ cause, create disk template directory = (.error cause, disk)) ∨
    ∃ w made, create disk template directory = (.ok w, made) ∧ made.discard w.file = disk := by
  rw [create]
  cases made : disk.makeTemporary directory with
  | error cause => exact .inl ⟨cause, rfl⟩
  | ok pair =>
    obtain ⟨file, fresh⟩ := pair
    have back : fresh.discard file = disk := Disk.discard_of_makeTemporary made
    simp only
    cases fresh.readForCopy template with
    | error cause => exact .inl ⟨cause, by rw [back]⟩
    | ok content => exact .inr ⟨_, _, rfl, (Disk.discard_fillTemporary _ _ _).trans back⟩

/-! ## Segments -/

/-- Every call on a node writes into the working copy only. -/
theorem Segment.confined_call (disk : Disk) (file : Temporary) (a : Action) (s : Segment) :
    Within (Session.Confined disk file) (fun _ => True) a.call s := by
  by_cases merges : a = .merge
  · subst merges
    exact within_merge fun f _ _ h => ⟨h.embed f.values.pictures, fun _ _ => trivial⟩
  · intro σ h
    rw [session_call merges]
    exact ⟨h, fun _ _ => trivial⟩

/-- So do all the calls by which rows are merged. -/
theorem MergeData.confined_mergeRows (disk : Disk) (file : Temporary) (rows : List MergeData)
    (s : Segment) : Within (Session.Confined disk file) (fun _ => True) (mergeRows rows) s :=
  within_mergeRows (Segment.confined_call disk file) (fun _ _ => trivial) rows s

/-! ## Documents -/

namespace Document

variable {disk : Disk} {file : Temporary} {d : Document}

/-- What a call keeps of the session on any segment, it keeps on a segment of a document. -/
theorem session_onSegment {α : Type} {I : Session → Prop} {call : Segment.Call α}
    (keeps : ∀ s, Within I (fun _ => True) call s) (h : I d.session) (name : Text) :
    I (d.onSegment name call).2.session := by
  rcases d.onSegment_cases name call with ⟨cause, -, failed⟩ | ⟨e, declared, cases⟩
  · rw [failed]
    exact h
  · rcases done : Segment.onChild name call e.root e.session with ⟨r, t, τ⟩
    have held : I e.session := (grows_declareSegment declared).2 ▸ h
    have kept := (Within.onChild keeps (fun _ _ => trivial) name e.root e.session held).1
    rw [done] at kept
    rw [(cases r t τ done).1]
    exact kept

/-- Filling a document writes into the working copy only, whether it succeeds or not. -/
theorem confined_fill (h : d.session.Confined disk file) (data : MergeData) :
    (d.fill data).2.session.Confined disk file := by
  have still {d e : Document} (held : d.session.Confined disk file) (same : e.session = d.session) :
      e.session.Confined disk file := by
    rw [same]
    exact held
  refine fill_induct (P := fun answer => answer.2.session.Confined disk file)
    (fun {d} key value held => still held ((d.atomic_bind key _ true).session fun e done => ?_))
    (fun {d} key path placement held =>
      still held ((d.atomic_bindImage key path placement).session fun e done => ?_))
    (fun name rows held => session_onSegment (MergeData.confined_mergeRows disk file rows) held name)
    (fun {d} name held => still held
      ((d.atomic_mergeSegment name).session fun e done => (mergeSegment_eq_ok done).1)) data h
  · obtain ⟨values, -, -, rfl⟩ := bind_eq_ok done
    rfl
  · obtain ⟨tag, frame, values, -, -, -, -, -, rfl⟩ := bindImage_eq_ok done
    rfl

/-- So does writing the result. -/
theorem confined_finalize (h : d.session.Confined disk file) :
    d.finalize.2.session.Confined disk file := by
  rcases finalize_cases d with ⟨cause, done⟩ | ⟨manifest, done⟩
  · rw [done]
    exact h
  · rw [done]
    exact h.withOpen (edits_writeParts { d.substitute with manifest }).location

/-- When the document is closed, the disk without the working copy is left. -/
theorem close_eq (h : d.session.Confined disk file) : d.close = disk := by
  obtain ⟨working, rest⟩ := h
  obtain ⟨w, there, rfl⟩ := Option.map_eq_some_iff.1 working
  rw [close, there]
  exact rest

/-! ### Opening -/

/-- A document that was opened is confined to its working copy.  If it could not be opened, nothing
is left. -/
theorem openAt_cases (disk : Disk) (path : Text) (config : Config) :
    (∃ cause, openAt disk path config = (.error cause, disk)) ∨
    ∃ d made file, openAt disk path config = (.ok d, made) ∧ d.session.Confined disk file := by
  rw [openAt]
  split
  · exact .inl ⟨_, rfl⟩
  · cases config.validate disk with
    | error cause => exact .inl ⟨cause, rfl⟩
    | ok directory =>
      simp only
      rcases WorkingCopy.create_cases disk path directory with
        ⟨cause, failed⟩ | ⟨w, made, created, back⟩
      · rw [failed]
        exact .inl ⟨_, rfl⟩
      · rw [created]
        simp only
        obtain ⟨same, kept⟩ := w.discard_withOpen made edits_readParts.location
        rcases edited : w.withOpen made fun a => (readParts a, a) with ⟨cause | parts, w', after⟩
        · rw [edited] at same kept
          simp only at same kept ⊢
          exact .inl ⟨cause, by rw [same, kept, back]⟩
        · rw [edited] at same kept
          exact .inr ⟨_, after, w.file, rfl, congrArg some same, kept.trans back⟩

/-! ### Saving -/

/-- A document is saved if there is a file of the result, and the output takes a file. -/
theorem save_eq_ok_iff {output : Text} {after : Document} :
    d.save (some output) = (.ok (), after) ↔
      ∃ content place, d.toFile.1 = .ok content ∧
        d.finalize.2.session.disk.Takes output place ∧
        after = { d.finalize.2 with session := { d.finalize.2.session with
          disk := d.finalize.2.session.disk.put place (.file content) } } := by
  rw [save, toFile]
  rcases d.finalize with ⟨cause | _, e⟩
  · simp
  · simp only [Option.getD_some]
    cases working : e.session.working with
    | none => simp
    | some w =>
      simp only
      cases e.session.disk.fetch (.temporary w.file) with
      | error cause =>
        have fails : (Except.error cause : Except DiskError File).mapError Error.io
          = .error (.io cause) := rfl
        simp [Except.bind, fails]
      | ok content =>
        have reads : (Except.ok content : Except DiskError File).mapError Error.io = .ok content := rfl
        simp only [Except.bind, reads, Except.ok.injEq]
        cases written : e.session.disk.write output content with
        | error cause =>
          have never (place : List Text) : ¬ e.session.disk.Takes output place := by
            intro takes
            rw [Disk.write_eq_ok_iff.2 ⟨place, takes, rfl⟩] at written
            cases written
          simp [never]
        | ok disk =>
          obtain ⟨place, takes, rfl⟩ := Disk.write_eq_ok_iff.1 written
          constructor
          · intro same
            cases same
            exact ⟨content, place, rfl, takes, rfl⟩
          · rintro ⟨_, there, rfl, takes', rfl⟩
            obtain rfl : there = place := Except.ok.inj (takes'.1.symm.trans takes.1)
            rfl

/-- All that can come of saving a document and closing it.  Either there is a file of the result and
the output takes it, which then is the only change on the disk, or saving fails and nothing is left. -/
theorem close_save_cases (h : d.session.Confined disk file) (output : Text) :
    (∃ cause e, d.save (some output) = (.error cause, e) ∧ e.close = disk ∧
      ∀ content place, d.toFile.1 = .ok content → ¬ disk.Takes output place) ∨
    ∃ content place e, d.save (some output) = (.ok (), e) ∧ d.toFile.1 = .ok content ∧
      disk.Takes output place ∧ e.close = disk.put place (.file content) := by
  have kept := confined_finalize h
  -- the output is looked for while the working copy is there, and it takes a file also without
  have takes (place : List Text) :
      d.finalize.2.session.disk.Takes output place ↔ disk.Takes output place := by
    rw [← kept.rest]
    exact Disk.takes_discard.symm
  rcases done : d.save (some output) with ⟨cause | _, e⟩
  · have same : e = d.finalize.2 := by
      rcases d.save_cases (some output) with ⟨_, failed⟩ | ⟨_, _, _, -, -, -, -, saved⟩
      · rw [done] at failed
        exact congrArg Prod.snd failed
      · rw [done] at saved
        cases saved
    refine .inl ⟨cause, e, rfl, by rw [same, close_eq kept], fun content place made here => ?_⟩
    -- nothing else can keep a document from being saved
    rw [save_eq_ok_iff.2 ⟨content, place, made, (takes place).2 here, rfl⟩] at done
    cases done
  · obtain ⟨content, place, made, here, rfl⟩ := save_eq_ok_iff.1 done
    refine .inr ⟨content, place, _, rfl, made, (takes place).1 here, ?_⟩
    -- the copy is put on the disk before the working copy is removed, which makes no difference
    refine close_eq ⟨kept.working, ?_⟩
    rw [← kept.rest]
    rfl

end Document

/-! ## Runs -/

namespace Command

/-- All steps of a merge but the last succeed: the configuration and the data are read, the template
is opened and filled, and the result is written into the working copy, which then has this content. -/
def Prepared (disk : Disk) (a : Arguments) (content : File) : Prop :=
  ∃ settings values d made filled, config disk a = .ok settings ∧ data disk a = .ok values ∧
    Document.openAt disk a.template settings = (.ok d, made) ∧
    d.fill values = (.ok (), filled) ∧ filled.toFile.1 = .ok content

/-- All that can come of filling a document that was opened and saving it. -/
theorem complete_cases {disk : Disk} {file : Temporary} {d : Document}
    (h : d.session.Confined disk file) (a : Arguments) (values : MergeData) :
    (∃ failure, complete a values d = (.error failure, disk) ∧
      ∀ filled content place, d.fill values = (.ok (), filled) → filled.toFile.1 = .ok content →
        ¬ disk.Takes a.output place) ∨
    ∃ filled content place, d.fill values = (.ok (), filled) ∧ filled.toFile.1 = .ok content ∧
      disk.Takes a.output place ∧
      complete a values d = (.ok (), disk.put place (.file content)) := by
  have kept := Document.confined_fill h values
  rw [complete]
  rcases done : d.fill values with ⟨cause | _, filled⟩
  · rw [done] at kept
    have left : filled.close = disk := Document.close_eq kept
    refine .inl ⟨.filling cause, by simp only [left], fun _ _ _ ok => ?_⟩
    cases ok
  · rw [done] at kept
    rcases Document.close_save_cases kept a.output with
      ⟨cause, e, failed, left, unready⟩ | ⟨content, place, e, saved, made, here, left⟩
    · refine .inl ⟨.output a.output cause, ?_, fun _ content place same made => ?_⟩
      · simp only [failed, left]
      · cases same
        exact unready content place made
    · refine .inr ⟨filled, content, place, rfl, made, here, ?_⟩
      simp only [saved, left]

/-- All that can come of a merge.  Either everything is prepared and the output takes a file, which
then is the only change on the disk; or the merge fails, and nothing is left of it. -/
theorem merge_cases (disk : Disk) (a : Arguments) :
    (∃ failure, merge disk a = (.error failure, disk) ∧
      ∀ content place, Prepared disk a content → ¬ disk.Takes a.output place) ∨
    ∃ content place, Prepared disk a content ∧ disk.Takes a.output place ∧
      merge disk a = (.ok (), disk.put place (.file content)) := by
  cases settled : config disk a with
  | error failure =>
    refine .inl ⟨failure, by rw [merge, settled]; rfl, fun content place ready => ?_⟩
    simp [Prepared, settled] at ready
  | ok settings =>
    cases loaded : data disk a with
    | error failure =>
      refine .inl ⟨failure, by rw [merge, settled, loaded]; rfl, fun content place ready => ?_⟩
      simp [Prepared, loaded] at ready
    | ok values =>
      rcases Document.openAt_cases disk a.template settings with
        ⟨cause, failed⟩ | ⟨d, made, file, opened, confined⟩
      · refine .inl ⟨.template a.template cause, ?_, fun content place ready => ?_⟩
        · simp only [merge, settled, loaded, bind, Except.bind, failed]
        · simp [Prepared, settled, failed] at ready
      · have prepared (content : File) : Prepared disk a content ↔
            ∃ filled, d.fill values = (.ok (), filled) ∧ filled.toFile.1 = .ok content := by
          simp [Prepared, settled, loaded, opened]
        have same : merge disk a = complete a values d := by
          simp only [merge, settled, loaded, bind, Except.bind, opened]
        rw [same]
        rcases complete_cases confined a values with
          ⟨failure, failed, unready⟩ | ⟨filled, content, place, done, made, here, completed⟩
        · refine .inl ⟨failure, failed, fun content place ready => ?_⟩
          obtain ⟨filled, done, made⟩ := (prepared content).1 ready
          exact unready filled content place done made
        · exact .inr ⟨content, place, (prepared content).2 ⟨filled, done, made⟩, here, completed⟩

/-- **What a run leaves behind.**  Whatever the disk and the command line are, a run that fails leaves
the disk as it was: every file and directory, the output and the template among them, and also the
temporary files, so that the working copy is gone.  It does not matter which step failed, how deep in
the data that was, or what had been put into the working copy before.

A run that succeeds has done nothing if it was no merge.  A merge that succeeds was prepared, and its
result is the file at the output's place.  Every other place has what it had, and the working copy is
gone.  And a merge that is prepared does succeed if the output takes a file. -/
theorem run_leaves (disk : Disk) (arguments : List Text) :
    let outcome := (run disk arguments).1
    let after := (run disk arguments).2
    (outcome.code ≠ 0 → after = disk) ∧
    (outcome.code = 0 →
      ((∀ a, Request.ofArguments arguments ≠ .merge a) ∧ after = disk) ∨
      ∃ a content place, Request.ofArguments arguments = .merge a ∧ Prepared disk a content ∧
        disk.Takes a.output place ∧ after.node? place = some (.file content) ∧
        (∀ other, other ≠ place → after.node? other = disk.node? other) ∧
        after.current = disk.current ∧ after.temporaries = disk.temporaries) ∧
    ∀ a content place, Request.ofArguments arguments = .merge a → Prepared disk a content →
      disk.Takes a.output place → outcome.code = 0 := by
  rw [run]
  cases asked : Request.ofArguments arguments with
  | version => simp
  | help => simp
  | misuse => simp
  | merge a =>
    rcases merge_cases disk a with
      ⟨failure, failed, unready⟩ | ⟨content, place, ready, here, merged⟩
    · simp only [failed]
      refine ⟨fun _ => trivial, fun ok => absurd ok (by decide), ?_⟩
      rintro b content place same ready here
      cases same
      exact absurd here (unready content place ready)
    · obtain ⟨directory, name, split, -⟩ := Disk.placeOfFile_cases here.1
      have nonempty : place ≠ [] := by simp [split]
      simp only [merged]
      refine ⟨fun failed => absurd rfl failed, fun _ => .inr ?_, fun _ _ _ _ _ _ => trivial⟩
      refine ⟨a, content, place, rfl, ready, here, ?_, fun other away => ?_, rfl, rfl⟩
      · rw [Disk.node?_put _ nonempty, if_pos rfl]
      · rw [Disk.node?_put _ nonempty, if_neg away]

/-- A value that has no tag in the template makes the merge fail when the working copy is there, and
nothing is left.  With a value that has one it succeeds: the output is there, and the template stays. -/
theorem run_leaves_unknown_tag :
    let disk := Document.desk false
    let failing := ["t", "-o", "o", "-s", "q=1"].map String.toList
    let succeeding := ["t", "-o", "o", "-s", "p=1"].map String.toList
    (run disk failing).1
        = ⟨1, [], some "error: merge failed: var q not found in the document".toList⟩ ∧
      (run disk failing).2 = disk ∧ (run disk succeeding).1.code = 0 ∧
      (∃ content, (run disk succeeding).2.node? (Disk.empty.current ++ ["o".toList])
        = some (.file content)) ∧
      (run disk succeeding).2.node? (Disk.empty.current ++ ["t".toList])
        = disk.node? (Disk.empty.current ++ ["t".toList]) := by
  intro disk failing succeeding
  have fails : (run disk failing).1
      = ⟨1, [], some "error: merge failed: var q not found in the document".toList⟩ := by
    decide +kernel
  have succeeds : (run disk succeeding).1.code = 0 := by decide +kernel
  have asked : Request.ofArguments succeeding = .merge
      ⟨"t".toList, none, ["p=1".toList], "o".toList, none, none, none, none⟩ := by
    decide +kernel
  have there : disk.placeOfFile "o".toList = .ok (Disk.empty.current ++ ["o".toList]) := by
    decide +kernel
  obtain ⟨nothing, -⟩ := run_leaves disk failing
  obtain ⟨-, done, -⟩ := run_leaves disk succeeding
  refine ⟨fails, nothing (by rw [fails]; decide), succeeds, ?_⟩
  rcases done succeeds with ⟨other, -⟩ | ⟨a, content, place, same, -, here, written, away, -⟩
  · exact absurd asked (other _)
  · rw [asked] at same
    cases same
    obtain rfl : place = _ := Except.ok.inj (here.1.symm.trans there)
    exact ⟨⟨content, written⟩, away _ (by decide)⟩

end Command

end DocumentMerge
