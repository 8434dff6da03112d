import DocumentMerge.Document.Saving
import DocumentMerge.Proofs.Bindings.Lookup
import DocumentMerge.Proofs.Disk.Following
import DocumentMerge.Proofs.Package.Editing
import DocumentMerge.Proofs.Text.Scanning
import Mathlib.Logic.Function.Iterate

/-!
# Saving a document again and again

A document can be saved in three ways, and as often as one likes.  Every call, also one that fails,
puts the document's values into its texts and keeps the texts that result.  The next call starts from
these.

* `SaveCall` are the three ways to save; `SaveCall.call` answers the file that was written.
* `exists_holds_of_finalize` says all about a successful call: what is found afterwards under each
  name of the package.
* `texts_of_call`: the texts in the file are those of the document with its values put in once more.
* `texts_saved_once_iff`: in the file of the n-th call the values were put in n times.  This is the
  same as putting them in once exactly when putting them in a second time changes nothing, as it
  does not when no bound tag occurs in the texts that result.
-/

namespace DocumentMerge

open Zip (Held)
open Archive (contentOf Ordinary Keeps Puts Edits rewritten)

/-! ## Texts without tags -/

/-- Nothing is replaced in a text in which no bound tag occurs. -/
theorem Bindings.apply_of_free {b : Bindings} {t : Text} (free : ∀ tag ∈ b.tags, ¬ tag <:+: t) :
    b.apply t = t := by
  have noEmpty : b.get? [] = none := by
    cases bound : b.get? [] with
    | none => rfl
    | some v =>
      have mem : [] ∈ b.tags := List.mem_map.2 ⟨_, Keyed.mem_of_find? bound, rfl⟩
      exact absurd (List.nil_infix) (free [] mem)
  have none : b.pattern.first? t = none := by
    cases found : b.pattern.first? t with
    | none => rfl
    | some m =>
      obtain ⟨here, split, matched⟩ := b.pattern.eq_append_of_first? found
      obtain ⟨mem, -, front⟩ := Bindings.longestAt_eq_some matched
      refine absurd ?_ (free m.value.1 (List.mem_map_of_mem mem))
      rw [split, front]
      exact ⟨m.before, m.after, by simp⟩
  rw [apply, noEmpty]
  exact b.pattern.replace_of_none none

/-! ## One call -/

/-- The text of a member of a package. -/
def File.text? (f : File) (name : Text) : Option Text :=
  match f.read with
  | .ok members => (contentOf members name).bind Text.ofBytes?
  | .error _ => none

namespace Document

variable {d : Document}

/-! ### The edits of a call -/

theorem editAll_cons_eq_ok_iff {edit : Archive → Except Error Unit × Archive}
    {edits : List (Archive → Except Error Unit × Archive)} {a b : Archive} :
    editAll (edit :: edits) a = (.ok (), b) ↔
      ∃ c, edit a = (.ok (), c) ∧ editAll edits c = (.ok (), b) := by
  rw [editAll]
  rcases done : edit a with ⟨_ | _, c⟩
  · simp
  · simp

theorem puts_editAll {touched : List Text} {edits : List (Archive → Except Error Unit × Archive)}
    (each : ∀ edit ∈ edits, Puts touched edit) : Puts touched (editAll edits) := by
  induction edits with
  | nil => exact fun a => ⟨[], by simp, rfl⟩
  | cons edit edits ih =>
    intro a
    obtain ⟨puts, named, same⟩ := each edit List.mem_cons_self a
    rw [editAll]
    rcases done : edit a with ⟨_ | _, c⟩
    · rw [done] at same
      exact ⟨puts, named, same⟩
    · rw [done] at same
      obtain ⟨more, named', same'⟩ := ih (fun e mem => each e (List.mem_cons_of_mem _ mem)) c
      refine ⟨puts ++ more, ?_, ?_⟩
      · intro p mem
        rcases List.mem_append.1 mem with mem | mem
        · exact named p mem
        · exact named' p mem
      · rw [Archive.havingAll_append, ← same]
        exact same'

/-- The members that a call may write: the texts and the document's pictures. -/
def touched (d : Document) : List Text :=
  [Part.content, Part.styles, Part.manifest] ++ d.values.pictures.map Picture.entry

theorem puts_writeParts (d : Document) : Puts d.touched d.writeParts := by
  refine puts_editAll fun edit mem => ?_
  simp only [List.mem_cons, List.not_mem_nil, or_false] at mem
  rcases mem with rfl | rfl | rfl | rfl
  · exact (Puts.putText _ _).mono (by simp [touched])
  · exact (Puts.putText _ _).mono (by simp [touched])
  · exact (Puts.putText _ _).mono (by simp [touched])
  · exact (Puts.putPictures _ _ _).mono (List.subset_append_right _ _)

theorem edits_writeParts (d : Document) : Edits d.touched d.writeParts :=
  (puts_writeParts d).edits

theorem eq_having_of_putText {name t : Text} {a b : Archive}
    (h : WorkingCopy.putText name t a = (.ok (), b)) : b = a.having name t.toBytes := by
  rw [WorkingCopy.putText, Archive.putText] at h
  rcases a.put_cases name t.toBytes with ⟨-, failed⟩ | ⟨-, put⟩
  · rw [failed] at h
    cases h
  · rw [put] at h
    cases h
    rfl

/-- The name of one of the three texts that a call writes, with the text. -/
def written? (d : Document) (name : Text) : Option Text :=
  if name = Part.content then some d.content
  else if name = Part.styles then some d.styles
  else if name = Part.manifest then some d.manifest
  else none

/-- None of the three texts lies among the pictures. -/
theorem head?_ne_of_written? {name t : Text} (h : d.written? name = some t) :
    name.head? ≠ some 'P' := by
  rw [written?] at h
  split at h
  · next same => subst same; decide
  · split at h
    · next same => subst same; decide
    · split at h
      · next same => subst same; decide
      · cases h

/-- What is found in a package in which the three texts were put. -/
theorem contentOf_texts (d : Document) (a : Archive) (name : Text) :
    contentOf (((a.having Part.content d.content.toBytes).having Part.styles
        d.styles.toBytes).having Part.manifest d.manifest.toBytes).held name
      = ((d.written? name).map Text.toBytes).or (contentOf a.held name) := by
  simp only [Archive.having, Archive.contentOf_putMember, written?]
  by_cases content : name = Part.content
  · simp [content, show Part.content ≠ Part.manifest by decide,
      show Part.content ≠ Part.styles by decide]
  · by_cases styles : name = Part.styles
    · simp [styles, show Part.styles ≠ Part.manifest by decide,
        show Part.styles ≠ Part.content by decide]
    · by_cases manifest : name = Part.manifest
      · simp [manifest, show Part.manifest ≠ Part.content by decide,
          show Part.manifest ≠ Part.styles by decide]
      · simp [content, styles, manifest]

/-- What is found in the package when all parts were written. -/
theorem contentOf_writeParts {a b : Archive} (h : d.writeParts a = (.ok (), b)) (name : Text) :
    b.dirty = true ∧ contentOf b.held name =
      ((d.written? name).map Text.toBytes).or
        (((d.values.pictures.reverse.find? fun p => p.entry == name).bind
          (Picture.bytes? d.session.disk)).or (contentOf a.held name)) := by
  obtain ⟨a₁, put₁, h⟩ := editAll_cons_eq_ok_iff.1 h
  obtain ⟨a₂, put₂, h⟩ := editAll_cons_eq_ok_iff.1 h
  obtain ⟨a₃, put₃, h⟩ := editAll_cons_eq_ok_iff.1 h
  obtain ⟨a₄, pictures, h⟩ := editAll_cons_eq_ok_iff.1 h
  cases h
  obtain rfl := eq_having_of_putText put₁
  obtain rfl := eq_having_of_putText put₂
  obtain rfl := eq_having_of_putText put₃
  constructor
  · cases dirty : b.dirty with
    | true => rfl
    | false =>
      have clean := (Edits.putPictures d.session.disk false d.values.pictures).clean _
        (by rw [pictures]; exact dirty)
      rw [pictures] at clean
      rw [show b = _ from clean] at dirty
      cases dirty
  · rw [WorkingCopy.contentOf_putPictures pictures, contentOf_texts]
    cases text : d.written? name with
    | none => simp
    | some t =>
      rw [Picture.find?_entry_eq_none (head?_ne_of_written? text)]
      simp

/-! ### What a call does to the document -/

/-- All that can come of writing the result into the working copy. -/
theorem finalize_cases (d : Document) :
    (∃ cause, d.finalize = (.error (.markup cause), d.substitute)) ∨
    ∃ manifest, let e : Document := { d.substitute with manifest }
      d.finalize = ((e.session.withOpen e.writeParts).1.mapError exportError,
        { e with session := (e.session.withOpen e.writeParts).2 }) := by
  rw [finalize]
  simp only
  cases Manifest.addPictures d.substitute.manifest d.substitute.values.listed with
  | error cause => exact .inl ⟨cause, rfl⟩
  | ok manifest => exact .inr ⟨manifest, rfl⟩

section Finalize

variable (d)

@[simp] theorem content_finalize :
    d.finalize.2.content = d.values.bindings.apply d.content := by
  rcases finalize_cases d with ⟨cause, done⟩ | ⟨manifest, done⟩
  · rw [done]
    rfl
  · rw [done]
    rfl

@[simp] theorem meta_finalize : d.finalize.2.meta_ = d.meta_ := by
  rcases finalize_cases d with ⟨cause, done⟩ | ⟨manifest, done⟩
  · rw [done]
    rfl
  · rw [done]
    rfl

@[simp] theorem source_finalize : d.finalize.2.source = d.source := by
  rcases finalize_cases d with ⟨cause, done⟩ | ⟨manifest, done⟩
  · rw [done]
    rfl
  · rw [done]
    rfl

@[simp] theorem styles_finalize : d.finalize.2.styles = d.values.bindings.apply d.styles := by
  rcases finalize_cases d with ⟨cause, done⟩ | ⟨manifest, done⟩
  · rw [done]
    rfl
  · rw [done]
    rfl

@[simp] theorem values_finalize : d.finalize.2.values = d.values := by
  rcases finalize_cases d with ⟨cause, done⟩ | ⟨manifest, done⟩
  · rw [done]
    rfl
  · rw [done]
    rfl

@[simp] theorem segments_finalize : d.finalize.2.segments = d.segments := by
  rcases finalize_cases d with ⟨cause, done⟩ | ⟨manifest, done⟩
  · rw [done]
    rfl
  · rw [done]
    rfl

end Finalize

/-- Whether it succeeds or not, the working copy afterwards holds a package that differs only in the
texts and in the document's pictures. -/
theorem holds_finalize {members : List Held} (h : d.session.Holds members) :
    ∃ after, d.finalize.2.session.Holds after ∧ Keeps d.touched members after ∧
      (members.all Held.fits = true → after.all Held.fits = true) := by
  rcases finalize_cases d with ⟨cause, done⟩ | ⟨manifest, done⟩
  · rw [done]
    exact ⟨members, h, .refl _ _, id⟩
  · rw [done]
    exact Session.Holds.withOpen h (edits_writeParts { d.substitute with manifest })

/-- A package that could be written can still be written. -/
theorem ready_finalize {members : List Held} (h : d.session.Ready members) :
    ∃ after, d.finalize.2.session.Ready after ∧ Keeps d.touched members after := by
  rcases finalize_cases d with ⟨cause, done⟩ | ⟨manifest, done⟩
  · rw [done]
    exact ⟨members, h, .refl _ _⟩
  · rw [done]
    exact Session.Ready.withOpen h (edits_writeParts { d.substitute with manifest })

/-- When the result was written, that was done with the session and the values of the document. -/
theorem exists_of_finalize {after : Document} (h : d.finalize = (.ok (), after)) :
    ∃ e : Document, e.session = d.session ∧ e.values = d.values ∧
      (e.session.withOpen e.writeParts).1 = .ok () ∧
      after = { e with session := (e.session.withOpen e.writeParts).2 } := by
  rcases finalize_cases d with ⟨cause, done⟩ | ⟨manifest, done⟩
  · rw [done] at h
    cases h
  · rw [done, Prod.mk.injEq] at h
    obtain ⟨succeeded, rfl⟩ := h
    refine ⟨{ d.substitute with manifest }, rfl, rfl, ?_, rfl⟩
    generalize ({ d.substitute with manifest } : Document) = e at succeeded ⊢
    cases result : (e.session.withOpen e.writeParts).1 with
    | error cause => rw [result] at succeeded; cases succeeded
    | ok u => rfl

/-- When the result was written, all parts were put into the package, and all of it was written. -/
theorem exists_written_of_finalize {after : Document} (h : d.finalize = (.ok (), after)) :
    ∃ (e : Document) (location : Location) (members : List Held) (b : Archive),
      e.session = d.session ∧ e.values = d.values ∧ d.session.Holds members ∧
      e.writeParts ⟨some location, members, false⟩ = (.ok (), b) ∧
      b.held.all Held.fits = true ∧
      after.session.Holds (rewritten b.held) ∧
      after = { e with session := after.session } := by
  obtain ⟨e, session, values, succeeded, rfl⟩ := exists_of_finalize h
  obtain ⟨members, held⟩ := Session.holds_of_withOpen_ok succeeded
  obtain ⟨location, cases⟩ := Session.withOpen_cases held (edits_writeParts e)
  rcases put : e.writeParts ⟨some location, members, false⟩ with ⟨result, b⟩
  have done : result = .ok () := by
    rcases cases _ put with ⟨-, answer, -⟩ | ⟨-, -, answer, -⟩ | ⟨-, -, ⟨cause, answer⟩, -⟩
    · exact answer.symm.trans succeeded
    · exact answer.symm.trans succeeded
    · rw [succeeded] at answer
      cases answer
  subst done
  have dirty : b.dirty = true := (contentOf_writeParts put []).1
  rcases cases _ put with ⟨clean, -⟩ | ⟨-, fits, -, saved⟩ | ⟨-, -, ⟨cause, answer⟩, -⟩
  · rw [dirty] at clean
    cases clean
  · exact ⟨e, location, members, b, session, values, session ▸ held, put, fits, saved, rfl⟩
  · rw [succeeded] at answer
    cases answer

/-- What is in the package when the result was written: the three texts, then the document's
pictures, of which the last of a name counts, and for all other names what was there before. -/
theorem exists_holds_of_finalize {after : Document} (h : d.finalize = (.ok (), after)) :
    ∃ members saved, d.session.Holds members ∧ after.session.Holds saved ∧
      Keeps d.touched members saved ∧ saved.all Held.fits = true ∧
      ∀ {name}, Ordinary name → contentOf saved name =
        ((after.written? name).map Text.toBytes).or
          (((d.values.pictures.reverse.find? fun p => p.entry == name).bind
            (Picture.bytes? d.session.disk)).or (contentOf members name)) := by
  obtain ⟨e, location, members, b, session, values, held, put, fits, saved, same⟩ :=
    exists_written_of_finalize h
  have kept := (edits_writeParts e).keeps ⟨some location, members, false⟩
  rw [put, touched, values] at kept
  refine ⟨members, _, held, saved, kept.trans (.rewritten _ _), Archive.all_fits_rewritten fits,
    fun {name} ordinary => ?_⟩
  rw [Archive.contentOf_rewritten ordinary, (contentOf_writeParts put name).2, session, values, same]
  rfl

/-! ## The ways to save -/

/-- A call by which a document is saved. -/
inductive SaveCall where
  /-- Answers the file. -/
  | toFile
  /-- Hands the file to a writer. -/
  | writeTo (writer : File → Except DiskError Unit)
  /-- Writes the file to a path, or else over the template. -/
  | save (destination? : Option Text)

namespace SaveCall

/-- Makes the call.  If it succeeds, the file that was written is answered. -/
def call : SaveCall → Document → Except Error File × Document
  | .toFile, d => d.toFile
  | .writeTo writer, d => ((d.writeTo writer).1.bind fun _ => d.toFile.1, (d.writeTo writer).2)
  | .save destination?, d =>
    let saved := d.save destination?
    (saved.1.bind fun _ =>
      (saved.2.session.disk.read (destination?.getD d.source)).mapError .io, saved.2)

/-- Makes one call after another, whatever they answer. -/
def run : List SaveCall → Document → Document
  | [], d => d
  | c :: calls, d => run calls (c.call d).2

end SaveCall

/-- All that can come of asking for the file of the result. -/
theorem toFile_cases (d : Document) :
    (∃ cause, d.toFile = (.error cause, d.finalize.2)) ∨
    ∃ w file, d.finalize.1 = .ok () ∧ d.finalize.2.session.working = some w ∧
      d.finalize.2.session.disk.temporary? w.file = some file ∧
      d.toFile = (.ok file, d.finalize.2) := by
  rw [toFile]
  rcases d.finalize with ⟨cause | _, e⟩
  · exact .inl ⟨cause, rfl⟩
  · simp only
    cases working : e.session.working with
    | none => exact .inl ⟨_, rfl⟩
    | some w =>
      simp only [Disk.fetch]
      cases content : e.session.disk.temporary? w.file with
      | none => exact .inl ⟨_, rfl⟩
      | some file => exact .inr ⟨w, file, trivial, rfl, content, rfl⟩

/-- Asking for the file does no more than to write the result into the working copy. -/
theorem snd_toFile (d : Document) : d.toFile.2 = d.finalize.2 := by
  rcases d.toFile_cases with ⟨cause, failed⟩ | ⟨w, file, -, -, -, done⟩
  · rw [failed]
  · rw [done]

theorem snd_writeTo (d : Document) (writer : File → Except DiskError Unit) :
    (d.writeTo writer).2 = d.finalize.2 := by
  rw [← snd_toFile, writeTo]
  rcases d.toFile with ⟨cause | file, e⟩
  · rfl
  · rfl

/-- All that can come of saving at a path. -/
theorem save_cases (d : Document) (destination? : Option Text) :
    (∃ cause, d.save destination? = (.error cause, d.finalize.2)) ∨
    ∃ w file disk, d.finalize.1 = .ok () ∧ d.finalize.2.session.working = some w ∧
      d.finalize.2.session.disk.temporary? w.file = some file ∧
      d.finalize.2.session.disk.write (destination?.getD d.source) file = .ok disk ∧
      d.save destination? =
        (.ok (), { d.finalize.2 with session := { d.finalize.2.session with disk } }) := by
  rw [← source_finalize d, save]
  rcases d.finalize with ⟨cause | _, e⟩
  · exact .inl ⟨cause, rfl⟩
  · simp only
    cases working : e.session.working with
    | none => exact .inl ⟨_, rfl⟩
    | some w =>
      simp only [Disk.fetch]
      cases content : e.session.disk.temporary? w.file with
      | none => exact .inl ⟨_, rfl⟩
      | some file =>
        cases copied : e.session.disk.write (destination?.getD e.source) file with
        | error cause => exact .inl ⟨_, by simp only [Except.bind, copied]; rfl⟩
        | ok disk =>
          exact .inr
            ⟨w, file, disk, trivial, rfl, content, copied, by simp only [Except.bind, copied]⟩

namespace SaveCall

/-- All that can come of a call.  When the result cannot be written, or is refused, the document is
left as it was when it was written into the working copy.  Otherwise the file answered is the
working copy, and only files that have a path may have changed besides. -/
theorem call_cases (c : SaveCall) (d : Document) :
    (∃ cause, c.call d = (.error cause, d.finalize.2)) ∨
    ∃ w file disk, d.finalize.1 = .ok () ∧ d.finalize.2.session.working = some w ∧
      d.finalize.2.session.disk.temporary? w.file = some file ∧
      (∀ t, disk.temporary? t = d.finalize.2.session.disk.temporary? t) ∧
      Disk.Alike d.finalize.2.session.disk disk ∧
      c.call d = (.ok file, { d.finalize.2 with session := { d.finalize.2.session with disk } }) := by
  cases c with
  | toFile =>
    rcases d.toFile_cases with failed | ⟨w, file, done, working, content, answer⟩
    · exact .inl failed
    · exact .inr ⟨w, file, _, done, working, content, fun _ => rfl, .refl _, answer⟩
  | writeTo writer =>
    simp only [call]
    rw [Document.writeTo]
    rcases d.toFile_cases with ⟨cause, failed⟩ | ⟨w, file, done, working, content, answer⟩
    · rw [failed]
      exact .inl ⟨cause, rfl⟩
    · rw [answer]
      cases writing : writer file with
      | error cause => exact .inl ⟨_, by simp only [writing]; rfl⟩
      | ok u =>
        refine .inr ⟨w, file, _, done, working, content, fun _ => rfl, .refl _, ?_⟩
        simp only [writing]
        rfl
  | save destination? =>
    simp only [call]
    rcases d.save_cases destination? with
      ⟨cause, failed⟩ | ⟨w, file, disk, done, working, content, copied, answer⟩
    · rw [failed]
      exact .inl ⟨cause, rfl⟩
    · rw [answer]
      refine .inr ⟨w, file, disk, done, working, content, Disk.temporary?_write copied,
        (Disk.alike_write copied).1, ?_⟩
      simp only [Except.bind, Disk.read_write copied]
      rfl

/-- A call leaves the document as it was when it was written into the working copy, but for the
session. -/
theorem exists_session_of_call (c : SaveCall) (d : Document) :
    ∃ session, (c.call d).2 = { d.finalize.2 with session } := by
  rcases c.call_cases d with ⟨cause, failed⟩ | ⟨w, file, disk, -, -, -, -, -, done⟩
  · exact ⟨d.finalize.2.session, by rw [failed]⟩
  · exact ⟨_, congrArg Prod.snd done⟩

/-- A call, also one that fails, puts the values into the texts and keeps the values. -/
theorem texts_after_call (c : SaveCall) (d : Document) :
    (c.call d).2.content = d.values.bindings.apply d.content ∧
      (c.call d).2.styles = d.values.bindings.apply d.styles ∧ (c.call d).2.values = d.values := by
  obtain ⟨session, same⟩ := c.exists_session_of_call d
  rw [same]
  exact ⟨content_finalize d, styles_finalize d, values_finalize d⟩

/-- A call keeps the segments. -/
theorem segments_after_call (c : SaveCall) (d : Document) :
    (c.call d).2.segments = d.segments := by
  obtain ⟨session, same⟩ := c.exists_session_of_call d
  rw [same]
  exact segments_finalize d

/-- A call that succeeds has written the result into the package, and answers the package. -/
theorem finalize_of_call {c : SaveCall} {d after : Document} {file : File}
    (h : c.call d = (.ok file, after)) :
    d.finalize = (.ok (), d.finalize.2) ∧
      ∀ members, d.finalize.2.session.Holds members → file.read = .ok members := by
  rcases c.call_cases d with ⟨cause, failed⟩ | ⟨w, file', disk, done, working, content, -, -, answer⟩
  · rw [failed] at h
    cases h
  · rw [answer] at h
    cases h
    refine ⟨Prod.ext done rfl, ?_⟩
    rintro members ⟨w', file', working', -, content', read⟩
    rw [working] at working'
    cases working'
    rw [content] at content'
    cases content'
    exact read

/-- What is in the file that a successful call writes: the three texts, then the document's pictures,
and for all other names what the working copy held before. -/
theorem exists_members_of_call {c : SaveCall} {d after : Document} {file : File}
    (h : c.call d = (.ok file, after)) :
    ∃ members saved, d.session.Holds members ∧ file.read = .ok saved ∧
      Keeps d.touched members saved ∧ saved.all Held.fits = true ∧
      ∀ {name}, Ordinary name → contentOf saved name =
        ((d.finalize.2.written? name).map Text.toBytes).or
          (((d.values.pictures.reverse.find? fun p => p.entry == name).bind
            (Picture.bytes? d.session.disk)).or (contentOf members name)) := by
  obtain ⟨finalized, reads⟩ := finalize_of_call h
  obtain ⟨members, saved, held, held', kept, fits, found⟩ := exists_holds_of_finalize finalized
  exact ⟨members, saved, held, reads saved held', kept, fits, found⟩

/-- A successful call writes the texts with the values in them. -/
theorem texts_of_call {c : SaveCall} {d after : Document} {file : File}
    (h : c.call d = (.ok file, after)) :
    file.text? Part.content = some (d.values.bindings.apply d.content) ∧
      file.text? Part.styles = some (d.values.bindings.apply d.styles) := by
  obtain ⟨members, saved, -, read, -, -, found⟩ := exists_members_of_call h
  have names : Ordinary Part.content ∧ Ordinary Part.styles :=
    ⟨⟨by decide, by decide⟩, ⟨by decide, by decide⟩⟩
  rw [File.text?, File.text?, read]
  simp only
  rw [found names.1, found names.2, ← content_finalize, ← styles_finalize]
  constructor
  · show Option.bind (some d.finalize.2.content.toBytes) Text.ofBytes? = _
    rw [Option.bind_some, Text.ofBytes?_toBytes]
  · show Option.bind (some d.finalize.2.styles.toBytes) Text.ofBytes? = _
    rw [Option.bind_some, Text.ofBytes?_toBytes]

/-- Each of several calls puts the values into the texts once more. -/
theorem texts_after_run (calls : List SaveCall) (d : Document) :
    (run calls d).content = (d.values.bindings.apply)^[calls.length] d.content ∧
      (run calls d).styles = (d.values.bindings.apply)^[calls.length] d.styles ∧
      (run calls d).values = d.values := by
  induction calls generalizing d with
  | nil => exact ⟨rfl, rfl, rfl⟩
  | cons c calls ih =>
    obtain ⟨content, styles, values⟩ := c.texts_after_call d
    obtain ⟨content', styles', values'⟩ := ih (c.call d).2
    rw [values, content] at content'
    rw [values, styles] at styles'
    exact ⟨content', styles', values'.trans values⟩

/-- A file whose texts are the given ones. -/
def Wrote (file : File) (content styles : Text) : Prop :=
  file.text? Part.content = some content ∧ file.text? Part.styles = some styles

/-- The file of the last of several calls has the texts into which the values were put as often as
there were calls. -/
theorem wrote_iterated {d after : Document} {earlier : List SaveCall} {last : SaveCall}
    {file : File} (h : last.call (run earlier d) = (.ok file, after)) :
    Wrote file ((d.values.bindings.apply)^[earlier.length + 1] d.content)
      ((d.values.bindings.apply)^[earlier.length + 1] d.styles) := by
  obtain ⟨content, styles, values⟩ := texts_after_run earlier d
  have texts := texts_of_call h
  rw [values, content, styles] at texts
  rw [Function.iterate_succ_apply', Function.iterate_succ_apply']
  exact texts

/-- A text that does not change when the values are put in a second time is the same however often
they are put in. -/
theorem iterate_apply_of_once {b : Bindings} {t : Text} (once : b.apply (b.apply t) = b.apply t)
    (n : Nat) : b.apply^[n + 1] t = b.apply t := by
  induction n with
  | zero => rfl
  | succ n ih => rw [Function.iterate_succ_apply', ih, once]

/-- **How often the values are put into the texts.**  Calls that save a document put its values into
its texts once each, also those calls that fail.  If a second call succeeds at all, then all
successful calls, after whatever others, write the texts with the values put in once exactly when
putting them in twice is the same as once.  This is so if no bound tag occurs in the texts with the
values. -/
theorem texts_saved_once_iff {d after : Document} {first second : SaveCall} {file : File}
    (again : second.call (first.call d).2 = (.ok file, after)) :
    let values := d.values.bindings.apply
    (∀ earlier last file after, SaveCall.call last (run earlier d) = (.ok file, after) →
      Wrote file (values^[earlier.length + 1] d.content)
        (values^[earlier.length + 1] d.styles)) ∧
    ((∀ earlier last file after, SaveCall.call last (run earlier d) = (.ok file, after) →
        Wrote file (values d.content) (values d.styles)) ↔
      values (values d.content) = values d.content ∧
        values (values d.styles) = values d.styles) ∧
    ((∀ tag ∈ d.values.bindings.tags, ¬ tag <:+: values d.content ∧ ¬ tag <:+: values d.styles) →
      values (values d.content) = values d.content ∧
        values (values d.styles) = values d.styles) := by
  intro values
  refine ⟨fun _ _ _ _ saved => wrote_iterated saved, ⟨fun once => ?_, fun once => ?_⟩,
    fun free => ?_⟩
  · have twice : Wrote file (values (values d.content)) (values (values d.styles)) :=
      wrote_iterated (show second.call (run [first] d) = (.ok file, after) from again)
    have single := once [first] second file after again
    rw [Wrote, twice.1, twice.2, Option.some.injEq, Option.some.injEq] at single
    exact single
  · intro earlier last file after saved
    have wrote := wrote_iterated saved
    rw [iterate_apply_of_once once.1, iterate_apply_of_once once.2] at wrote
    exact wrote
  · exact ⟨Bindings.apply_of_free fun tag mem => (free tag mem).1,
      Bindings.apply_of_free fun tag mem => (free tag mem).2⟩

/-! ## Two saves of one document -/

/-- A document of one text, with an empty package and with the given values. -/
def plain (content : Text) (values : List (Text × Text)) : Document where
  source := "t".toList
  session := ⟨Config.standard, some ⟨⟨"w".toList, 0, Disk.temporaryDirectory⟩, Archive.closed⟩,
    { Disk.empty with temporaries := [(0, .package [])] }⟩
  content := content
  styles := []
  meta_ := []
  manifest := []
  values := values.foldl (fun values (key, value) =>
    values.bind (Config.standard.tag key) value true) Values.empty
  segments := []

/-- A value without tags is put in once, however often the document is saved. -/
theorem texts_saved_once_iff_one_value :
    let d := plain "<\x7ba\x7d>".toList [("a".toList, "1".toList)]
    ∀ earlier last file after, SaveCall.call last (run earlier d) = (.ok file, after) →
      Wrote file "<1>".toList [] := by
  intro d
  have again : (toFile.call (toFile.call d).2).1.toOption.isSome = true := by decide +kernel
  rcases saved : toFile.call (toFile.call d).2 with ⟨_ | file, after⟩
  · rw [saved] at again
    cases again
  · have values : d.values.bindings.apply d.content = "<1>".toList ∧
        d.values.bindings.apply d.styles = [] := by decide +kernel
    have free : ∀ tag ∈ d.values.bindings.tags,
        ¬ tag <:+: d.values.bindings.apply d.content ∧
          ¬ tag <:+: d.values.bindings.apply d.styles := by
      rw [values.1, values.2]
      decide +kernel
    obtain ⟨-, once, enough⟩ := texts_saved_once_iff saved
    have wrote := once.2 (enough free)
    rw [values.1, values.2] at wrote
    exact wrote

/-- A value that is the tag of another variable is replaced when the document is saved again. -/
theorem texts_saved_twice_differ :
    let d := plain "\x7ba\x7d|\x7bb\x7d".toList
      [("a".toList, "\x7bb\x7d".toList), ("b".toList, "x".toList)]
    ∃ once twice after, toFile.call d = (.ok once, (toFile.call d).2) ∧
      toFile.call (toFile.call d).2 = (.ok twice, after) ∧
      once.text? Part.content = some "\x7bb\x7d|x".toList ∧
      twice.text? Part.content = some "x|x".toList := by
  intro d
  have both : (toFile.call d).1.toOption.isSome = true ∧
      (toFile.call (toFile.call d).2).1.toOption.isSome = true := by decide +kernel
  have values : d.values.bindings.apply d.content = "\x7bb\x7d|x".toList ∧
      d.values.bindings.apply (d.values.bindings.apply d.content) = "x|x".toList := by
    decide +kernel
  rcases first : toFile.call d with ⟨_ | once, e⟩
  · rw [first] at both
    cases both.1
  · rcases second : toFile.call e with ⟨_ | twice, after⟩
    · rw [first] at both
      have := both.2
      rw [second] at this
      cases this
    · refine ⟨once, twice, after, rfl, rfl, ?_, ?_⟩
      · rw [(texts_of_call first).1, values.1]
      · have last : toFile.call (run [toFile] d) = (.ok twice, after) := by
          rw [run, run, first]
          exact second
        rw [(wrote_iterated last).1]
        exact congrArg some values.2

end SaveCall

end Document

end DocumentMerge
