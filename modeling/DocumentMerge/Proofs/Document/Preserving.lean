import DocumentMerge.Proofs.Document.Atomicity
import DocumentMerge.Proofs.Document.Effects
import DocumentMerge.Proofs.Document.Frames

/-!
# What saving preserves

A document is used and saved, and others change the files around it.  The package that is saved is the
template with some members put into it: the four texts and the pictures of images that were bound.  On
the way the package may have been written many times, by merges, when properties were set, and when the
document was saved before; of all this only what was put can be seen in the end.

* `Session.Rewrites`: whatever package a session holds, the other holds what some edits make of it.
  `rewrites_act`: a call that sets no property rewrites the package under the names that it may touch.
* `Preserves` is the invariant of the package, with the step `Preserves.event`.  `MetaWritten` is that
  of the metadata, which setting a property writes at once; it is kept by all calls but those that
  change the metadata and fail to write it (`metaWritten_act`).
* `read_act_elsewhere`: a call leaves all files but the one that it saves.
* `BoundIn`: an image was bound in a course.  `boundIn_of_mem_allPictures`: no other picture is new.
* `saved_package`: the package that is saved, member by member.
* `saved_directory_stored`: a directory that the template keeps compressed is not in what is saved.
-/

namespace DocumentMerge

open Zip (Held)
open Archive (contentOf compressionOf Puts rewritten putAll mimetypeFirst)

/-- Bytes that can be read as a text are those of the text. -/
theorem Text.toBytes_of_ofBytes? {data : ByteArray} {t : Text} (h : ofBytes? data = some t) :
    t.toBytes = data := by
  obtain ⟨chars, decoded, rfl⟩ := Option.map_eq_some_iff.1 h
  obtain ⟨l, rfl⟩ := ByteArray.isSome_utf8Decode?_iff.1 (by rw [decoded]; rfl)
  rw [List.utf8Decode?_utf8Encode] at decoded
  cases decoded
  rfl

theorem exists_ok_of_bind {ε α β : Type} {r : Except ε α} {f : α → Except ε β} {b : β}
    (h : (r >>= f) = .ok b) : ∃ a, r = .ok a ∧ f a = .ok b := by
  rcases r with cause | a
  · cases h
  · exact ⟨a, rfl, h⟩

/-! ## Sessions whose packages are rewritten -/

/-- Whatever package the first session holds, the second one holds what edits under the given names
make of it. -/
def Session.Rewrites (touched : List Text) (σ τ : Session) : Prop :=
  ∀ members, σ.Holds members → ∃ after, τ.Holds after ∧ Archive.Rewrites touched members after

namespace Session.Rewrites

variable {touched more : List Text} {σ τ υ : Session}

theorem refl (σ : Session) : σ.Rewrites touched σ :=
  fun members held => ⟨members, held, .same⟩

theorem trans (first : σ.Rewrites touched τ) (next : τ.Rewrites touched υ) :
    σ.Rewrites touched υ := by
  intro members held
  obtain ⟨middle, held, written⟩ := first members held
  obtain ⟨after, held, written'⟩ := next middle held
  exact ⟨after, held, written.trans written'⟩

theorem mono (h : σ.Rewrites touched τ) (sub : touched ⊆ more) : σ.Rewrites more τ := by
  intro members held
  obtain ⟨after, held, written⟩ := h members held
  exact ⟨after, held, written.mono sub⟩

theorem embed (σ : Session) (pictures : List Picture) :
    σ.Rewrites (pictures.map Picture.entry) (σ.embed pictures).2 := by
  intro members held
  by_cases empty : pictures = []
  · subst empty
    rw [embed_nil held]
    exact ⟨members, held, .same⟩
  · rw [embed_eq_withOpen held empty]
    exact held.rewrites (Puts.putPictures _ _ _)

end Session.Rewrites

/-- A merge, also one that fails, puts nothing but pictures of the segments below it. -/
theorem Segment.rewrites_merge (s : Segment) (σ : Session) :
    σ.Rewrites (s.allPictures.map Picture.entry) (merge s σ).2.2 := by
  refine (within_merge (E := fun _ => True) (fun f mem τ h => ⟨h.trans ?_, fun _ _ => trivial⟩)
    σ (Session.Rewrites.refl σ)).1
  refine (Session.Rewrites.embed τ _).mono (List.map_subset _ fun p here => ?_)
  exact List.mem_flatMap.2 ⟨f, mem, here⟩

namespace Document

/-! ## The package -/

/-- The names of the texts that are written when a document is saved. -/
def savedTexts : List Text :=
  [Part.content, Part.styles, Part.manifest]

/-- The names of the members that the pictures of a document have, its own and those of its
segments. -/
def pictureNames (d : Document) : List Text :=
  d.allPictures.map Picture.entry

theorem pictureNames_subset_act (a : Action) (d : Document) :
    d.pictureNames ⊆ (a.act d).2.pictureNames :=
  List.map_subset _ (grows_act a d).old

/-- They lie among the pictures. -/
theorem head?_of_mem_pictureNames {d : Document} {name : Text} (mem : name ∈ d.pictureNames) :
    name.head? = some 'P' := by
  obtain ⟨p, -, rfl⟩ := List.mem_map.1 mem
  rfl

theorem meta_notMem_saved (d : Document) : Part.meta_ ∉ savedTexts ++ d.pictureNames := by
  intro mem
  rcases List.mem_append.1 mem with text | picture
  · revert text
    decide
  · exact absurd (head?_of_mem_pictureNames picture) (by decide)

/-- Saving puts the three texts and the document's own pictures. -/
theorem rewrites_finalize (d : Document) :
    d.session.Rewrites (savedTexts ++ d.pictureNames) d.finalize.2.session := by
  rcases finalize_cases d with ⟨cause, done⟩ | ⟨manifest, done⟩
  · rw [done]
    exact .refl _
  · rw [done]
    intro members held
    obtain ⟨after, held', written⟩ := Session.Holds.rewrites (σ := d.session) held
      (puts_writeParts { d.substitute with manifest })
    refine ⟨after, held', written.mono ?_⟩
    exact append_subset_append (List.Subset.refl _)
      (List.map_subset _ (List.subset_append_left _ _))

section Unset

variable {a : Action} (unset : ∀ key value encode, a ≠ .setProperty key value encode)
  (d : Document)

include unset

/-- Only setting a property changes the metadata. -/
theorem meta_act : (a.act d).2.meta_ = d.meta_ := by
  have effect := effect_act a d
  generalize (a.act d).2 = after at effect ⊢
  cases effect with
  | none => rfl
  | bound => rfl
  | declared ok => obtain ⟨segments, rfl⟩ := exists_of_declareSegment ok; rfl
  | called ok => obtain ⟨segments, rfl⟩ := exists_of_declareSegment ok; rfl
  | merged => rfl
  | property => exact absurd rfl (unset _ _ _)
  | @saved call =>
    obtain ⟨session, same⟩ := call.exists_session_of_call d
    rw [same]
    exact meta_finalize d

/-- Any other call puts some of the other texts and of the pictures into the package, if it writes the
package at all. -/
theorem rewrites_act :
    d.session.Rewrites (savedTexts ++ (a.act d).2.pictureNames) (a.act d).2.session := by
  have pictures := pictureNames_subset_act a d
  rcases session_act_cases a d with
    ⟨still, -⟩ | ⟨name, path, e, rfl, declared, merged⟩ | ⟨key, value, encode, sets, -⟩ | ⟨call, rfl⟩
  · rw [still]
    exact .refl _
  · rw [merged]
    cases found : Segment.at? (name :: path) e.root with
    | none =>
      rw [Segment.onPath_of_none found]
      exact .refl _
    | some n =>
      obtain ⟨around, -, -, -, -, calls⟩ := Segment.exists_around found
      have session : (Segment.onPath Segment.merge (name :: path) e.root d.session).2.2
          = (Segment.merge n d.session).2.2 := by
        rw [calls Segment.merge d.session]
      have below : n.allPictures ⊆ d.allPictures := fun p mem => by
        have grown := (grows_declareSegment declared).1.fresh
          (List.mem_append_right _ (Segment.allPictures_at?_subset found mem))
        rwa [List.append_nil] at grown
      rw [session]
      refine (n.rewrites_merge d.session).mono (List.Subset.trans ?_ (List.subset_append_right _ _))
      exact List.Subset.trans (List.map_subset _ below) pictures
  · exact absurd sets (unset key value encode)
  · intro members held
    obtain ⟨after, held', rewrites⟩ := rewrites_finalize d members held
    exact ⟨after, holds_call call held',
      rewrites.mono (append_subset_append (List.Subset.refl _) pictures)⟩

end Unset

/-- What is known of the package of a document all along its use: it is the template with some
members put into it. -/
def Preserves (template : List Held) (d : Document) : Prop :=
  ∃ members, d.session.Holds members ∧
    Archive.Rewrites (Part.meta_ :: (savedTexts ++ d.pictureNames)) template members

/-- **One event.** -/
theorem Preserves.event {template : List Held} {d : Document} (h : Preserves template d)
    (e : Event) : Preserves template (e.happen d) := by
  obtain ⟨members, held, rewrites⟩ := h
  cases e with
  | outside disk => exact ⟨members, holds_outside held disk, rewrites⟩
  | call a =>
    have grown : Part.meta_ :: (savedTexts ++ d.pictureNames)
        ⊆ Part.meta_ :: (savedTexts ++ (a.act d).2.pictureNames) :=
      List.cons_subset_cons _
        (append_subset_append (List.Subset.refl _) (pictureNames_subset_act a d))
    by_cases sets : ∃ key value encode, a = .setProperty key value encode
    · obtain ⟨key, value, encode, rfl⟩ := sets
      rcases d.setProperty_cases key value encode with ⟨cause, failed⟩ | ⟨t, answer, τ, put, done⟩
      · rw [Event.happen, Action.act, failed]
        exact ⟨members, held, rewrites⟩
      · obtain ⟨after, held', written⟩ := held.rewrites (Puts.putText Part.meta_ t)
        rw [put] at held'
        rw [Event.happen, Action.act, done]
        rw [Action.act, done] at grown
        exact ⟨after, held', (rewrites.mono grown).trans (written.mono (by simp))⟩
    · have unset : ∀ key value encode, a ≠ .setProperty key value encode :=
        fun key value encode same => sets ⟨key, value, encode, same⟩
      obtain ⟨after, held', written⟩ := rewrites_act unset d members held
      exact ⟨after, held', (rewrites.mono grown).trans
        (written.mono (List.subset_cons_self _ _))⟩

/-- **A course.** -/
theorem Preserves.course {template : List Held} {d : Document} (h : Preserves template d)
    (events : List Event) : Preserves template (course events d) := by
  induction events generalizing d with
  | nil => exact h
  | cons e events ih => exact ih (h.event e)

/-! ## The metadata -/

/-- The metadata of the document is in its package. -/
def MetaWritten (d : Document) : Prop :=
  ∃ members, d.session.Holds members ∧ contentOf members Part.meta_ = some d.meta_.toBytes

/-- Whether the metadata is still to be written after a call, if it was before or not: setting a
property writes all of it, and a call that changes it and fails does not. -/
def Action.metaPending (a : Action) (d : Document) (pending : Bool) : Bool :=
  match a, (a.act d).1 with
  | .setProperty _ _ _, .ok () => false
  | _, _ => pending || (a.act d).2.meta_ != d.meta_

/-- Whether the metadata is still to be written after a course. -/
def metaPending : List Event → Document → Bool → Bool
  | [], _, pending => pending
  | .call a :: events, d, pending => metaPending events (a.act d).2 (a.metaPending d pending)
  | .outside disk :: events, d, pending => metaPending events ((Event.outside disk).happen d) pending

/-- **One call.** -/
theorem metaWritten_act {d : Document} {members : List Held} {pending : Bool} {a : Action}
    (held : d.session.Holds members) (h : pending = false → MetaWritten d)
    (done : a.metaPending d pending = false) : MetaWritten (a.act d).2 := by
  by_cases sets : ∃ key value encode, a = .setProperty key value encode
  · obtain ⟨key, value, encode, rfl⟩ := sets
    rcases d.setProperty_cases key value encode with ⟨cause, failed⟩ | ⟨t, answer, τ, put, sets⟩
    · have acted : (Action.setProperty key value encode).act d = (.error cause, d) := failed
      rw [Action.metaPending.eq_def, acted] at done
      rw [acted]
      exact h (Bool.or_eq_false_iff.1 done).1
    · obtain ⟨after, held', -, -, outcome⟩ :=
        held.putText ⟨by decide, by decide⟩ (show Part.meta_.toBytes.size ≤ _ by decide) t
      rw [put] at held' outcome
      have acted : (Action.setProperty key value encode).act d
        = (answer, { d with meta_ := t, session := τ }) := sets
      rw [Action.metaPending.eq_def, acted] at done
      rw [acted]
      refine ⟨after, held', ?_⟩
      rcases outcome with ⟨-, found⟩ | ⟨⟨cause, failed⟩, rfl⟩
      · exact found
      · obtain rfl : answer = .error cause := failed
        obtain ⟨settled, same⟩ := Bool.or_eq_false_iff.1 done
        obtain ⟨members', held'', text⟩ := h settled
        obtain rfl := held.unique held''
        rw [text, show t = d.meta_ from bne_eq_false_iff_eq.1 same]
  · have unset : ∀ key value encode, a ≠ .setProperty key value encode :=
      fun key value encode same => sets ⟨key, value, encode, same⟩
    have settled : pending = false := by
      rw [Action.metaPending.eq_def] at done
      split at done
      · exact absurd rfl (unset _ _ _)
      · exact (Bool.or_eq_false_iff.1 done).1
    obtain ⟨members', held'', text⟩ := h settled
    obtain ⟨after, held', put⟩ := rewrites_act unset d members' held''
    refine ⟨after, held', ?_⟩
    rw [put.contentOf_eq ⟨by decide, by decide⟩ (meta_notMem_saved _), text, meta_act unset d]

/-- **A course.** -/
theorem metaWritten_course {template : List Held} {d : Document} {pending : Bool}
    {events : List Event} (preserved : Preserves template d) (h : pending = false → MetaWritten d)
    (done : metaPending events d pending = false) : MetaWritten (course events d) := by
  induction events generalizing d pending with
  | nil => exact h done
  | cons e events ih =>
    obtain ⟨members, held, -⟩ := id preserved
    cases e with
    | call a => exact ih (preserved.event _) (metaWritten_act held h) done
    | outside disk =>
      refine ih (preserved.event _) (fun settled => ?_) done
      obtain ⟨members, held, text⟩ := h settled
      exact ⟨members, holds_outside held disk, text⟩

/-! ## Opening -/

/-- A text that was read is in the package. -/
theorem contentOf_of_readPart {location : Location} {members : List Held} {name t : Text}
    (h : readPart ⟨some location, members, false⟩ name = .ok t) :
    contentOf members name = some t.toBytes := by
  rw [readPart] at h
  split at h
  · cases h
  · cases h
  · cases read : Archive.text ⟨some location, members, false⟩ name with
    | error cause => rw [read] at h; cases h
    | ok found =>
      rw [read] at h
      cases h
      simp only [Archive.text, Archive.bytes, Archive.members, Archive.find?] at read
      rw [contentOf]
      cases there : members.find? fun m => m.name == name with
      | none => rw [there] at read; cases read
      | some m =>
        rw [there] at read
        simp only at read
        cases decoded : Text.ofBytes? m.data with
        | none => rw [decoded] at read; cases read
        | some text =>
          rw [decoded] at read
          cases read
          rw [Option.map_some, Text.toBytes_of_ofBytes? decoded]

/-- A document that was opened has the package of its template, with the four texts. -/
theorem preserves_of_openAt {disk after : Disk} {path : Text} {config : Config} {d : Document}
    (h : openAt disk path config = (.ok d, after)) :
    ∃ template, Archive.load disk (.path path) = .ok template ∧ Preserves template d ∧
      MetaWritten d ∧ ∀ name ∈ Part.meta_ :: savedTexts, name ∈ template.map Held.name := by
  obtain ⟨members, location, parts, loaded, held, -, reads, -, -, -, same⟩ :=
    exists_parts_of_openAt h
  rw [readParts] at reads
  obtain ⟨content, readContent, reads⟩ := exists_ok_of_bind reads
  obtain ⟨styles, readStyles, reads⟩ := exists_ok_of_bind reads
  obtain ⟨manifest, readManifest, reads⟩ := exists_ok_of_bind reads
  obtain ⟨meta_, readMeta, reads⟩ := exists_ok_of_bind reads
  cases reads
  have there {name t : Text} (found : contentOf members name = some t.toBytes) :
      name ∈ members.map Held.name := by
    obtain ⟨m, first, -⟩ := Option.map_eq_some_iff.1 found
    have named : m.name = name := by simpa using List.find?_some first
    exact named ▸ List.mem_map_of_mem (List.mem_of_find?_eq_some first)
  refine ⟨members, loaded, ⟨members, held, .same⟩, ⟨members, held, ?_⟩, fun name mem => ?_⟩
  · rw [contentOf_of_readPart readMeta, same]
  · simp only [savedTexts, List.mem_cons, List.not_mem_nil, or_false] at mem
    rcases mem with rfl | rfl | rfl | rfl
    · exact there (contentOf_of_readPart readMeta)
    · exact there (contentOf_of_readPart readContent)
    · exact there (contentOf_of_readPart readStyles)
    · exact there (contentOf_of_readPart readManifest)

/-! ## Files besides the package -/

/-- Temporary files are no directories. -/
theorem alike_of_bare_eq {d e : Disk} (same : e.bare = d.bare) : Disk.Alike d e := by
  have nodes : e.bare.nodes = d.bare.nodes := congrArg Disk.nodes same
  have current : e.bare.current = d.bare.current := congrArg Disk.current same
  have refuses : e.bare.refuses = d.bare.refuses := congrArg Disk.refuses same
  refine ⟨current, refuses, fun place => ?_⟩
  rw [Disk.node?, Disk.node?, show e.nodes = d.nodes from nodes]

theorem source_act (a : Action) (d : Document) : (a.act d).2.source = d.source := by
  have effect := effect_act a d
  generalize (a.act d).2 = after at effect ⊢
  cases effect with
  | none => rfl
  | bound => rfl
  | declared ok => obtain ⟨segments, rfl⟩ := exists_of_declareSegment ok; rfl
  | called ok => obtain ⟨segments, rfl⟩ := exists_of_declareSegment ok; rfl
  | merged => rfl
  | property => rfl
  | @saved call =>
    obtain ⟨session, same⟩ := call.exists_session_of_call d
    rw [same]
    exact source_finalize d

/-- The path at which a call saves a document with a template. -/
def Action.destination? (template : Text) : Action → Option Text
  | .save (.save destination?) => some (destination?.getD template)
  | _ => none

theorem source_course (events : List Event) (d : Document) :
    (course events d).source = d.source := by
  induction events generalizing d with
  | nil => rfl
  | cons e events ih =>
    rw [course, ih]
    cases e with
    | call a => exact source_act a d
    | outside disk => rfl

/-- Before a file is saved nothing that has a path is touched. -/
theorem detached_finalize (d : Document) : d.finalize.2.session.detached = d.session.detached := by
  rcases finalize_cases d with ⟨cause, done⟩ | ⟨manifest, done⟩
  · rw [done]
    rfl
  · rw [done]
    exact Session.detached_withOpen d.session (edits_writeParts { d.substitute with manifest })

/-- A file at a path stays when a document is saved at another place. -/
theorem read_save_elsewhere {d : Document} {destination? : Option Text} {other : Text}
    {content : File} (found : d.session.disk.read other = .ok content)
    (away : d.session.disk.placeOfFile (destination?.getD d.source) ≠ d.session.disk.locate other) :
    (d.save destination?).2.session.disk.read other = .ok content := by
  have same := detached_finalize d
  have still := Session.read_eq_of_detached_eq same other
  rw [found] at still
  rcases d.save_cases destination? with ⟨cause, failed⟩ | ⟨w, file, disk, -, -, -, copied, done⟩
  · rw [failed]
    exact still
  · obtain ⟨place, located, -⟩ := Disk.exists_place_of_read found
    have alike : Disk.Alike d.session.disk d.finalize.2.session.disk :=
      alike_of_bare_eq (congrArg Session.disk same)
    rw [done, ← still]
    refine (Disk.alike_write copied).2 (alike.locate located) fun here => ?_
    exact away ((alike.symm.placeOfFile here).trans located.symm)

/-- **One call** changes no file that has a path, unless it saves the document there. -/
theorem read_act_elsewhere {a : Action} {d : Document} {other : Text} {content : File}
    (found : d.session.disk.read other = .ok content)
    (away : ∀ path ∈ a.destination? d.source,
      d.session.disk.placeOfFile path ≠ d.session.disk.locate other) :
    (a.act d).2.session.disk.read other = .ok content := by
  by_cases saves : ∃ call, a = .save call
  · have still := Session.read_eq_of_detached_eq (detached_finalize d) other
    obtain ⟨call, rfl⟩ := saves
    cases call with
    | toFile =>
      rw [Action.act, SaveCall.call, snd_toFile, still, found]
    | writeTo writer =>
      rw [Action.act, SaveCall.call, snd_writeTo, still, found]
    | save destination? => exact read_save_elsewhere found (away _ rfl)
  · rw [read_act (fun call save => saves ⟨call, save⟩), found]

/-! ## Pictures of images that were bound -/

/-- An image with the file name was bound in the course, at the document or on a node. -/
inductive BoundIn (events : List Event) (d : Document) (file : Text) : Prop where
  | intro (before later : List Event) (a : Action) (image : Text)
    (split : events = before ++ .call a :: later) (bound : (a.act (course before d)).1 = .ok ())
    (path : a.image? = some image) (named : Path.fileName? image = some file)

theorem BoundIn.cons {events : List Event} {d : Document} {file : Text} {e : Event}
    (h : BoundIn events (e.happen d) file) : BoundIn (e :: events) d file := by
  obtain ⟨before, later, b, image, rfl, bound, path, named⟩ := h
  exact ⟨e :: before, later, b, image, rfl, bound, path, named⟩

/-- A call that fails adds no picture. -/
theorem allPictures_of_error {a : Action} {d : Document} {cause : Error}
    (failed : (a.act d).1 = .error cause) : (a.act d).2.allPictures ⊆ d.allPictures := by
  by_cases none : a.newPictures d.session.disk = []
  · have fresh := (grows_act a d).fresh
    rwa [none, List.append_nil] at fresh
  · cases a with
    | bindImage key path placement =>
      rw [Action.act, d.atomic_bindImage key path placement cause failed]
      exact List.Subset.refl _
    | onSegment name path call =>
      have binds : call ≠ .merge := fun merges => none (by rw [merges]; rfl)
      rcases declareSegment_of_error (Segment.atomic_onPath binds path) failed with same | declared
      · rw [Action.act, same]
        exact List.Subset.refl _
      · have fresh := (grows_declareSegment declared).1.fresh
        rwa [List.append_nil] at fresh
    | _ => exact absurd rfl none

/-- The pictures of a document after a course are those it had, and those of images that were bound. -/
theorem boundIn_of_mem_allPictures {events : List Event} {d : Document} {p : Picture}
    (mem : p ∈ (course events d).allPictures) : p ∈ d.allPictures ∨ BoundIn events d p.file := by
  induction events generalizing d with
  | nil => exact .inl mem
  | cons e events ih =>
    rcases ih mem with here | bound
    · cases e with
      | outside disk => exact .inl here
      | call a =>
        rcases answer : (a.act d).1 with cause | u
        · exact .inl (allPictures_of_error answer here)
        · rcases List.mem_append.1 ((grows_act a d).fresh here) with old | new
          · exact .inl old
          · obtain ⟨usable, image⟩ := Action.usable_of_mem_newPictures new
            exact .inr ⟨[], events, a, p.source, rfl, answer, image, usable.named⟩
    · exact .inr bound.cons

/-- A document that was opened has in the end only pictures of images that were bound. -/
theorem exists_boundIn_of_openAt {disk made : Disk} {path : Text} {config : Config} {d : Document}
    (opened : openAt disk path config = (.ok d, made)) {events : List Event} {name : Text}
    (mem : name ∈ (course events d).pictureNames) :
    ∃ file, BoundIn events d file ∧ name = Part.picture file := by
  obtain ⟨p, here, rfl⟩ := List.mem_map.1 mem
  obtain ⟨-, -, -, -, none⟩ := exists_holds_of_openAt opened
  rcases boundIn_of_mem_allPictures here with old | bound
  · rw [none] at old
    exact absurd old List.not_mem_nil
  · exact ⟨p.file, bound, rfl⟩

/-! ## What is saved -/

/-- What is saved is the package with the texts and pictures of the document put into it. -/
theorem exists_putAll_of_call {c : SaveCall} {d after : Document} {file : File}
    (h : c.call d = (.ok file, after)) :
    ∃ members puts, d.session.Holds members ∧
      (∀ p ∈ puts, p.1 ∈ savedTexts ++ d.pictureNames) ∧
      file.read = .ok (rewritten (putAll puts members)) := by
  obtain ⟨finalized, reads⟩ := SaveCall.finalize_of_call h
  obtain ⟨e, location, members, b, -, values, held, put, -, saved, -⟩ :=
    exists_written_of_finalize finalized
  obtain ⟨puts, named, same⟩ := puts_writeParts e ⟨some location, members, false⟩
  rw [put] at same
  refine ⟨members, puts, held, fun p mem => ?_, ?_⟩
  · rcases List.mem_append.1 (named p mem) with text | picture
    · exact List.mem_append_left _ text
    · rw [values] at picture
      exact List.mem_append_right _ (List.map_subset _ (List.subset_append_left _ _) picture)
  · rw [reads _ saved, show b = _ from same, Archive.held_havingAll]

section Saved

variable {template : List Held} {d after : Document} {c : SaveCall} {file : File}

/-- Saving keeps the pictures of the document. -/
theorem pictureNames_of_call (saved : c.call d = (.ok file, after)) :
    after.pictureNames = d.pictureNames := by
  obtain ⟨session, same⟩ := c.exists_session_of_call d
  rw [saved] at same
  rw [pictureNames, allPictures, root, show after = _ from same]
  simp only [values_finalize, segments_finalize]
  rfl

/-- All that was put into the template, on the way and in the end, makes one list. -/
theorem Preserves.exists_putAll_of_call (h : Preserves template d)
    (saved : c.call d = (.ok file, after)) : ∃ puts : List (Text × ByteArray),
      (∀ p ∈ puts, p.1 ∈ Part.meta_ :: (savedTexts ++ after.pictureNames)) ∧
        file.read = .ok (rewritten (putAll puts template)) := by
  obtain ⟨members, held, rewrites⟩ := h
  obtain ⟨members', puts, held', named, read⟩ := Document.exists_putAll_of_call saved
  obtain rfl := held.unique held'
  obtain ⟨all, touched, whole⟩ :=
    rewrites.exists_putAll fun p mem => List.mem_cons_of_mem _ (named p mem)
  rw [whole] at read
  rw [pictureNames_of_call saved]
  exact ⟨all, touched, read⟩

/-- The texts of the document are in the package. -/
theorem texts_of_call (saved : c.call d = (.ok file, after)) {members : List Held}
    (read : file.read = .ok members) :
    contentOf members Part.content = some after.content.toBytes ∧
      contentOf members Part.styles = some after.styles.toBytes ∧
      contentOf members Part.manifest = some after.manifest.toBytes := by
  obtain ⟨before, members', -, read', -, -, found⟩ := c.exists_members_of_call saved
  rw [read] at read'
  cases read'
  obtain ⟨session, same⟩ := c.exists_session_of_call d
  rw [saved] at same
  obtain rfl : after = _ := same
  exact ⟨found ⟨by decide, by decide⟩, found ⟨by decide, by decide⟩, found ⟨by decide, by decide⟩⟩

/-- The metadata is not put in the end: it is there already, if it was written. -/
theorem MetaWritten.content_of_call (h : MetaWritten d) (saved : c.call d = (.ok file, after))
    {members : List Held} (read : file.read = .ok members) :
    contentOf members Part.meta_ = some after.meta_.toBytes := by
  obtain ⟨before, held, text⟩ := h
  obtain ⟨before', members', held', read', -, -, found⟩ := c.exists_members_of_call saved
  obtain rfl := held.unique held'
  rw [read] at read'
  cases read'
  obtain ⟨session, same⟩ := c.exists_session_of_call d
  rw [saved] at same
  obtain rfl : after = _ := same
  have absent : (d.values.pictures.reverse.find? fun p => p.entry == Part.meta_) = none := by
    rw [List.find?_eq_none]
    intro p mem same
    refine meta_notMem_saved d (List.mem_append_right _ ?_)
    rw [← beq_iff_eq.1 same]
    exact List.mem_map_of_mem (List.mem_append_left _ (List.mem_reverse.1 mem))
  rw [found ⟨by decide, by decide⟩, absent, text, ← meta_finalize d]
  rfl

end Saved

/-- The names in a package into which texts that it has were put, and pictures. -/
theorem exists_names_of_puts {old : List Held} (distinct : (old.map Held.name).Nodup)
    {texts pictures : List Text} (there : texts ⊆ old.map Held.name)
    (absent : Part.mimetype ∉ pictures) {puts : List (Text × ByteArray)}
    (touched : ∀ p ∈ puts, p.1 ∈ texts ++ pictures) :
    ∃ new, (rewritten (putAll puts old)).map Held.name
      = mimetypeFirst (old.map Held.name) ++ new ∧ new ⊆ pictures := by
  let new := ((puts.map Prod.fst).filter fun name => name ∉ old.map Held.name).eraseDups
  have fresh : new ⊆ pictures := by
    intro name mem
    obtain ⟨put, away⟩ := List.mem_filter.1 (List.mem_eraseDups.1 mem)
    obtain ⟨p, here, rfl⟩ := List.mem_map.1 put
    rcases List.mem_append.1 (touched p here) with text | picture
    · exact absurd (there text) (of_decide_eq_true away)
    · exact picture
  refine ⟨new, ?_, fresh⟩
  rw [Archive.map_name_rewritten (Archive.nodup_putAll distinct puts), Archive.map_name_putAll,
    Archive.mimetypeFirst_append fun mem => absent (fresh mem)]

/-- **What is saved.**  A document is opened whose template has members with different names, and no
directory with content.  Then calls are made, of which some may fail and some may save it, while others
change their files, and in the end a call that saves it succeeds.  Then the package that is saved has
these members:

* those of the template in their order, with the media type in front, and behind them new ones, all
  of them pictures of images that were bound;
* the content, the styles and the manifest are the document's texts, and so is the metadata, unless it
  was changed by a call that failed to write it, and no property was set since;
* all others have the content that they have in the template, unless they have the name of the
  picture of an image that was bound;
* the media type is stored, and any other file that is stored or deflated in the template is kept as it
  is there; a new one is deflated.

Opening changes no file, and no call changes a file but the one that it saves. -/
theorem saved_package {disk made : Disk} {template : Text} {config : Config}
    {d after : Document} {events : List Event} {last : SaveCall} {file : File} {old : List Held}
    (opened : openAt disk template config = (.ok d, made))
    (loaded : Archive.load disk (.path template) = .ok old)
    (distinct : (old.map Held.name).Nodup)
    (hollow : ∀ m ∈ old, Zip.isDirectoryName m.name = true → m.data = ByteArray.empty)
    (saved : last.call (course events d) = (.ok file, after)) :
    (∃ members new, file.read = .ok members ∧ (members.map Held.name).Nodup ∧
      members.map Held.name = mimetypeFirst (old.map Held.name) ++ new ∧
      (∀ name ∈ new, ∃ file, BoundIn events d file ∧ name = Part.picture file) ∧
      contentOf members Part.content = some after.content.toBytes ∧
      contentOf members Part.styles = some after.styles.toBytes ∧
      contentOf members Part.manifest = some after.manifest.toBytes ∧
      (metaPending events d false = false →
        contentOf members Part.meta_ = some after.meta_.toBytes) ∧
      (∀ m ∈ old, m.name ∉ Part.meta_ :: savedTexts →
        (∀ file, BoundIn events d file → m.name ≠ Part.picture file) →
        contentOf members m.name = some m.data) ∧
      ∀ m ∈ members, (m.name = Part.mimetype → m.compression = .stored) ∧
        (Zip.isDirectoryName m.name = false → m.name ≠ Part.mimetype →
          compressionOf old m.name = .stored ∨ compressionOf old m.name = .deflated →
          m.compression = compressionOf old m.name)) ∧
    (∀ other, d.session.disk.read other = disk.read other) ∧
    ∀ before a later, events ++ [.call (.save last)] = before ++ .call a :: later →
      ∀ other content, (course before d).session.disk.read other = .ok content →
        (∀ path ∈ a.destination? template, (course before d).session.disk.placeOfFile path
          ≠ (course before d).session.disk.locate other) →
        (a.act (course before d)).2.session.disk.read other = .ok content := by
  obtain ⟨old', loaded', preserved, written, texts⟩ := preserves_of_openAt opened
  rw [loaded] at loaded'
  cases loaded'
  obtain ⟨puts, touched, read⟩ := (preserved.course events).exists_putAll_of_call saved
  have bound {name : Text} (mem : name ∈ after.pictureNames) :
      ∃ file, BoundIn events d file ∧ name = Part.picture file :=
    exists_boundIn_of_openAt opened (pictureNames_of_call saved ▸ mem)
  have media : Part.mimetype ∉ after.pictureNames :=
    fun mem => absurd (head?_of_mem_pictureNames mem) (by decide)
  obtain ⟨new, names, fresh⟩ := exists_names_of_puts distinct texts media touched
  obtain ⟨content, styles, manifest⟩ := texts_of_call saved read
  obtain ⟨-, -, -, reads, -⟩ := exists_holds_of_openAt opened
  have source : d.source = template := by
    obtain ⟨_, _, _, _, _, -, -, fresh⟩ := openAt_eq_ok opened
    rw [fresh]
  refine ⟨⟨_, new, read, Archive.nodup_rewritten (Archive.nodup_putAll distinct puts), names,
    fun name mem => bound (fresh mem), content, styles, manifest,
    fun done => (metaWritten_course preserved (fun _ => written) done).content_of_call saved read,
    fun m mem text picture => ?_, fun m mem => ⟨fun media => ?_, fun file other kept => ?_⟩⟩, reads,
    fun before a later _ other content found away => ?_⟩
  · refine Archive.contentOf_rewritten_of_away distinct mem (hollow m mem) fun p put same => ?_
    have touched : p.1 ∈ (Part.meta_ :: savedTexts) ++ after.pictureNames := touched p put
    rcases List.mem_append.1 touched with written | added
    · exact text (same ▸ written)
    · obtain ⟨file, bound, named⟩ := bound added
      exact picture file bound (same ▸ named)
  · rw [Archive.compression_of_mem_rewritten distinct puts mem,
      Archive.writtenCompression_of_stored (.inl media)]
  · rw [Archive.compression_of_mem_rewritten distinct puts mem]
    rcases kept with stored | deflated
    · rw [Archive.writtenCompression_of_stored (.inr stored), stored]
    · rw [Archive.writtenCompression_of_file file other (by simp [deflated]), deflated]
  · refine read_act_elsewhere found fun path saves => ?_
    rw [source_course, source] at saves
    exact away path saves

/-- The members of a template with a directory, which is kept compressed, and the media type behind
it, which is too. -/
def folderMembers : List Zip.Member :=
  let texts := [(Part.content, "\x7bp\x7d".toList), (Part.styles, []),
    (Part.meta_, "<meta:user-defined meta:name=\"a\">x</meta:user-defined>".toList),
    (Part.manifest, "<manifest:manifest></manifest:manifest>".toList)]
  [⟨"d/".toList, .deflated, ByteArray.empty⟩, ⟨Part.mimetype, .deflated, Text.toBytes "m".toList⟩]
    ++ texts.map fun (name, t) => ⟨name, .stored, Text.toBytes t⟩

/-- A disk with the template. -/
def folder : Disk :=
  { Disk.empty with nodes :=
    (Disk.empty.current ++ ["t".toList], .file (.package folderMembers)) :: Disk.empty.nodes }

/-- An image cannot be bound, because it is not there yet; then somebody puts it there, and it can.  A
property is set, and the document is saved for the first time. -/
def saveOnce : List Event :=
  [.call (.bindImage "p".toList "y".toList Placement.inText),
    .outside { folder with nodes :=
      (Disk.empty.current ++ ["y".toList], .file (.bytes (square 2))) :: folder.nodes },
    .call (.bindImage "p".toList "y".toList Placement.inText),
    .call (.setProperty "a".toList "1".toList true), .call (.save .toFile)]

theorem exists_saved_folder :
    ∃ d made file after, openAt folder "t".toList Config.standard = (.ok d, made) ∧
      SaveCall.toFile.call (course saveOnce d) = (.ok file, after) ∧
      metaPending saveOnce d false = false ∧
      (file.read.toOption.map fun members => compressionOf members "d/".toList)
        = some .stored := by
  have opens : (openAt folder "t".toList Config.standard).1.toOption.isSome = true := by
    decide +kernel
  have outcome : ∀ d ∈ (openAt folder "t".toList Config.standard).1.toOption,
      (SaveCall.toFile.call (course saveOnce d)).1.toOption.isSome = true ∧
      metaPending saveOnce d false = false ∧
      (∀ file ∈ (SaveCall.toFile.call (course saveOnce d)).1.toOption,
        (file.read.toOption.map fun members => compressionOf members "d/".toList)
          = some .stored) := by
    decide +kernel
  rcases opened : openAt folder "t".toList Config.standard with ⟨cause | d, made⟩
  · rw [opened] at opens
    cases opens
  · obtain ⟨saves, settled, kept⟩ := outcome d (by rw [opened]; rfl)
    obtain ⟨file, saves⟩ := exists_eq_ok_of_isSome saves
    exact ⟨d, made, file, _, rfl, Prod.ext saves rfl, settled, kept file (by rw [saves]; rfl)⟩

/-- In what is saved the media type is in front and stored, and the metadata is that of the document.
The template is left as it is, because the document is not saved at its path. -/
theorem saved_package_folder :
    ∃ d made file after members new, openAt folder "t".toList Config.standard = (.ok d, made) ∧
      SaveCall.toFile.call (course saveOnce d) = (.ok file, after) ∧ file.read = .ok members ∧
      members.map Held.name = Part.mimetype :: "d/".toList ::
        [Part.content, Part.styles, Part.meta_, Part.manifest] ++ new ∧
      contentOf members Part.meta_ = some after.meta_.toBytes ∧
      contentOf members "d/".toList = some ByteArray.empty ∧
      (∀ m ∈ members, m.name = Part.mimetype → m.compression = .stored) ∧
      after.session.disk.read "t".toList = .ok (.package folderMembers) := by
  obtain ⟨d, made, file, after, opened, saved, settled, -⟩ := exists_saved_folder
  have loaded : Archive.load folder (.path "t".toList) = .ok (folderMembers.map Zip.Member.held) :=
    rfl
  have distinct : ((folderMembers.map Zip.Member.held).map Held.name).Nodup := by decide
  have hollow : ∀ m ∈ folderMembers.map Zip.Member.held, Zip.isDirectoryName m.name = true →
      m.data = ByteArray.empty := by decide
  obtain ⟨⟨members, new, read, -, names, -, -, -, -, meta_, others, methods⟩, -, stays⟩ :=
    saved_package opened loaded distinct hollow saved
  refine ⟨d, made, file, after, members, new, opened, saved, read, ?_, meta_ settled, ?_,
    fun m mem => (methods m mem).1, ?_⟩
  · rw [names]
    rfl
  · refine others ⟨"d/".toList, .deflated, ByteArray.empty⟩ List.mem_cons_self (by decide) ?_
    intro file _ same
    exact absurd (show some 'd' = some 'P' from congrArg List.head? same) (by decide)
  · -- others leave the template, and so does each call that follows
    have there : (course (saveOnce.take 2) d).session.disk.read "t".toList
        = .ok (.package folderMembers) := rfl
    have there := stays (saveOnce.take 2) _ _ rfl _ _ there (fun path saves => by cases saves)
    have there := stays (saveOnce.take 3) _ _ rfl _ _ there (fun path saves => by cases saves)
    have there := stays (saveOnce.take 4) _ _ rfl _ _ there (fun path saves => by cases saves)
    have there := stays saveOnce (.save .toFile) [] rfl _ _ there (fun path saves => by cases saves)
    rw [Action.act, saved] at there
    exact there

/-- A directory that the template keeps compressed is stored in what is saved. -/
theorem saved_directory_stored :
    ∃ d made file after members, openAt folder "t".toList Config.standard = (.ok d, made) ∧
      (folderMembers.map Zip.Member.name).Nodup ∧
      Archive.load folder (.path "t".toList) = .ok (folderMembers.map Zip.Member.held) ∧
      SaveCall.toFile.call (course saveOnce d) = (.ok file, after) ∧ file.read = .ok members ∧
      compressionOf (folderMembers.map Zip.Member.held) "d/".toList = .deflated ∧
      compressionOf members "d/".toList = .stored := by
  obtain ⟨d, made, file, after, opened, saved, -, kept⟩ := exists_saved_folder
  obtain ⟨members, read, stored⟩ := Option.map_eq_some_iff.1 kept
  exact ⟨d, made, file, after, members, opened, by decide, rfl, saved, eq_ok_of_toOption read,
    by decide, stored⟩

end Document

end DocumentMerge
