import DocumentMerge.Proofs.Document.Collecting
import DocumentMerge.Proofs.Document.Effects
import DocumentMerge.Proofs.Package.Entries

/-!
# Pictures in the package and in the manifest

A picture is copied when its segment is merged, and its file is listed when the segment is put into
the content.  These are two calls, and nothing sees to it that both are made, or in which order.

* A save lists each file of the document's list for which the manifest had no entry, once
  (`exists_listing_of_call`).
* `Stocked` is the invariant of a run for the pictures that the package has.
* `stored_iff_listed`: what has to hold of a run so that the files that are stored are those that are
  listed.
* `pictures_listed_iff`: after a run that is saved, the new pictures in the package are those of the
  document and those that merges copied, and the new files in the manifest those of the document's
  pictures and those taken from segments.  The two agree exactly when no file of a picture that was
  copied waits in a segment while the document does not list it, and no file was taken whose picture
  was not copied.
-/

namespace DocumentMerge

open Zip (Held)
open Archive (contentOf Ordinary Edits Keeps)

/-- The names in a package into which pictures were copied. -/
theorem Copied.mem_names_iff {disk : Disk} {pictures : List Picture} {before after : List Held}
    (h : Copied disk pictures before after) (usable : ∀ p ∈ pictures, p.Usable disk) {name : Text} :
    name ∈ after.map Held.name ↔
      name ∈ before.map Held.name ∨ name ∈ pictures.map Picture.entry := by
  constructor
  · exact fun mem => List.mem_append.1 (h.keeps.fresh mem)
  · rintro (old | new)
    · exact h.keeps.names old
    · obtain ⟨p, mem, rfl⟩ := List.mem_map.1 new
      obtain ⟨q, -, -, data, -, bytes⟩ := Picture.exists_firstBytes? usable mem
      rw [← Archive.isSome_contentOf, h.content (usable p mem).ordinary, bytes]
      simp

namespace Document

/-! ## The manifest that is saved -/

/-- Only a call that saves the document changes the manifest. -/
theorem manifest_act {a : Action} (unsaved : ∀ call, a ≠ .save call) (d : Document) :
    (a.act d).2.manifest = d.manifest := by
  have effect := effect_act a d
  generalize (a.act d).2 = after at effect ⊢
  cases effect with
  | none => rfl
  | bound => rfl
  | declared ok => obtain ⟨segments, rfl⟩ := exists_of_declareSegment ok; rfl
  | called ok => obtain ⟨segments, rfl⟩ := exists_of_declareSegment ok; rfl
  | merged => rfl
  | property => rfl
  | @saved call => exact absurd rfl (unsaved call)

theorem manifest_run {steps : List Action} (unsaved : ∀ a ∈ steps, ∀ call, a ≠ .save call)
    (d : Document) : (run steps d).manifest = d.manifest := by
  induction steps generalizing d with
  | nil => rfl
  | cons a steps ih =>
    rw [run, ih fun b mem => unsaved b (List.mem_cons_of_mem a mem)]
    exact manifest_act (unsaved a List.mem_cons_self) d

/-- When the result was written, the files of the document's list are in its manifest. -/
theorem addPictures_of_finalize {d after : Document} (h : d.finalize = (.ok (), after)) :
    Manifest.addPictures d.manifest d.values.listed = .ok after.manifest := by
  rw [finalize] at h
  simp only at h
  have same : Manifest.addPictures d.substitute.manifest d.substitute.values.listed
      = Manifest.addPictures d.manifest d.values.listed := rfl
  rw [same] at h
  cases listed : Manifest.addPictures d.manifest d.values.listed with
  | error cause => rw [listed] at h; cases h
  | ok manifest =>
    rw [listed] at h
    obtain ⟨-, rfl⟩ := Prod.mk.inj h
    rfl

/-- A file that is saved has the manifest with a line for each file of the document's list that was
not listed before. -/
theorem exists_listing_of_call {c : SaveCall} {d after : Document} {file : File}
    (h : c.call d = (.ok file, after)) :
    ∃ known, Manifest.paths d.manifest = .ok known ∧
      file.text? Part.manifest
        = some (Manifest.listing d.manifest (Manifest.unlisted known d.values.listed)) := by
  obtain ⟨members, saved, -, read, -, -, found⟩ := SaveCall.exists_members_of_call h
  obtain ⟨known, readable, listed⟩ :=
    Manifest.exists_of_addPictures (addPictures_of_finalize (SaveCall.finalize_of_call h).1)
  refine ⟨known, readable, ?_⟩
  have ordinary : Ordinary Part.manifest := ⟨by decide, by decide⟩
  rw [File.text?, read]
  simp only
  rw [found ordinary, ← listed]
  show Option.bind (some d.finalize.2.manifest.toBytes) Text.ofBytes? = _
  rw [Option.bind_some, Text.ofBytes?_toBytes]

/-! ## The pictures in the package -/

/-- The package has the pictures of the template and those that were copied, and no others. -/
def Stocked (template : List Held) (log : List Picture) (d : Document) : Prop :=
  ∃ members, d.session.Holds members ∧ ∀ file, Part.picture file ∈ members.map Held.name ↔
    Part.picture file ∈ template.map Held.name ∨ file ∈ log.map Picture.file

theorem mem_map_entry {file : Text} {pictures : List Picture} :
    Part.picture file ∈ pictures.map Picture.entry ↔ file ∈ pictures.map Picture.file := by
  rw [List.mem_map, List.mem_map]
  exact exists_congr fun p => and_congr_right fun _ =>
    ⟨List.append_cancel_left, fun same => by rw [Picture.entry, same]⟩

section Stocked

variable {disk : Disk} {paths : List Text} {template : List Held} {log : List Picture}
  {d : Document}

/-- One call, other than one that saves the document. -/
theorem Stocked.act (h : Stocked template log d) (traced : Traced disk paths template log d)
    {a : Action} (unsaved : ∀ call, a ≠ .save call) :
    Stocked template (log ++ a.copies d) (a.act d).2 := by
  obtain ⟨members, held, names⟩ := h
  rcases session_act_cases a d with
    ⟨same, none⟩ | ⟨name, path, e, rfl, declared, merged⟩ | ⟨_, _, _, -, written, none⟩ |
    ⟨call, rfl⟩
  · rw [none, List.append_nil]
    exact ⟨members, by rwa [same], names⟩
  · obtain ⟨members', after, held', ready, copied⟩ := traced.package_merge path declared
    obtain rfl := held.unique held'
    refine ⟨after, by rw [merged]; exact ready.holds, fun file => ?_⟩
    have usable := fun p mem => (traced.pictures p (List.mem_append_left _
      (copies_subset (.onSegment name path .merge) d mem))).1
    rw [copied.mem_names_iff usable, mem_map_entry, names, List.map_append, List.mem_append,
      or_assoc]
  · obtain ⟨after, holds, kept, -⟩ := held.withOpen (Archive.Edits.putText Part.meta_ _)
    rw [none, List.append_nil]
    refine ⟨after, by rwa [written], fun file => ?_⟩
    rw [← names file]
    refine ⟨fun mem => ?_, fun mem => kept.names mem⟩
    have other := Picture.entry_notMem_texts ⟨[], file⟩
    rcases List.mem_append.1 (kept.fresh mem) with old | text
    · exact old
    · exact absurd (List.mem_of_mem_drop (i := 3) text) other
  · exact absurd rfl (unsaved call)

/-- A run that does not save the document and leaves the images where they are. -/
theorem Stocked.run {steps : List Action} (h : Stocked template log d)
    (traced : Traced disk paths template log d)
    (bound : ∀ a ∈ steps, ∀ path ∈ a.image?, path ∈ paths)
    (unsaved : ∀ a ∈ steps, ∀ call, a ≠ .save call) :
    Stocked template (log ++ copied steps d) (run steps d) := by
  induction steps generalizing log d with
  | nil =>
    rw [copied, List.append_nil]
    exact h
  | cons a steps ih =>
    have here := unsaved a List.mem_cons_self
    rw [copied, ← List.append_assoc]
    refine ih (h.act traced here) ?_ (fun b mem => bound b (List.mem_cons_of_mem _ mem))
      fun b mem => unsaved b (List.mem_cons_of_mem _ mem)
    refine traced.act (bound a List.mem_cons_self) fun path known => ?_
    rw [read_act here, traced.sees path known]

end Stocked

/-- The pictures in a file that is saved. -/
theorem Stocked.mem_names_iff {template members : List Held} {log : List Picture}
    {c : SaveCall} {d after : Document} {file : File} (h : Stocked template log d)
    (saved : c.call d = (.ok file, after)) (read : file.read = .ok members) (f : Text) :
    Part.picture f ∈ members.map Held.name ↔ Part.picture f ∈ template.map Held.name ∨
      f ∈ (d.values.pictures ++ log).map Picture.file := by
  obtain ⟨old, held, names⟩ := h
  obtain ⟨old', members', held', read', kept, -, -⟩ := SaveCall.exists_members_of_call saved
  obtain rfl := held.unique held'
  rw [read] at read'
  cases read'
  obtain ⟨members', read', had, own⟩ := exists_members_having saved
  rw [read] at read'
  cases read'
  rw [List.map_append, List.mem_append]
  constructor
  · intro mem
    rcases List.mem_append.1 (kept.fresh mem) with before | written
    · exact ((names f).1 before).imp_right .inr
    · rcases List.mem_append.1 written with text | picture
      · have other := Picture.entry_notMem_texts ⟨[], f⟩
        exact absurd (List.mem_of_mem_take (i := 3) text) other
      · exact .inr (.inl (mem_map_entry.1 picture))
  · rintro (there | own' | copied)
    · exact had _ ⟨old, held, (names f).2 (.inl there)⟩
    · obtain ⟨p, mem, rfl⟩ := List.mem_map.1 own'
      exact own p mem
    · exact had _ ⟨old, held, (names f).2 (.inr copied)⟩

/-! ## When package and manifest agree -/

/-- The files of all pictures that are in the package when the document is saved after a run. -/
def storedFiles (steps : List Action) (d : Document) : List Text :=
  ((run steps d).values.pictures ++ copied steps d).map Picture.file

/-- A file whose picture is neither in a package nor in a manifest. -/
def New (members : List Held) (known : List Text) (file : Text) : Prop :=
  Part.picture file ∉ members.map Held.name ∧ Part.picture file ∉ known

/-- Nothing is bound on a document that was opened, and no segment is declared. -/
theorem fresh_of_openAt {disk made : Disk} {template : Text} {config : Config} {d : Document}
    (opened : openAt disk template config = (.ok d, made)) :
    d.values = Values.empty ∧ d.segments = [] := by
  rw [openAt] at opened
  split at opened
  · cases opened
  · split at opened
    · cases opened
    · split at opened
      · cases opened
      · split at opened
        · cases opened
        · cases opened
          exact ⟨rfl, rfl⟩

/-- Then no picture is there, and no file is listed. -/
theorem unused_of_openAt {disk made : Disk} {template : Text} {config : Config} {d : Document}
    (opened : openAt disk template config = (.ok d, made)) :
    d.Named ∧ Accounted [] d ∧ Lists [] d := by
  obtain ⟨values, segments⟩ := fresh_of_openAt opened
  have empty : d.allPictures = [] := by
    rw [allPictures, root, values, segments]
    rfl
  refine ⟨?_, ?_, ?_⟩
  · rw [Named, empty]
    exact fun p mem => absurd mem List.not_mem_nil
  · rw [Accounted, empty]
    exact fun p mem => absurd mem List.not_mem_nil
  · rw [Lists, values]
    simp [Values.empty]

/-- Among some files, the stored ones are the listed ones exactly when no file that was copied waits
unlisted in a segment, and every file that was taken is stored. -/
theorem stored_iff_listed {steps : List Action} {d : Document} {new : Text → Prop}
    (accounted : Accounted (copied steps d) (run steps d))
    (lists : Lists (taken steps d) (run steps d)) :
    (∀ f, new f → (f ∈ storedFiles steps d ↔ f ∈ (run steps d).values.listed)) ↔
      (∀ f ∈ (copied steps d).map Picture.file, new f →
        f ∈ (run steps d).root.allListed → f ∈ (run steps d).values.listed) ∧
      ∀ f ∈ taken steps d, new f → f ∈ storedFiles steps d := by
  constructor
  · intro same
    refine ⟨fun f copied new _ => (same f new).1 ?_,
      fun f taken new => (same f new).2 ((lists f).2 (.inr taken))⟩
    rw [storedFiles, List.map_append]
    exact List.mem_append_right _ copied
  · rintro ⟨released, stored⟩ f new
    constructor
    · intro mem
      rw [storedFiles, List.map_append] at mem
      rcases List.mem_append.1 mem with own | copied
      · exact (lists f).2 (.inl own)
      · -- the file of a picture that was copied is in some list, and if it waits it is released
        obtain ⟨p, here, rfl⟩ := List.mem_map.1 copied
        rcases List.mem_append.1 (accounted p (List.mem_append_right _ here)) with done | waits
        · exact done
        · exact released _ copied new waits
    · intro mem
      rcases (lists f).1 mem with own | taken
      · rw [storedFiles, List.map_append]
        exact List.mem_append_left _ own
      · exact stored f taken new

/-- **Package and manifest.**  A document is opened, used, and saved in the end.  The new pictures in
the file are those of the document and those that were copied by merges; the new files in its
manifest, each in one line, are those of the document's pictures and those taken from segments.
They are the same files exactly when

* no file of a picture that was copied still waits in a segment, unless the document lists it too, and
* no file was taken from a segment whose picture was neither copied nor bound at the document. -/
theorem pictures_listed_iff {disk made : Disk} {template : Text} {config : Config} {d : Document}
    {steps : List Action} {last : SaveCall} {file : File} {after : Document}
    (opened : openAt disk template config = (.ok d, made))
    (unsaved : ∀ a ∈ steps, ∀ call, a ≠ .save call)
    (saved : last.call (run steps d) = (.ok file, after)) :
    ∃ old known members files,
      Archive.load disk (.path template) = .ok old ∧ Manifest.paths d.manifest = .ok known ∧
      file.read = .ok members ∧
      file.text? Part.manifest = some (Manifest.listing d.manifest files) ∧ files.Nodup ∧
      (∀ f, New old known f →
        (Part.picture f ∈ members.map Held.name ↔ f ∈ storedFiles steps d)) ∧
      (∀ f, New old known f →
        (f ∈ files ↔ f ∈ (run steps d).values.pictures.map Picture.file ∨ f ∈ taken steps d)) ∧
      ((∀ f, New old known f → (Part.picture f ∈ members.map Held.name ↔ f ∈ files)) ↔
        (∀ f ∈ (copied steps d).map Picture.file, New old known f →
          f ∈ (run steps d).root.allListed → f ∈ (run steps d).values.listed) ∧
        ∀ f ∈ taken steps d, New old known f → f ∈ storedFiles steps d) := by
  obtain ⟨old, loaded, held, traced⟩ := traced_of_openAt opened saved
  obtain ⟨named, nothing, unlisted⟩ := unused_of_openAt opened
  have stocked := Stocked.run ⟨old, held, fun f => by simp⟩ traced
    (fun a mem => image?_mem_images mem) unsaved
  have accounted := nothing.run steps
  have lists := unlisted.run named steps
  rw [List.nil_append] at stocked accounted lists
  obtain ⟨members, read, -, -⟩ := exists_members_having saved
  obtain ⟨known, readable, listed⟩ := exists_listing_of_call saved
  rw [manifest_run unsaved] at readable listed
  have inPackage : ∀ f, New old known f →
      (Part.picture f ∈ members.map Held.name ↔ f ∈ storedFiles steps d) := by
    intro f new
    rw [stocked.mem_names_iff saved read, or_iff_right new.1, storedFiles]
  have inManifest : ∀ f, New old known f →
      (f ∈ Manifest.unlisted known (run steps d).values.listed ↔
        f ∈ (run steps d).values.listed) := by
    intro f new
    rw [Manifest.mem_unlisted, and_iff_left new.2]
  refine ⟨old, known, members, _, loaded, readable, read, listed, Manifest.nodup_unlisted _ _,
    inPackage, fun f new => (inManifest f new).trans (lists f), ?_⟩
  rw [← stored_iff_listed accounted lists]
  exact forall_congr' fun f => forall_congr' fun new => iff_congr (inPackage f new) (inManifest f new)

/-- The image is bound on a segment, which is merged and put into the content.  Then the package has
one new picture, and the manifest lists it. -/
theorem pictures_listed_iff_mergeImage :
    ∃ d made file after old known members files,
      openAt (desk false) "t".toList Config.standard = (.ok d, made) ∧
      SaveCall.toFile.call (run mergeImage d) = (.ok file, after) ∧
      Archive.load (desk false) (.path "t".toList) = .ok old ∧
      Manifest.paths d.manifest = .ok known ∧ New old known "x".toList ∧
      file.read = .ok members ∧
      file.text? Part.manifest = some (Manifest.listing d.manifest files) ∧
      "x".toList ∈ files ∧
      ∀ f, New old known f → (Part.picture f ∈ members.map Held.name ↔ f ∈ files) := by
  have opens : (openAt (desk false) "t".toList Config.standard).1.toOption.isSome = true := by
    decide +kernel
  have outcome : ∀ d ∈ (openAt (desk false) "t".toList Config.standard).1.toOption,
      (SaveCall.toFile.call (run mergeImage d)).1.toOption.isSome = true ∧
      (Manifest.paths d.manifest).toOption = some [] ∧ (run mergeImage d).root.allListed = [] ∧
      taken mergeImage d = ["x".toList] ∧
      (copied mergeImage d).map Picture.file = ["x".toList] := by
    decide +kernel
  have absent : ∀ old ∈ (Archive.load (desk false) (.path "t".toList)).toOption,
      Part.picture "x".toList ∉ old.map Held.name := by
    decide +kernel
  rcases opened : openAt (desk false) "t".toList Config.standard with ⟨cause | d, made⟩
  · rw [opened] at opens
    cases opens
  · obtain ⟨saves, paths, waiting, took, copies⟩ := outcome d (by rw [opened]; rfl)
    obtain ⟨file, saves⟩ := exists_eq_ok_of_isSome saves
    obtain ⟨old, known, members, files, loaded, readable, read, text, -, -, listed, agree⟩ :=
      pictures_listed_iff opened unsaved_mergeImage (Prod.ext saves rfl)
    rw [readable] at paths
    cases paths
    have new : New old [] "x".toList := ⟨absent old (by rw [loaded]; rfl), List.not_mem_nil⟩
    refine ⟨d, made, file, _, old, [], members, files, rfl, Prod.ext saves rfl, loaded, readable,
      new, read, text, ?_, agree.2 ⟨fun f _ _ waits => ?_, fun f mem _ => ?_⟩⟩
    · rw [listed _ new, took]
      exact .inr (List.mem_singleton_self _)
    · rw [waiting] at waits
      exact absurd waits List.not_mem_nil
    · rw [storedFiles, List.map_append, copies, ← took]
      exact List.mem_append_right _ mem

/-- What was evaluated of a file that is saved. -/
theorem exists_call_of_mem {c : SaveCall} {d : Document} {P : File → List Held → Prop}
    (h : ∃ file ∈ (c.call d).1.toOption, ∃ members ∈ file.read.toOption, P file members) :
    ∃ file after members, c.call d = (.ok file, after) ∧ file.read = .ok members ∧
      P file members := by
  obtain ⟨file, saves, members, read, holds⟩ := h
  exact ⟨file, _, members, Prod.ext (eq_ok_of_toOption saves) rfl, eq_ok_of_toOption read, holds⟩

/-- The picture of a segment that was merged, and not put into the content, is in the package and not
in the manifest.  That of a segment that was put into the content, and not merged, is in the manifest
and not in the package. -/
theorem pictures_unlisted_and_missing :
    ∃ d made old, openAt (desk false) "t".toList Config.standard = (.ok d, made) ∧
      Archive.load (desk false) (.path "t".toList) = .ok old ∧
      Manifest.paths d.manifest = .ok [] ∧ New old [] "x".toList ∧
      (∃ file after members, SaveCall.toFile.call (run (mergeImage.take 2) d) = (.ok file, after) ∧
        file.read = .ok members ∧ Part.picture "x".toList ∈ members.map Held.name ∧
        file.text? Part.manifest = some d.manifest) ∧
      ∃ file after members, SaveCall.toFile.call (run (mergeImage.eraseIdx 1) d) = (.ok file, after) ∧
        file.read = .ok members ∧ Part.picture "x".toList ∉ members.map Held.name ∧
        file.text? Part.manifest = some (Manifest.listing d.manifest ["x".toList]) := by
  have opens : (openAt (desk false) "t".toList Config.standard).1.toOption.isSome = true := by
    decide +kernel
  have outcome : ∀ d ∈ (openAt (desk false) "t".toList Config.standard).1.toOption,
      (Manifest.paths d.manifest).toOption = some [] ∧
      (∃ old ∈ (Archive.load (desk false) (.path "t".toList)).toOption,
        Part.picture "x".toList ∉ old.map Held.name) ∧
      (∃ file ∈ (SaveCall.toFile.call (run (mergeImage.take 2) d)).1.toOption,
        ∃ members ∈ file.read.toOption, Part.picture "x".toList ∈ members.map Held.name ∧
          file.text? Part.manifest = some d.manifest) ∧
      ∃ file ∈ (SaveCall.toFile.call (run (mergeImage.eraseIdx 1) d)).1.toOption,
        ∃ members ∈ file.read.toOption, Part.picture "x".toList ∉ members.map Held.name ∧
          file.text? Part.manifest = some (Manifest.listing d.manifest ["x".toList]) := by
    decide +kernel
  rcases opened : openAt (desk false) "t".toList Config.standard with ⟨cause | d, made⟩
  · rw [opened] at opens
    cases opens
  · obtain ⟨paths, ⟨old, loaded, absent⟩, unlisted, missing⟩ := outcome d (by rw [opened]; rfl)
    exact ⟨d, made, old, rfl, eq_ok_of_toOption loaded, eq_ok_of_toOption paths,
      ⟨absent, List.not_mem_nil⟩, exists_call_of_mem unlisted, exists_call_of_mem missing⟩

end Document

end DocumentMerge
