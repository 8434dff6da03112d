import DocumentMerge.Proofs.Session.Detached

/-!
# What an edit leaves in the package

The package of a working copy is edited by one call at a time: it is opened, members are put, and
all of it is written back.  Whatever happens on the way, the result is again a package, and the
session is again one in which it can be edited.

* `contentOf` is what a reader of the package finds under a name.  Writing the package back keeps it
  for all *ordinary* names, those of files other than the media type (`contentOf_rewritten`).
* `Edits` says which names an edit may touch, and `withOpen_cases` all that can come of an edit:
  nothing was put, or everything was written, or nothing was written because some name is too long
  or the new package could not be prepared (`Session.Staged`).
* `Session.Holds`: the session has a working copy that is closed and holds the given members.
* `contentOf_putPictures_keep`, `contentOf_putPictures`: of several pictures with one name the first
  one stays when members are kept, and the last one when they are not.
-/

namespace DocumentMerge

open Zip (Held Member)

namespace Archive

/-! ## What is found under a name -/

/-- The content of the first member of a name. -/
def contentOf (members : List Held) (name : Text) : Option ByteArray :=
  (members.find? fun m => m.name == name).map Held.data

/-- The name that was put has the new content, and every other name the content it had. -/
theorem contentOf_putMember (name : Text) (data : ByteArray) (members : List Held)
    (other : Text) :
    contentOf (putMember name data members) other =
      if other = name then some data else contentOf members other := by
  rw [contentOf, find?_putMember]
  split
  · split
    · rfl
    · rfl
  · rfl

/-- A name that is neither that of a directory nor that of the media type. -/
def Ordinary (name : Text) : Prop :=
  Zip.isDirectoryName name = false ∧ name ≠ Part.mimetype

@[simp] theorem name_written (h : Held) : (written h).name = h.name := by
  rw [written]
  split
  · rfl
  · split
    · rfl
    · rfl

theorem data_written {h : Held} (file : Zip.isDirectoryName h.name = false) :
    (written h).data = h.data := by
  rw [written, if_neg (by simp [file])]
  split
  · rfl
  · rfl

theorem ordered_map {α β : Type} (name : β → Text) (f : α → β) (l : List α) :
    ordered name (l.map f) = (ordered (name ∘ f) l).map f := by
  rw [ordered, ordered, List.filter_map, List.filter_map, List.map_append]
  rfl

theorem mem_ordered {α : Type} {name : α → Text} {m : α} {l : List α} :
    m ∈ ordered name l ↔ m ∈ l := by
  rw [ordered, List.mem_append, List.mem_filter, List.mem_filter]
  constructor
  · rintro (⟨mem, -⟩ | ⟨mem, -⟩)
    · exact mem
    · exact mem
  · intro mem
    by_cases same : name m = Part.mimetype
    · exact .inl ⟨mem, by simp [same]⟩
    · exact .inr ⟨mem, by simp [same]⟩

/-- The order in which members are written does not matter for the first one of a name. -/
theorem find?_ordered (name : Text) (members : List Held) :
    (ordered Held.name members).find? (fun m => m.name == name)
      = members.find? fun m => m.name == name := by
  rw [ordered, List.find?_append, List.find?_filter, List.find?_filter]
  by_cases front : name = Part.mimetype
  · have behind : (members.find? fun m =>
        decide ((m.name != Part.mimetype) = true ∧ (m.name == name) = true)) = none := by
      rw [List.find?_eq_none]
      intro m _
      simp [front]
    rw [behind, Option.or_none]
    congr 1
    funext m
    simp only [front, and_self, Bool.decide_eq_true]
  · have before : (members.find? fun m =>
        decide ((m.name == Part.mimetype) = true ∧ (m.name == name) = true)) = none := by
      rw [List.find?_eq_none]
      rintro m - both
      simp only [decide_eq_true_eq, beq_iff_eq] at both
      exact front (both.2.symm.trans both.1)
    rw [before, Option.none_or]
    congr 1
    funext m
    by_cases here : m.name = name
    · simp [here, front]
    · simp [here]

/-! ### Members that were written and read again -/

/-- A member as it is found where it was written. -/
def settled (h : Held) : Held :=
  (written h).held

@[simp] theorem name_settled (h : Held) : (settled h).name = h.name :=
  name_written h

/-- The members of a package as they are found when it was written. -/
def rewritten (members : List Held) : List Held :=
  (ordered Held.name members).map settled

/-- A package that was written gives its members back. -/
theorem read_toFile (members : List Held) :
    (toFile (members.map written)).read = .ok (rewritten members) := by
  have names : Member.name ∘ written = Held.name := funext name_written
  rw [toFile, File.read_package, ordered_map, names, List.map_map]
  rfl

theorem mem_rewritten {h : Held} {members : List Held} :
    h ∈ rewritten members ↔ ∃ m ∈ members, settled m = h := by
  simp only [rewritten, List.mem_map, mem_ordered]

/-- Writing a package writes the first member of a name. -/
theorem find?_rewritten (name : Text) (members : List Held) :
    (rewritten members).find? (fun m => m.name == name)
      = (members.find? fun m => m.name == name).map settled := by
  have same : (fun m : Held => m.name == name) ∘ settled = fun m : Held => m.name == name := by
    funext m
    simp
  rw [rewritten, List.find?_map, same, find?_ordered]

/-- Writing a package keeps what is found under ordinary names. -/
theorem contentOf_rewritten {name : Text} (h : Ordinary name) (members : List Held) :
    contentOf (rewritten members) name = contentOf members name := by
  rw [contentOf, find?_rewritten, contentOf]
  cases found : members.find? fun m => m.name == name with
  | none => rfl
  | some m =>
    have named : m.name = name := by simpa using List.find?_some found
    exact congrArg some (data_written (named ▸ h.1))

theorem map_name_putMember_subset (name : Text) (data : ByteArray) (members : List Held) :
    (putMember name data members).map Held.name ⊆ members.map Held.name ++ [name] := by
  induction members with
  | nil => simp [putMember]
  | cons m ms ih =>
    rw [putMember]
    split
    · simp
    · intro n mem
      simp only [List.map_cons, List.cons_append, List.mem_cons] at mem ⊢
      rcases mem with rfl | mem
      · exact .inl rfl
      · exact .inr (ih mem)

theorem subset_map_name_putMember (name : Text) (data : ByteArray) (members : List Held) :
    members.map Held.name ⊆ (putMember name data members).map Held.name := by
  induction members with
  | nil => simp
  | cons m ms ih =>
    rw [putMember]
    split
    · simp
    · intro n mem
      simp only [List.map_cons, List.mem_cons] at mem ⊢
      rcases mem with rfl | mem
      · exact .inl rfl
      · exact .inr (ih mem)

/-! ## What an edit may touch -/

/-- No member is lost, new ones have touched names, and under the names that are not touched the
same is found as before. -/
structure Keeps (touched : List Text) (before after : List Held) : Prop where
  names : before.map Held.name ⊆ after.map Held.name
  fresh : after.map Held.name ⊆ before.map Held.name ++ touched
  content : ∀ {name}, Ordinary name → name ∉ touched →
    contentOf after name = contentOf before name

namespace Keeps

variable {touched more : List Text} {before middle after : List Held}

theorem refl (touched : List Text) (members : List Held) : Keeps touched members members where
  names := List.Subset.refl _
  fresh := List.subset_append_left _ _
  content _ _ := rfl

theorem trans (first : Keeps touched before middle) (next : Keeps touched middle after) :
    Keeps touched before after where
  names := List.Subset.trans first.names next.names
  fresh := by
    intro name mem
    rcases List.mem_append.1 (next.fresh mem) with mem | mem
    · exact first.fresh mem
    · exact List.mem_append_right _ mem
  content ordinary other := (next.content ordinary other).trans (first.content ordinary other)

theorem mono (h : Keeps touched before after) (sub : touched ⊆ more) :
    Keeps more before after where
  names := h.names
  fresh := by
    intro name mem
    rcases List.mem_append.1 (h.fresh mem) with mem | mem
    · exact List.mem_append_left _ mem
    · exact List.mem_append_right _ (sub mem)
  content ordinary other := h.content ordinary fun mem => other (sub mem)

theorem put (name : Text) (data : ByteArray) (members : List Held) :
    Keeps [name] members (putMember name data members) where
  names := subset_map_name_putMember name data members
  fresh := map_name_putMember_subset name data members
  content {other} _ away := by
    rw [contentOf_putMember, if_neg fun same => away (List.mem_singleton.2 same)]

/-- Writing a package back loses nothing. -/
theorem rewritten (touched : List Text) (members : List Held) :
    Keeps touched members (rewritten members) where
  names := by
    intro name mem
    obtain ⟨m, here, rfl⟩ := List.mem_map.1 mem
    exact List.mem_map.2 ⟨settled m, mem_rewritten.2 ⟨m, here, rfl⟩, name_settled m⟩
  fresh := by
    intro name mem
    obtain ⟨n, here, rfl⟩ := List.mem_map.1 mem
    obtain ⟨m, there, rfl⟩ := mem_rewritten.1 here
    rw [name_settled]
    exact List.mem_append_left _ (List.mem_map_of_mem there)
  content ordinary _ := contentOf_rewritten ordinary members

end Keeps

end Archive

/-- Whether the name of a member is short enough for a package. -/
def Zip.Held.fits (h : Held) : Bool :=
  Zip.nameFits h.name

namespace Archive

/-- Names that are short enough stay so when a package is written. -/
theorem all_fits_rewritten {members : List Held} (fits : members.all Held.fits = true) :
    (rewritten members).all Held.fits = true := by
  rw [List.all_eq_true] at fits ⊢
  intro m mem
  obtain ⟨m, here, rfl⟩ := mem_rewritten.1 mem
  rw [Held.fits, name_settled]
  exact fits m here

/-- A package is refused for the names of the members that are to be written. -/
theorem all_fits_entries (a : Archive) : a.entries.all Member.fits = a.held.all Held.fits := by
  rw [entries, List.all_map]
  congr 1
  funext h
  rw [Function.comp_apply, Member.fits, name_written, Held.fits]

/-- Names stay short enough when only short ones are new. -/
theorem fits_of_fresh {touched : List Text} {before after : List Held}
    (fits : before.all Held.fits = true)
    (fresh : after.map Held.name ⊆ before.map Held.name ++ touched)
    (short : ∀ name ∈ touched, name.toBytes.size ≤ Zip.nameLimit) :
    after.all Held.fits = true := by
  rw [List.all_eq_true] at fits ⊢
  intro m mem
  rw [Held.fits, Zip.nameFits, decide_eq_true_eq]
  rcases List.mem_append.1 (fresh (List.mem_map_of_mem mem)) with old | new
  · obtain ⟨m', mem', same⟩ := List.mem_map.1 old
    have := fits m' mem'
    rwa [Held.fits, Zip.nameFits, decide_eq_true_eq, same] at this
  · exact short _ new

/-- An edit that touches only some names, and that is noticed if it changes anything. -/
structure Edits {α : Type} (touched : List Text) (edit : Archive → Except Error α × Archive) :
    Prop where
  location : ∀ a, (edit a).2.location = a.location
  keeps : ∀ a, Keeps touched a.held (edit a).2.held
  clean : ∀ a, (edit a).2.dirty = false → (edit a).2 = a

/-- A package in which a member was put. -/
def having (a : Archive) (name : Text) (data : ByteArray) : Archive :=
  { a with held := putMember name data a.held, dirty := true }

/-- All that putting a member can do. -/
theorem put_cases (a : Archive) (name : Text) (data : ByteArray) :
    (a.location = none ∧ a.put name data = (.error .notOpen, a)) ∨
      (a.location.isSome = true ∧ a.put name data = (.ok (), a.having name data)) := by
  rw [put]
  split
  · next shut => exact .inl ⟨shut, rfl⟩
  · next location opened => exact .inr ⟨by rw [opened]; rfl, rfl⟩

theorem put_of_open {a : Archive} (h : a.location.isSome = true) (name : Text)
    (data : ByteArray) : a.put name data = (.ok (), a.having name data) := by
  rcases a.put_cases name data with ⟨shut, -⟩ | ⟨-, put⟩
  · rw [shut] at h
    cases h
  · exact put

theorem contains_of_open {a : Archive} (h : a.location.isSome = true) (name : Text) :
    a.contains name = .ok (contentOf a.held name).isSome := by
  rw [contains, members]
  cases opened : a.location with
  | none => rw [opened] at h; cases h
  | some location =>
    show Except.ok (a.find? name).isSome = _
    rw [find?, contentOf, Option.isSome_map]

/-- All that putting several pictures can do with the first one: fail there, pass it over, or put
it. -/
theorem putPictures_cons_cases (disk : Disk) (keep : Bool) (p : Picture) (pictures : List Picture)
    (a : Archive) :
    (∃ cause, WorkingCopy.putPictures disk keep (p :: pictures) a = (.error cause, a)) ∨
    (keep = true ∧ a.contains p.entry = .ok true ∧
      WorkingCopy.putPictures disk keep (p :: pictures) a
        = WorkingCopy.putPictures disk keep pictures a) ∨
    ∃ content, (keep = true → a.contains p.entry = .ok false) ∧ disk.read p.source = .ok content ∧
      WorkingCopy.putPictures disk keep (p :: pictures) a
        = WorkingCopy.putPictures disk keep pictures (a.having p.entry content.toBytes) := by
  rw [WorkingCopy.putPictures]
  cases contains : a.contains p.entry with
  | error cause => exact .inl ⟨_, rfl⟩
  | ok present =>
    simp only
    split
    · next kept =>
      rw [Bool.and_eq_true] at kept
      exact .inr (.inl ⟨kept.1, by rw [kept.2], rfl⟩)
    · next put =>
      rw [putFile]
      cases read : disk.read p.source with
      | error cause => exact .inl ⟨_, rfl⟩
      | ok content =>
        simp only
        rcases a.put_cases p.entry content.toBytes with ⟨-, stops⟩ | ⟨-, done⟩
        · rw [stops]
          exact .inl ⟨_, rfl⟩
        · rw [done]
          refine .inr (.inr ⟨content, fun kept => ?_, rfl, rfl⟩)
          simpa [kept] using put

/-! ### Edits that put members -/

/-- Puts several contents, one after the other. -/
def putAll (puts : List (Text × ByteArray)) (members : List Held) : List Held :=
  puts.foldl (fun members p => putMember p.1 p.2 members) members

theorem putAll_append (puts more : List (Text × ByteArray)) (members : List Held) :
    putAll (puts ++ more) members = putAll more (putAll puts members) :=
  List.foldl_append

/-- A package in which several members were put. -/
def havingAll (a : Archive) (puts : List (Text × ByteArray)) : Archive :=
  puts.foldl (fun a p => a.having p.1 p.2) a

theorem havingAll_append (a : Archive) (puts more : List (Text × ByteArray)) :
    a.havingAll (puts ++ more) = (a.havingAll puts).havingAll more :=
  List.foldl_append

@[simp] theorem location_havingAll (a : Archive) (puts : List (Text × ByteArray)) :
    (a.havingAll puts).location = a.location := by
  induction puts generalizing a with
  | nil => rfl
  | cons p puts ih => exact ih (a.having p.1 p.2)

@[simp] theorem held_havingAll (a : Archive) (puts : List (Text × ByteArray)) :
    (a.havingAll puts).held = putAll puts a.held := by
  induction puts generalizing a with
  | nil => rfl
  | cons p puts ih => exact ih (a.having p.1 p.2)

@[simp] theorem dirty_havingAll (a : Archive) (puts : List (Text × ByteArray)) :
    (a.havingAll puts).dirty = (a.dirty || !puts.isEmpty) := by
  induction puts generalizing a with
  | nil => simp [havingAll]
  | cons p puts ih =>
    show ((a.having p.1 p.2).havingAll puts).dirty = _
    rw [ih]
    simp [having]

/-- An edit that does nothing but put members with touched names. -/
def Puts {α : Type} (touched : List Text) (edit : Archive → Except Error α × Archive) : Prop :=
  ∀ a, ∃ puts : List (Text × ByteArray),
    (∀ p ∈ puts, p.1 ∈ touched) ∧ (edit a).2 = a.havingAll puts

theorem Keeps.putAll {touched : List Text} {puts : List (Text × ByteArray)}
    (named : ∀ p ∈ puts, p.1 ∈ touched) (members : List Held) :
    Keeps touched members (putAll puts members) := by
  induction puts generalizing members with
  | nil => exact .refl _ _
  | cons p puts ih =>
    have first : Keeps touched members (putMember p.1 p.2 members) :=
      (Keeps.put _ _ _).mono (by simpa using named p List.mem_cons_self)
    exact first.trans (ih (fun q mem => named q (List.mem_cons_of_mem _ mem)) _)

namespace Puts

variable {α : Type} {touched more : List Text} {edit : Archive → Except Error α × Archive}

theorem edits (h : Puts touched edit) : Edits touched edit := by
  constructor
  · intro a
    obtain ⟨puts, -, same⟩ := h a
    rw [same, location_havingAll]
  · intro a
    obtain ⟨puts, named, same⟩ := h a
    rw [same, held_havingAll]
    exact Keeps.putAll named a.held
  · intro a clean
    obtain ⟨puts, -, same⟩ := h a
    rw [same] at clean ⊢
    cases puts with
    | nil => rfl
    | cons p puts => simp at clean

theorem mono (h : Puts touched edit) (sub : touched ⊆ more) : Puts more edit := by
  intro a
  obtain ⟨puts, named, same⟩ := h a
  exact ⟨puts, fun p mem => sub (named p mem), same⟩

theorem putText (name t : Text) : Puts [name] (WorkingCopy.putText name t) := by
  intro a
  rw [WorkingCopy.putText, Archive.putText]
  rcases a.put_cases name t.toBytes with ⟨-, stops⟩ | ⟨-, put⟩
  · exact ⟨[], by simp, by rw [stops]; rfl⟩
  · exact ⟨[(name, t.toBytes)], by simp, by rw [put]; rfl⟩

theorem putPictures (disk : Disk) (keep : Bool) (pictures : List Picture) :
    Puts (pictures.map Picture.entry) (WorkingCopy.putPictures disk keep pictures) := by
  induction pictures with
  | nil => exact fun a => ⟨[], by simp, rfl⟩
  | cons p pictures ih =>
    intro a
    have later := ih.mono (List.subset_cons_self p.entry _)
    rcases putPictures_cons_cases disk keep p pictures a with
      ⟨cause, stops⟩ | ⟨-, -, passed⟩ | ⟨content, -, -, put⟩
    · exact ⟨[], by simp, by rw [stops]; rfl⟩
    · rw [passed]
      exact later a
    · obtain ⟨puts, named, same⟩ := later (a.having p.entry content.toBytes)
      refine ⟨(p.entry, content.toBytes) :: puts, ?_, by rw [put, same]; rfl⟩
      intro q mem
      rcases List.mem_cons.1 mem with rfl | mem
      · exact List.mem_cons_self
      · exact named q mem

end Puts

namespace Edits

theorem putText (name t : Text) : Edits [name] (WorkingCopy.putText name t) :=
  (Puts.putText name t).edits

theorem putPictures (disk : Disk) (keep : Bool) (pictures : List Picture) :
    Edits (pictures.map Picture.entry) (WorkingCopy.putPictures disk keep pictures) :=
  (Puts.putPictures disk keep pictures).edits

end Edits

end Archive

/-! ## Sessions that can be edited -/

open Archive (contentOf Ordinary Keeps Edits rewritten)

namespace Session

/-- The session has a working copy that is closed and holds the given members. -/
def Holds (σ : Session) (members : List Held) : Prop :=
  ∃ w content, σ.working = some w ∧ w.archive.isOpen = false ∧
    σ.disk.temporary? w.file = some content ∧ content.read = .ok members

/-- A new package can be prepared beside the working copy. -/
def Staged (σ : Session) : Prop :=
  ∀ w, σ.working = some w → σ.disk.stage (.temporary w.file) = .ok ()

/-- The session holds a package that can be written. -/
structure Ready (σ : Session) (members : List Held) : Prop where
  holds : σ.Holds members
  staged : σ.Staged
  fits : members.all Held.fits = true

/-- A working copy holds one list of members. -/
theorem Holds.unique {σ : Session} {ms ns : List Held} (hm : σ.Holds ms) (hn : σ.Holds ns) :
    ms = ns := by
  obtain ⟨w, content, working, -, file, read⟩ := hm
  obtain ⟨w', content', working', -, file', read'⟩ := hn
  rw [working] at working'
  cases working'
  rw [file] at file'
  cases file'
  rw [read] at read'
  cases read'
  rfl

section WithOpen

variable {α : Type} {touched : List Text} {edit : Archive → Except Error α × Archive} {σ : Session}
  {members : List Held}

theorem openAt_of_holds {w : WorkingCopy} {disk : Disk} {content : File}
    (closed : w.archive.isOpen = false) (file : disk.temporary? w.file = some content)
    (read : content.read = .ok members) :
    w.archive.openAt disk (.temporary w.file)
      = (.ok (), ⟨some (.temporary w.file), members, false⟩) := by
  have shut : w.archive.location = none := by
    simpa [Archive.isOpen] using closed
  rw [Archive.openAt, shut, Archive.load, Disk.fetch, file]
  simp only [read]

/-- An edit of the package opens it, edits it and closes it. -/
theorem withOpen_eq {w : WorkingCopy} {content : File} {result : Except Error α} {b : Archive}
    (working : σ.working = some w) (closed : w.archive.isOpen = false)
    (file : σ.disk.temporary? w.file = some content) (read : content.read = .ok members)
    (edited : edit ⟨some (.temporary w.file), members, false⟩ = (result, b)) :
    σ.withOpen edit =
      ((match result, (b.close σ.disk).1 with
          | .error cause, _ => .error cause
          | .ok _, .error cause => .error (.notExported (.archive cause))
          | .ok a, .ok () => .ok a),
        { σ with
          working := some { w with archive := (b.close σ.disk).2.1 }
          disk := (b.close σ.disk).2.2 }) := by
  rw [withOpen, working]
  simp only [WorkingCopy.withOpen, closed, Bool.false_eq_true, if_false,
    openAt_of_holds closed file read, edited]
  rcases b.close σ.disk with ⟨_ | _, archive, disk⟩
  · cases result
    · rfl
    · rfl
  · cases result
    · rfl
    · rfl

/-- All that can come of an edit of the package: nothing was put; or everything is written; or the new
package cannot be prepared or some name is too long, and the call fails and nothing is written. -/
theorem withOpen_cases (h : σ.Holds members) (edits : Edits touched edit) :
    ∃ location, ∀ done, edit ⟨some location, members, false⟩ = done →
      (done.2.dirty = false ∧ (σ.withOpen edit).1 = done.1 ∧
        (σ.withOpen edit).2.Holds members) ∨
      (done.2.dirty = true ∧ done.2.held.all Held.fits = true ∧
        (σ.withOpen edit).1 = done.1 ∧
        (σ.withOpen edit).2.Holds (rewritten done.2.held)) ∨
      (done.2.dirty = true ∧ (σ.Staged → done.2.held.all Held.fits = false) ∧
        (∃ cause, (σ.withOpen edit).1 = .error cause) ∧ (σ.withOpen edit).2.Holds members) := by
  obtain ⟨w, content, working, closed, file, read⟩ := h
  refine ⟨.temporary w.file, fun done edited => ?_⟩
  obtain ⟨result, b⟩ := done
  have at_ : b.location = some (.temporary w.file) := by
    have := edits.location ⟨some (.temporary w.file), members, false⟩
    rw [edited] at this
    exact this
  rw [withOpen_eq working closed file read edited, Archive.close, at_]
  simp only
  cases dirty : b.dirty with
  | false =>
    refine .inl ⟨rfl, ?_, ?_⟩
    · cases result
      · rfl
      · rfl
    · exact ⟨_, content, rfl, rfl, file, read⟩
  | true =>
    right
    simp only [if_true]
    cases stored : Archive.store σ.disk (.temporary w.file) b.entries with
    | error cause =>
      refine .inr ⟨trivial, fun staged => ?_, ?_, ?_⟩
      · rw [← Bool.not_eq_true]
        intro fits
        have done := Archive.store_temporary_eq_ok_iff.2
          ⟨staged w working, b.all_fits_entries.trans fits, rfl⟩
        rw [stored] at done
        cases done
      · cases result with
        | error cause => exact ⟨cause, rfl⟩
        | ok a => exact ⟨_, rfl⟩
      · exact ⟨_, content, rfl, rfl, file, read⟩
    | ok changed =>
      obtain ⟨-, fits, rfl⟩ := Archive.store_temporary_eq_ok_iff.1 stored
      refine .inl ⟨trivial, b.all_fits_entries ▸ fits, ?_, ?_⟩
      · cases result
        · rfl
        · rfl
      · exact ⟨_, _, rfl, rfl, Disk.temporary?_fillTemporary _ _ _, Archive.read_toFile b.held⟩

/-- Whatever comes of an edit, the session holds a package that keeps what was not touched. -/
theorem Holds.withOpen (h : σ.Holds members) (edits : Edits touched edit) :
    ∃ after, (σ.withOpen edit).2.Holds after ∧ Keeps touched members after ∧
      (members.all Held.fits = true → after.all Held.fits = true) := by
  obtain ⟨location, cases⟩ := withOpen_cases h edits
  have kept := edits.keeps ⟨some location, members, false⟩
  rcases cases _ rfl with ⟨-, -, held⟩ | ⟨-, fits, -, held⟩ | ⟨-, -, -, held⟩
  · exact ⟨members, held, .refl _ _, id⟩
  · refine ⟨_, held, kept.trans (.rewritten _ _), fun _ => ?_⟩
    exact Archive.all_fits_rewritten fits
  · exact ⟨members, held, .refl _ _, id⟩

/-- A session whose package was edited held one. -/
theorem holds_of_withOpen_ok {a : α} (h : (σ.withOpen edit).1 = .ok a) :
    ∃ members, σ.Holds members := by
  rw [Session.withOpen] at h
  cases working : σ.working with
  | none => rw [working] at h; cases h
  | some w =>
    rw [working] at h
    simp only [WorkingCopy.withOpen] at h
    cases closed : w.archive.isOpen with
    | true => rw [closed] at h; cases h
    | false =>
      simp only [closed, Bool.false_eq_true, if_false] at h
      rcases opening : w.archive.openAt σ.disk (.temporary w.file) with ⟨cause | ⟨⟩, opened⟩
      · rw [opening] at h
        cases h
      · rw [Archive.openAt] at opening
        split at opening
        · cases opening
        · rw [Archive.load, Disk.fetch] at opening
          cases file : σ.disk.temporary? w.file with
          | none => rw [file] at opening; cases opening
          | some content =>
            rw [file] at opening
            simp only at opening
            cases read : content.read with
            | error fault => rw [read] at opening; cases opening
            | ok members => exact ⟨members, w, content, working, closed, file, read⟩

/-- An edit changes the session only in its working copy. -/
theorem detached_withOpen (σ : Session) (edits : Edits touched edit) :
    (σ.withOpen edit).2.detached = σ.detached := by
  rw [Session.withOpen]
  cases working : σ.working with
  | none => rfl
  | some w =>
    simp only [detached]
    rw [w.bare_withOpen σ.disk edits.location]

/-- An edit of the package leaves the working copy in its file. -/
theorem map_file_withOpen (σ : Session) (edits : Edits touched edit) :
    (σ.withOpen edit).2.working.map WorkingCopy.file = σ.working.map WorkingCopy.file := by
  rw [Session.withOpen]
  cases working : σ.working with
  | none => rw [working]
  | some w => exact congrArg some (w.discard_withOpen σ.disk edits.location).1

end WithOpen

/-- Whether a new package can be prepared depends on what has a path, and on the file of the working
copy. -/
theorem Staged.of_detached_eq {σ τ : Session} (h : σ.Staged) (same : τ.detached = σ.detached)
    (file : τ.working.map WorkingCopy.file = σ.working.map WorkingCopy.file) : τ.Staged := by
  intro w working
  have bare : τ.disk.bare = σ.disk.bare := congrArg Session.disk same
  rw [working, Option.map_some, eq_comm, Option.map_eq_some_iff] at file
  obtain ⟨v, working', file⟩ := file
  rw [← Disk.stage_bare, bare, Disk.stage_bare, ← file]
  exact h v working'

theorem Staged.withOpen {α : Type} {touched : List Text} {edit : Archive → Except Error α × Archive}
    {σ : Session} (h : σ.Staged) (edits : Edits touched edit) : (σ.withOpen edit).2.Staged :=
  h.of_detached_eq (detached_withOpen σ edits) (map_file_withOpen σ edits)

/-- Whatever comes of an edit, a package that could be written can still be written. -/
theorem Ready.withOpen {α : Type} {touched : List Text} {edit : Archive → Except Error α × Archive}
    {σ : Session} {members : List Held} (h : σ.Ready members) (edits : Edits touched edit) :
    ∃ after, (σ.withOpen edit).2.Ready after ∧ Keeps touched members after := by
  obtain ⟨after, held, kept, fits⟩ := h.holds.withOpen edits
  exact ⟨after, ⟨held, h.staged.withOpen edits, fits h.fits⟩, kept⟩

/-- The files that have a path are the same in sessions with the same detached form. -/
theorem read_eq_of_detached_eq {σ τ : Session} (h : σ.detached = τ.detached) (path : Text) :
    σ.disk.read path = τ.disk.read path := by
  have bare : σ.disk.bare = τ.disk.bare := congrArg Session.disk h
  rw [← Disk.read_bare, bare, Disk.read_bare]

end Session

/-! ## Pictures -/

/-- The bytes of the image that a picture is copied from. -/
def Picture.bytes? (disk : Disk) (p : Picture) : Option ByteArray :=
  (disk.read p.source).toOption.map File.toBytes

theorem Picture.bytes?_of_read {disk : Disk} {p : Picture} {content : File}
    (h : disk.read p.source = .ok content) : p.bytes? disk = some content.toBytes := by
  rw [Picture.bytes?, h]
  rfl

theorem Picture.entry_eq_cons (p : Picture) :
    p.entry = 'P' :: (Part.picturesDirectory.tail ++ p.file) := rfl

/-- No picture is put under a name that begins with another letter. -/
theorem Picture.find?_entry_eq_none {name : Text} (other : name.head? ≠ some 'P')
    (pictures : List Picture) : (pictures.find? fun p => p.entry == name) = none := by
  rw [List.find?_eq_none]
  intro p _ same
  rw [beq_iff_eq] at same
  rw [← same] at other
  exact other rfl

/-- No picture has the name of a text. -/
theorem Picture.entry_notMem_texts (p : Picture) :
    p.entry ∉ [Part.content, Part.styles, Part.manifest, Part.meta_] := by
  have heads : ∀ name ∈ [Part.content, Part.styles, Part.manifest, Part.meta_],
      name.head? ≠ some 'P' := by decide
  intro mem
  refine heads _ mem ?_
  rw [Picture.entry_eq_cons]
  rfl

namespace WorkingCopy

variable {disk : Disk}

/-- If all images can be read, their pictures can be put. -/
theorem putPictures_of_readable (keep : Bool) {pictures : List Picture} {a : Archive}
    (opened : a.location.isSome = true)
    (readable : ∀ p ∈ pictures, ∃ content, disk.read p.source = .ok content) :
    ∃ b, putPictures disk keep pictures a = (.ok (), b) := by
  induction pictures generalizing a with
  | nil => exact ⟨a, rfl⟩
  | cons p pictures ih =>
    have later := fun q mem => readable q (List.mem_cons_of_mem _ mem)
    obtain ⟨content, read⟩ := readable p List.mem_cons_self
    rw [putPictures, Archive.contains_of_open opened]
    simp only
    split
    · exact ih opened later
    · rw [Archive.putFile, read]
      simp only [Archive.put_of_open opened]
      exact ih opened later

/-- Of several pictures with one name the first stays, behind a member that was there. -/
theorem contentOf_putPictures_keep {pictures : List Picture} {a b : Archive}
    (opened : a.location.isSome = true) (h : putPictures disk true pictures a = (.ok (), b))
    (name : Text) :
    contentOf b.held name = (contentOf a.held name).or
      ((pictures.find? fun p => p.entry == name).bind (Picture.bytes? disk)) := by
  induction pictures generalizing a with
  | nil =>
    cases h
    simp
  | cons p pictures ih =>
    have contains := Archive.contains_of_open opened p.entry
    rcases Archive.putPictures_cons_cases disk true p pictures a with
      ⟨cause, stops⟩ | ⟨-, present, passed⟩ | ⟨content, absent, read, put⟩
    · rw [stops] at h
      cases h
    · rw [passed] at h
      rw [ih opened h]
      by_cases same : p.entry = name
      · rw [contains, Except.ok.injEq] at present
        obtain ⟨data, found⟩ := Option.isSome_iff_exists.1 present
        rw [← same, found, Option.some_or, Option.some_or]
      · rw [List.find?_cons_of_neg (by simpa using same)]
    · rw [put] at h
      rw [ih (a := a.having p.entry content.toBytes) opened h, Archive.having,
        Archive.contentOf_putMember]
      by_cases same : p.entry = name
      · have none : contentOf a.held name = none := by
          have absent := absent rfl
          rw [contains, same, Except.ok.injEq] at absent
          simpa using absent
        rw [if_pos same.symm, none, List.find?_cons_of_pos (by simpa using same), Option.some_or,
          Option.none_or, Option.bind_some, Picture.bytes?_of_read read]
      · rw [if_neg (Ne.symm same), List.find?_cons_of_neg (by simpa using same)]

/-- Pictures that were put over all others could be read. -/
theorem readable_of_putPictures {pictures : List Picture} {a b : Archive}
    (h : putPictures disk false pictures a = (.ok (), b)) :
    ∀ p ∈ pictures, ∃ content, disk.read p.source = .ok content := by
  induction pictures generalizing a with
  | nil => exact fun p mem => absurd mem List.not_mem_nil
  | cons p pictures ih =>
    rcases Archive.putPictures_cons_cases disk false p pictures a with
      ⟨cause, stops⟩ | ⟨keeps, -⟩ | ⟨content, -, read, put⟩
    · rw [stops] at h
      cases h
    · cases keeps
    · rw [put] at h
      intro q mem
      rcases List.mem_cons.1 mem with rfl | mem
      · exact ⟨content, read⟩
      · exact ih h q mem

/-- Of several pictures with one name the last stays, in place of a member that was there. -/
theorem contentOf_putPictures {pictures : List Picture} {a b : Archive}
    (h : putPictures disk false pictures a = (.ok (), b)) (name : Text) :
    contentOf b.held name =
      ((pictures.reverse.find? fun p => p.entry == name).bind (Picture.bytes? disk)).or
        (contentOf a.held name) := by
  induction pictures generalizing a with
  | nil =>
    cases h
    simp
  | cons p pictures ih =>
    rcases Archive.putPictures_cons_cases disk false p pictures a with
      ⟨cause, stops⟩ | ⟨keeps, -⟩ | ⟨content, -, read, put⟩
    · rw [stops] at h
      cases h
    · cases keeps
    · rw [put] at h
      rw [ih h, Archive.having, Archive.contentOf_putMember, List.reverse_cons,
        List.find?_append]
      cases found : pictures.reverse.find? fun p => p.entry == name with
      | some q =>
        have mem : q ∈ pictures := List.mem_reverse.1 (List.mem_of_find?_eq_some found)
        obtain ⟨content, read⟩ := readable_of_putPictures h q mem
        simp [Picture.bytes?_of_read read]
      | none =>
        by_cases same : p.entry = name
        · simp [same, Picture.bytes?_of_read read]
        · simp [same, Ne.symm same]

end WorkingCopy

end DocumentMerge
