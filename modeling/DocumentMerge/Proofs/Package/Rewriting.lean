import DocumentMerge.Proofs.Package.Editing
import Mathlib.Data.List.Nodup

/-!
# Packages that are written again and again

A package is opened, members are put, and it is written back; later it is opened again, and so on.
Every writing brings the media type to the front and may keep a member by another method.  This file
says what a package has become after all that, in terms of what it was at first and of the list of
all that was put into it.

The key is `rewritten_putAll_rewritten`: a writing in between makes no difference, because the last
one does again what the earlier ones did.  So it is enough to know one writing:

* `map_name_putAll` and `map_name_rewritten` are the names in their order;
* `contentOf_putAll` is what is found under a name, and `compressionOf_putAll` how it is kept;
* `data_of_mem_rewritten` and `compression_of_mem_rewritten` say both of the members that are written.

`Rewrites` is what any number of edits can make of a package, if they touch only some names;
`Holds.rewrites` and `Holds.putText` say that an edit of the working copy makes one of it.
-/

namespace DocumentMerge

open Zip (Compression Held)

namespace Archive

/-! ## A writing in between -/

/-- How a member of a name is kept when it was written. -/
def writtenCompression (name : Text) (compression : Compression) : Compression :=
  if name = Part.mimetype ∨ Zip.isDirectoryName name = true ∨ compression = .stored then .stored
  else .deflated

theorem writtenCompression_of_stored {name : Text} {compression : Compression}
    (h : name = Part.mimetype ∨ compression = .stored) :
    writtenCompression name compression = .stored := by
  rw [writtenCompression, if_pos]
  rcases h with media | stored
  · exact .inl media
  · exact .inr (.inr stored)

theorem writtenCompression_of_file {name : Text} {compression : Compression}
    (file : Zip.isDirectoryName name = false) (other : name ≠ Part.mimetype)
    (compressed : compression ≠ .stored) : writtenCompression name compression = .deflated := by
  rw [writtenCompression, if_neg]
  simp [file, other, compressed]

/-- The content that is written of a member of a name. -/
def writtenData (name : Text) (data : ByteArray) : ByteArray :=
  if Zip.isDirectoryName name = true then ByteArray.empty else data

/-- A member is written under its name, and the name and how it was kept say how. -/
theorem settled_eq (h : Held) :
    settled h = ⟨h.name, writtenCompression h.name h.compression, writtenData h.name h.data⟩ := by
  rw [settled, written, writtenCompression, writtenData]
  by_cases directory : Zip.isDirectoryName h.name = true
  · rw [if_pos directory, if_pos (.inr (.inl directory)), if_pos directory]
    rfl
  · by_cases media : h.name = Part.mimetype
    · rw [if_neg directory, if_pos media, if_pos (.inl media), if_neg directory]
      rfl
    · rw [if_neg directory, if_neg media, if_neg directory]
      simp only [media, directory, false_or, Held.member, Zip.Member.held]
      cases h.compression with
      | stored => rfl
      | deflated => rfl
      | coded codec => rfl

@[simp] theorem writtenCompression_twice (name : Text) (compression : Compression) :
    writtenCompression name (writtenCompression name compression)
      = writtenCompression name compression := by
  unfold writtenCompression
  split
  · rw [if_pos (.inr (.inr rfl))]
  · next other =>
    rw [if_neg]
    simp only [not_or] at other ⊢
    exact ⟨other.1, other.2.1, by simp⟩

@[simp] theorem writtenData_twice (name : Text) (data : ByteArray) :
    writtenData name (writtenData name data) = writtenData name data := by
  unfold writtenData
  by_cases h : Zip.isDirectoryName name = true
  · rw [if_pos h, if_pos h]
  · rw [if_neg h, if_neg h]

@[simp] theorem settled_settled (h : Held) : settled (settled h) = settled h := by
  simp [settled_eq]

theorem map_settled_putMember (name : Text) (data : ByteArray) (members : List Held) :
    (putMember name data (members.map settled)).map settled
      = (putMember name data members).map settled := by
  induction members with
  | nil => rfl
  | cons m ms ih =>
    rw [List.map_cons, putMember, putMember, name_settled]
    by_cases here : m.name = name
    · rw [if_pos here, if_pos here, List.map_cons, List.map_cons, List.map_map]
      congr 1
      · simp [settled_eq]
      · congr 1
        funext m
        exact settled_settled m
    · rw [if_neg here, if_neg here, List.map_cons, List.map_cons, settled_settled, ih]

/-- Among the members whose names are chosen, a member is put if its own name is chosen. -/
theorem filter_putMember (chosen : Text → Bool) (name : Text) (data : ByteArray)
    (members : List Held) :
    (putMember name data members).filter (fun m => chosen m.name) =
      if chosen name then putMember name data (members.filter fun m => chosen m.name)
      else members.filter fun m => chosen m.name := by
  induction members with
  | nil =>
    rw [putMember, List.filter_cons]
    rfl
  | cons m ms ih =>
    rw [putMember]
    by_cases here : m.name = name
    · subst here
      by_cases pick : chosen m.name = true
      · simp [pick, putMember]
      · simp [pick]
    · rw [if_neg here, List.filter_cons, List.filter_cons, ih]
      by_cases pick : chosen m.name = true
      · rw [if_pos pick, if_pos pick]
        split
        · rw [putMember, if_neg here]
        · rfl
      · rw [if_neg pick, if_neg pick]

theorem filter_ordered (chosen : Text → Bool) (members : List Held) :
    (ordered Held.name members).filter (fun m => chosen m.name)
      = ordered Held.name (members.filter fun m => chosen m.name) := by
  rw [ordered, List.filter_append, List.filter_filter, List.filter_filter, ordered,
    List.filter_filter, List.filter_filter]
  congr 1
  · congr 1
    funext m
    rw [Bool.and_comm]
  · congr 1
    funext m
    rw [Bool.and_comm]

theorem ordered_of_all {members : List Held}
    (same : (∀ m ∈ members, m.name = Part.mimetype) ∨ ∀ m ∈ members, m.name ≠ Part.mimetype) :
    ordered Held.name members = members := by
  rw [ordered]
  rcases same with media | other
  · rw [List.filter_eq_self.2 (by simpa using media), List.filter_eq_nil_iff.2 (by simpa using media),
      List.append_nil]
  · rw [List.filter_eq_nil_iff.2 (by simpa using other), List.filter_eq_self.2 (by simpa using other),
      List.nil_append]

/-- Members that are brought into order twice, with something put in between, are brought into order
once. -/
theorem ordered_putMember_ordered (name : Text) (data : ByteArray) (members : List Held) :
    ordered Held.name (putMember name data (ordered Held.name members))
      = ordered Held.name (putMember name data members) := by
  have front : (ordered Held.name members).filter (fun m => m.name == Part.mimetype)
      = members.filter fun m => m.name == Part.mimetype := by
    rw [filter_ordered (· == Part.mimetype), ordered_of_all (.inl (by simp))]
  have back : (ordered Held.name members).filter (fun m => m.name != Part.mimetype)
      = members.filter fun m => m.name != Part.mimetype := by
    rw [filter_ordered (· != Part.mimetype), ordered_of_all (.inr (by simp))]
  rw [ordered, filter_putMember (· == Part.mimetype), filter_putMember (· != Part.mimetype), front,
    back, ordered, filter_putMember (· == Part.mimetype), filter_putMember (· != Part.mimetype)]

theorem ordered_map_settled (members : List Held) :
    ordered Held.name (members.map settled) = (ordered Held.name members).map settled := by
  have names : Held.name ∘ settled = Held.name := funext name_settled
  rw [ordered_map, names]

theorem rewritten_putMember_rewritten (name : Text) (data : ByteArray) (members : List Held) :
    rewritten (putMember name data (rewritten members)) = rewritten (putMember name data members) := by
  rw [rewritten, rewritten, ← ordered_map_settled, map_settled_putMember, ordered_map_settled,
    ordered_putMember_ordered, rewritten]

theorem rewritten_rewritten (members : List Held) :
    rewritten (rewritten members) = rewritten members := by
  have again : ordered Held.name (ordered Held.name members) = ordered Held.name members := by
    rw [ordered, filter_ordered (· == Part.mimetype), filter_ordered (· != Part.mimetype),
      ordered_of_all (.inl (by simp)), ordered_of_all (.inr (by simp)), ordered]
  rw [rewritten, rewritten, ordered_map_settled, again, List.map_map]
  congr 1
  funext m
  exact settled_settled m

/-- **A writing in between makes no difference.**  A package that is written, gets members and is
written again becomes what it would have become without the first writing. -/
theorem rewritten_putAll_rewritten (puts : List (Text × ByteArray)) (members : List Held) :
    rewritten (putAll puts (rewritten members)) = rewritten (putAll puts members) := by
  induction puts generalizing members with
  | nil => exact rewritten_rewritten members
  | cons p puts ih =>
    show rewritten (putAll puts (putMember p.1 p.2 (rewritten members))) = _
    rw [← ih, rewritten_putMember_rewritten, ih]
    rfl

/-! ## Names -/

theorem map_name_putMember (name : Text) (data : ByteArray) (members : List Held) :
    (putMember name data members).map Held.name =
      if name ∈ members.map Held.name then members.map Held.name
      else members.map Held.name ++ [name] := by
  induction members with
  | nil => rfl
  | cons m ms ih =>
    rw [putMember]
    by_cases here : m.name = name
    · simp [here]
    · rw [if_neg here, List.map_cons, ih, List.map_cons]
      by_cases there : name ∈ ms.map Held.name
      · rw [if_pos there, if_pos (List.mem_cons_of_mem _ there)]
      · have away : name ∉ m.name :: ms.map Held.name := by
          rw [List.mem_cons, not_or]
          exact ⟨Ne.symm here, there⟩
        rw [if_neg there, if_neg away, List.cons_append]

/-- The names that were there stay in their order, and the new ones follow in the order in which they
were put first. -/
theorem map_name_putAll (puts : List (Text × ByteArray)) (members : List Held) :
    (putAll puts members).map Held.name = members.map Held.name
      ++ ((puts.map Prod.fst).filter fun name => name ∉ members.map Held.name).eraseDups := by
  induction puts generalizing members with
  | nil => simp [putAll]
  | cons p puts ih =>
    show (putAll puts (putMember p.1 p.2 members)).map Held.name = _
    rw [ih, map_name_putMember, List.map_cons]
    by_cases there : p.1 ∈ members.map Held.name
    · rw [if_pos there, List.filter_cons_of_neg (by simpa using there)]
    · rw [if_neg there, List.filter_cons_of_pos (by simpa using there), List.eraseDups_cons,
        List.filter_filter, List.append_assoc, List.singleton_append]
      congr 3
      congr 1
      funext name
      simp [Bool.and_comm, not_or, Bool.beq_eq_decide_eq]

/-- Names with that of the media type in front. -/
def mimetypeFirst (names : List Text) : List Text :=
  if Part.mimetype ∈ names then Part.mimetype :: names.erase Part.mimetype else names

theorem perm_mimetypeFirst (names : List Text) : (mimetypeFirst names).Perm names := by
  rw [mimetypeFirst]
  split
  · next present => exact (List.perm_cons_erase present).symm
  · rfl

/-- Names that are put behind stay there. -/
theorem mimetypeFirst_append {names more : List Text} (absent : Part.mimetype ∉ more) :
    mimetypeFirst (names ++ more) = mimetypeFirst names ++ more := by
  rw [mimetypeFirst, mimetypeFirst]
  by_cases present : Part.mimetype ∈ names
  · rw [if_pos (List.mem_append_left _ present), if_pos present, List.erase_append_left _ present,
      List.cons_append]
  · rw [if_neg (by simp [present, absent]), if_neg present]

/-- A package is written with the media type in front. -/
theorem map_name_rewritten {members : List Held} (distinct : (members.map Held.name).Nodup) :
    (rewritten members).map Held.name = mimetypeFirst (members.map Held.name) := by
  have split : (rewritten members).map Held.name =
      (members.map Held.name).filter (· == Part.mimetype)
        ++ (members.map Held.name).filter (· != Part.mimetype) := by
    have same : Held.name ∘ settled = Held.name := funext name_settled
    rw [rewritten, List.map_map, same, ordered, List.map_append, List.filter_map, List.filter_map]
    rfl
  rw [split, mimetypeFirst, List.filter_beq, ← distinct.erase_eq_filter]
  split
  · next present =>
    rw [List.count_eq_one_of_mem distinct present, List.replicate_one, List.singleton_append]
  · next absent => rw [List.count_eq_zero_of_not_mem absent, List.erase_of_not_mem absent,
      List.replicate_zero, List.nil_append]

theorem nodup_putMember {members : List Held} (distinct : (members.map Held.name).Nodup)
    (name : Text) (data : ByteArray) : ((putMember name data members).map Held.name).Nodup := by
  rw [map_name_putMember]
  split
  · exact distinct
  · next absent => exact distinct.append (List.nodup_singleton name) (by simpa using absent)

theorem nodup_putAll {members : List Held} (distinct : (members.map Held.name).Nodup)
    (puts : List (Text × ByteArray)) : ((putAll puts members).map Held.name).Nodup := by
  induction puts generalizing members with
  | nil => exact distinct
  | cons p puts ih => exact ih (nodup_putMember distinct p.1 p.2)

theorem nodup_rewritten {members : List Held} (distinct : (members.map Held.name).Nodup) :
    ((rewritten members).map Held.name).Nodup := by
  rw [map_name_rewritten distinct]
  exact (perm_mimetypeFirst _).nodup_iff.2 distinct

/-! ## Contents and methods -/

/-- The content that was put under a name last, or else that of the member. -/
theorem contentOf_putAll (puts : List (Text × ByteArray)) (members : List Held) (name : Text) :
    contentOf (putAll puts members) name = (puts.reverse.lookup name).or (contentOf members name) := by
  induction puts generalizing members with
  | nil => simp [putAll]
  | cons p puts ih =>
    show contentOf (putAll puts (putMember p.1 p.2 members)) name = _
    rw [ih, contentOf_putMember, List.reverse_cons, List.lookup_append, Option.or_assoc]
    congr 1
    by_cases here : name = p.1
    · rw [if_pos here, here, List.lookup_cons_self, Option.some_or]
    · rw [if_neg here, List.lookup_cons, beq_false_of_ne here]
      rfl

/-- How a member is kept.  One that is not there yet would be compressed. -/
def compressionOf (members : List Held) (name : Text) : Compression :=
  ((members.find? fun m => m.name == name).map Held.compression).getD .deflated

/-- Content that is put does not change how a member is kept. -/
theorem compressionOf_putAll (puts : List (Text × ByteArray)) (members : List Held) (name : Text) :
    compressionOf (putAll puts members) name = compressionOf members name := by
  induction puts generalizing members with
  | nil => rfl
  | cons p puts ih =>
    show compressionOf (putAll puts (putMember p.1 p.2 members)) name = _
    rw [ih, compressionOf, find?_putMember, compressionOf]
    by_cases here : name = p.1
    · rw [if_pos here, here]
      cases members.find? fun m => m.name == p.1 with
      | none => rfl
      | some m => rfl
    · rw [if_neg here]

/-- A member of a name that no other member has is the one that is found. -/
theorem find?_of_mem {members : List Held} (distinct : (members.map Held.name).Nodup) {m : Held}
    (mem : m ∈ members) : members.find? (fun n => n.name == m.name) = some m := by
  induction members with
  | nil => exact absurd mem List.not_mem_nil
  | cons n ms ih =>
    rw [List.map_cons, List.nodup_cons] at distinct
    rcases List.mem_cons.1 mem with rfl | mem
    · rw [List.find?_cons_of_pos (by simp)]
    · have other : n.name ≠ m.name := fun same => distinct.1 (same ▸ List.mem_map_of_mem mem)
      rw [List.find?_cons_of_neg (by simpa using other), ih distinct.2 mem]

section Written

variable {members : List Held} (distinct : (members.map Held.name).Nodup)
  (puts : List (Text × ByteArray)) {m : Held}

include distinct

/-- A member that is written comes from the one of its name. -/
theorem exists_of_mem_rewritten (mem : m ∈ rewritten members) :
    ∃ n, members.find? (fun k => k.name == m.name) = some n ∧ n.name = m.name ∧ settled n = m := by
  have found := find?_of_mem (nodup_rewritten distinct) mem
  rw [find?_rewritten] at found
  obtain ⟨n, first, rfl⟩ := Option.map_eq_some_iff.1 found
  exact ⟨n, first, (name_settled n).symm, rfl⟩

/-- A member that is written is stored if it was stored, and so are the media type and directories; all
others are deflated. -/
theorem compression_of_mem_rewritten (mem : m ∈ rewritten (putAll puts members)) :
    m.compression = writtenCompression m.name (compressionOf members m.name) := by
  obtain ⟨n, first, named, rfl⟩ := exists_of_mem_rewritten (nodup_putAll distinct puts) mem
  rw [← compressionOf_putAll puts, compressionOf, first, settled_eq, named]
  rfl

/-- A file that is written has the content that was put last, or else what it had. -/
theorem data_of_mem_rewritten (mem : m ∈ rewritten (putAll puts members))
    (file : Zip.isDirectoryName m.name = false) :
    (puts.reverse.lookup m.name).or (contentOf members m.name) = some m.data := by
  obtain ⟨n, first, named, rfl⟩ := exists_of_mem_rewritten (nodup_putAll distinct puts) mem
  rw [← contentOf_putAll, contentOf, first, settled_eq, writtenData, named, file]
  rfl

/-- A member that is written has the content that was put last, or else what it had, if there is
none that a directory could lose. -/
theorem data_of_mem_rewritten_of_hollow
    (hollow : ∀ n ∈ members, Zip.isDirectoryName n.name = true → n.data = ByteArray.empty)
    (files : ∀ p ∈ puts, Zip.isDirectoryName p.1 = false) (mem : m ∈ rewritten (putAll puts members)) :
    (puts.reverse.lookup m.name).or (contentOf members m.name) = some m.data := by
  by_cases directory : Zip.isDirectoryName m.name = true
  · have untouched : puts.reverse.lookup m.name = none := by
      rw [List.lookup_eq_none_iff]
      intro p there
      rw [bne_iff_ne]
      intro same
      have file := files p (List.mem_reverse.1 there)
      rw [← show m.name = p.1 from same, directory] at file
      cases file
    obtain ⟨n, first, named, rfl⟩ := exists_of_mem_rewritten (nodup_putAll distinct puts) mem
    have here : contentOf (putAll puts members) (settled n).name = some n.data := by
      rw [contentOf, first]
      rfl
    rw [contentOf_putAll, untouched, Option.none_or] at here
    obtain ⟨k, found, same⟩ := Option.map_eq_some_iff.1 here
    have known : k.name = (settled n).name := by simpa using List.find?_some found
    have empty := hollow k (List.mem_of_find?_eq_some found) (known ▸ directory)
    rw [name_settled] at directory
    rw [untouched, Option.none_or, here, ← same, empty, settled_eq, writtenData, if_pos directory]
  · exact data_of_mem_rewritten distinct puts mem (Bool.eq_false_iff.2 directory)

end Written

/-- What is found under a name under which nothing was put. -/
theorem find?_putAll_of_away {puts : List (Text × ByteArray)} {name : Text}
    (away : ∀ p ∈ puts, p.1 ≠ name) (members : List Held) :
    (putAll puts members).find? (fun m => m.name == name)
      = members.find? fun m => m.name == name := by
  induction puts generalizing members with
  | nil => rfl
  | cons p puts ih =>
    show (putAll puts (putMember p.1 p.2 members)).find? _ = _
    rw [ih (fun q mem => away q (List.mem_cons_of_mem _ mem)), find?_putMember,
      if_neg (Ne.symm (away p List.mem_cons_self))]

/-- A member under whose name nothing was put is written with its content, if there is none that a
directory could lose. -/
theorem contentOf_rewritten_of_away {members : List Held}
    (distinct : (members.map Held.name).Nodup) {puts : List (Text × ByteArray)} {m : Held}
    (mem : m ∈ members) (hollow : Zip.isDirectoryName m.name = true → m.data = ByteArray.empty)
    (away : ∀ p ∈ puts, p.1 ≠ m.name) :
    contentOf (rewritten (putAll puts members)) m.name = some m.data := by
  rw [contentOf, find?_rewritten, find?_putAll_of_away away, find?_of_mem distinct mem,
    Option.map_some, Option.map_some, settled_eq, writtenData]
  split
  · next directory => rw [hollow directory]
  · rfl

/-! ## Any number of edits -/

/-- What becomes of a package that is edited any number of times: nothing was written; or members with
touched names were put, and all was written. -/
inductive Rewrites (touched : List Text) (before : List Held) : List Held → Prop
  | same : Rewrites touched before before
  | put (puts : List (Text × ByteArray)) (named : ∀ p ∈ puts, p.1 ∈ touched)
    (fits : (rewritten (putAll puts before)).all Held.fits = true) :
    Rewrites touched before (rewritten (putAll puts before))

namespace Rewrites

variable {touched more : List Text} {before middle after : List Held}

theorem mono (h : Rewrites touched before after) (sub : touched ⊆ more) :
    Rewrites more before after := by
  cases h with
  | same => exact .same
  | put puts named fits => exact .put puts (fun p mem => sub (named p mem)) fits

/-- Two edits after each other are one with all that was put. -/
theorem trans (first : Rewrites touched before middle) (next : Rewrites touched middle after) :
    Rewrites touched before after := by
  cases first with
  | same => exact next
  | put puts named fits =>
    cases next with
    | same => exact .put puts named fits
    | put later named' fits' =>
      rw [rewritten_putAll_rewritten, ← putAll_append] at fits' ⊢
      refine .put (puts ++ later) (fun p mem => ?_) fits'
      rcases List.mem_append.1 mem with mem | mem
      · exact named p mem
      · exact named' p mem

/-- Members that are put into the package in the end, when it is written for sure. -/
theorem exists_putAll (h : Rewrites touched before middle) {puts : List (Text × ByteArray)}
    (named : ∀ p ∈ puts, p.1 ∈ touched) : ∃ all : List (Text × ByteArray),
      (∀ p ∈ all, p.1 ∈ touched) ∧
        rewritten (putAll puts middle) = rewritten (putAll all before) := by
  cases h with
  | same => exact ⟨puts, named, rfl⟩
  | put earlier named' fits =>
    refine ⟨earlier ++ puts, fun p mem => ?_, ?_⟩
    · rcases List.mem_append.1 mem with mem | mem
      · exact named' p mem
      · exact named p mem
    · rw [rewritten_putAll_rewritten, ← putAll_append]

/-- A name that was not touched has the content it had. -/
theorem contentOf_eq (h : Rewrites touched before after) {name : Text} (ordinary : Ordinary name)
    (away : name ∉ touched) : contentOf after name = contentOf before name := by
  cases h with
  | same => rfl
  | put puts named fits =>
    exact ((Keeps.putAll named before).trans (.rewritten _ _)).content ordinary away

end Rewrites

end Archive

/-! ## Sessions -/

open Archive (Puts Edits Rewrites Ordinary contentOf)

namespace Session

variable {σ : Session} {members : List Held}

/-- An edit that puts members leaves the package as it is, or writes it with them. -/
theorem Holds.rewrites {α : Type} {touched : List Text} {edit : Archive → Except Error α × Archive}
    (held : σ.Holds members) (puts : Puts touched edit) :
    ∃ after, (σ.withOpen edit).2.Holds after ∧ Rewrites touched members after := by
  obtain ⟨location, cases⟩ := withOpen_cases held puts.edits
  obtain ⟨contents, named, same⟩ := puts ⟨some location, members, false⟩
  rcases cases _ rfl with ⟨-, -, held'⟩ | ⟨-, fits, -, held'⟩ | ⟨-, -, -, held'⟩
  · exact ⟨members, held', .same⟩
  · rw [same, Archive.held_havingAll] at fits held'
    exact ⟨_, held', .put contents named (Archive.all_fits_rewritten fits)⟩
  · exact ⟨members, held', .same⟩

/-- A text with a short name is put if the package can be written at all.  It is found there when the
edit succeeds, and else the package is as it was. -/
theorem Holds.putText (held : σ.Holds members) {name : Text} (ordinary : Ordinary name)
    (short : name.toBytes.size ≤ Zip.nameLimit) (t : Text) :
    ∃ after, (σ.withOpen (WorkingCopy.putText name t)).2.Holds after ∧
      Rewrites [name] members after ∧
      (σ.Staged → members.all Held.fits = true →
        (σ.withOpen (WorkingCopy.putText name t)).1 = .ok ()) ∧
      ((σ.withOpen (WorkingCopy.putText name t)).1 = .ok () ∧
          contentOf after name = some t.toBytes ∨
        (∃ cause, (σ.withOpen (WorkingCopy.putText name t)).1 = .error cause) ∧
          after = members) := by
  obtain ⟨location, cases⟩ := withOpen_cases held (Edits.putText name t)
  have put : WorkingCopy.putText name t ⟨some location, members, false⟩
      = (.ok (), Archive.having ⟨some location, members, false⟩ name t.toBytes) := by
    rw [WorkingCopy.putText, Archive.putText, Archive.put_of_open rfl]
    rfl
  rcases cases _ put with
    ⟨clean, -⟩ | ⟨-, fits, answer, held'⟩ | ⟨-, long, ⟨cause, failed⟩, held'⟩
  · cases clean
  · refine ⟨_, held', .put [(name, t.toBytes)] (by simp) (Archive.all_fits_rewritten fits),
      fun _ _ => answer, .inl ⟨answer, ?_⟩⟩
    rw [Archive.contentOf_rewritten ordinary]
    show contentOf (Archive.putMember name t.toBytes members) name = _
    rw [Archive.contentOf_putMember, if_pos rfl]
  · refine ⟨members, held', .same, fun staged fits => ?_, .inr ⟨⟨cause, failed⟩, rfl⟩⟩
    have fits' : (Archive.putMember name t.toBytes members).all Held.fits = true :=
      Archive.fits_of_fresh fits (Archive.map_name_putMember_subset name t.toBytes members)
        (by simpa using short)
    rw [show (Archive.putMember name t.toBytes members).all Held.fits = false from long staged]
      at fits'
    cases fits'

end Session

end DocumentMerge
