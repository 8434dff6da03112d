import DocumentMerge.Proofs.Document.Listing
import DocumentMerge.Proofs.Segment.Rising

/-!
# Files of pictures are neither lost nor doubled

The manifest lists a file for every image that was bound.  On its way from the node of the image to the
document the file is moved by merges, which may fail half-way, and by putting a segment into the content.
In every state in between, the files in all lists are those of the images that were bound so far, and
each of them is in one list, at the node of its image or above.

* `Document.entries`: the files that are listed, the document standing at the top of all paths.
* `bound`: the file of each image that was bound in a course of events, with the node that it was bound on.
* `risen_act`: a call adds the entry of the image that it binds, and otherwise makes entries rise.
* `picture_names_conserved`: what the lists hold after any course of events.
-/

namespace DocumentMerge.Document

open Segment (Entry Risen listedAt entriesAll)

/-- The files that the document and the nodes of its segments list.  The path of the document itself is
empty, and that of a node begins with the name of its segment. -/
def entries (d : Document) : Multiset Entry :=
  listedAt [] d.values.listed + d.root.entries

theorem map_file_entries (d : Document) : d.entries.map Entry.file = d.allListed := by
  rw [entries, Multiset.map_add, Segment.map_file_listedAt, Segment.map_file_entries, allListed,
    ← Multiset.coe_add]

theorem entries_root (d : Document) : d.root.entries = entriesAll d.segments := by
  rw [root, Segment.entries]
  exact zero_add _

/-- A call that names a segment.  Only these change segments. -/
def Action.OnSegments : Action → Prop
  | .declareSegment _ => True
  | .onSegment _ _ _ => True
  | .mergeSegment _ => True
  | _ => False

theorem segments_act {a : Action} (h : ¬ a.OnSegments) (d : Document) :
    (a.act d).2.segments = d.segments := by
  have effect := effect_act a d
  generalize (a.act d).2 = after at effect ⊢
  cases effect with
  | none => rfl
  | bound => rfl
  | declared => exact absurd trivial h
  | called => exact absurd trivial h
  | merged => exact absurd trivial h
  | property => rfl
  | @saved call => exact call.segments_after_call d

/-- The path of the node on which a call is made. -/
def Action.place : Action → List Text
  | .onSegment name path _ => name :: path
  | _ => []

/-- The file of the image that is bound when something happens, with the node that it is bound on. -/
def Event.bound : Event → Document → Multiset Entry
  | .call a, d => listedAt a.place (a.newFiles (a.act d).1)
  | .outside _, _ => 0

/-- The files of all images that are bound while one thing happens after the other.  An image that is
bound twice counts twice. -/
def bound : List Event → Document → Multiset Entry
  | [], _ => 0
  | e :: events, d => e.bound d + bound events (e.happen d)

/-! ## One call -/

section Step

variable {d e : Document} {name : Text}

/-- If the segments stay, only the document's own list matters. -/
theorem risen_of_not_onSegments {a : Action} (h : ¬ a.OnSegments) (d : Document) :
    Risen (d.entries + listedAt a.place (a.newFiles (a.act d).1)) (a.act d).2.entries := by
  have listed := (tracks_act a d).listed
  have roots : (a.act d).2.root = d.root := by rw [root, root, segments_act h]
  have own : a.place = [] := by
    cases a with
    | onSegment name path call => exact absurd trivial h
    | _ => rfl
  rw [← Multiset.coe_eq_coe, ← Multiset.coe_add, allListed, allListed, roots, ← Multiset.coe_add,
    ← Multiset.coe_add, add_right_comm, add_left_inj, Multiset.coe_add, Multiset.coe_eq_coe] at listed
  have here : listedAt [] (a.act d).2.values.listed
      = listedAt [] (d.values.listed ++ a.newFiles (a.act d).1) :=
    Multiset.coe_eq_coe.2 (listed.map _)
  rw [own, entries, entries, roots, here, Segment.listedAt_append, add_right_comm]
  exact .refl _

/-- A segment that was just built has no entries. -/
theorem entries_declareSegment (h : d.declareSegment name = (.ok (), e)) :
    e.entries = d.entries := by
  rcases declareSegment_eq_ok h with rfl | ⟨-, m, s, -, built, rfl⟩
  · rfl
  · have none : s.entries = 0 := Segment.entries_eq_zero (allListed_of_ofRegion built)
    rw [entries, entries, entries_root, entries_root, Segment.entriesAll_append, entriesAll, none]
    exact congrArg _ (add_zero _)

/-- The list of a segment is taken to the top. -/
theorem risen_release {segments : List Segment} {s : Segment}
    (h : (segments.find? fun s => s.name == name) = some s) :
    Risen (entriesAll segments)
      (listedAt [] s.own.values.listed + entriesAll (release name segments)) := by
  induction segments with
  | nil => cases h
  | cons c rest ih =>
    obtain ⟨own, children⟩ := c
    by_cases named : own.name = name
    · rw [List.find?_cons_of_pos (by simpa [Segment.name] using named)] at h
      cases h
      rw [release, if_pos named, entriesAll, entriesAll, Segment.entries, Segment.entries,
        Segment.listedAt_nil, zero_add, Multiset.map_add, Segment.map_below_listedAt, add_assoc]
      exact (Segment.risen_listedAt List.nil_prefix _).add (Risen.refl _)
    · rw [List.find?_cons_of_neg (by simpa [Segment.name] using named)] at h
      rw [release, if_neg named, entriesAll, entriesAll, add_left_comm]
      exact (Risen.refl _).add (ih h)

theorem risen_mergeSegment (h : d.mergeSegment name = (.ok (), e)) :
    Risen d.entries e.entries := by
  obtain ⟨s, m, found, -, rfl⟩ := exists_of_mergeSegment h
  rw [entries, entries, entries_root, entries_root, Segment.listedAt_append, add_assoc]
  exact (Risen.refl _).add (risen_release found)

theorem risen_onSegment (path : List Text) (call : Segment.Action) (d : Document) :
    Risen (d.entries + listedAt (name :: path)
        (call.newFiles (d.onSegment name (Segment.onPath call.call path)).1))
      (d.onSegment name (Segment.onPath call.call path)).2.entries := by
  rcases d.onSegment_cases name (Segment.onPath call.call path) with
    ⟨cause, -, failed⟩ | ⟨e, declared, cases⟩
  · rw [failed, Segment.Action.newFiles_error, Segment.listedAt_nil, add_zero]
    exact .refl _
  · rcases done : Segment.onChild name (Segment.onPath call.call path) e.root e.session
      with ⟨r, t, τ⟩
    obtain ⟨left, tree, -⟩ := cases r t τ done
    have done' : Segment.onPath call.call (name :: path) e.root e.session = (r, t, τ) := done
    rw [left, newFiles_onSegment declared done, ← entries_declareSegment declared, entries, entries,
      tree, add_assoc]
    exact (Risen.refl _).add (Segment.risen_onPath call done')

end Step

/-- A call that lists no new file, and may fail as a whole. -/
theorem Atomic.risen {d : Document} {answer : Except Error Unit × Document} (h : Atomic d answer)
    (ok : ∀ e, answer = (.ok (), e) → Risen d.entries e.entries) :
    Risen (d.entries + listedAt [] []) answer.2.entries := by
  rw [Segment.listedAt_nil, add_zero]
  exact h.elim (P := fun e => Risen d.entries e.entries) (.refl _) ok

/-- **One call.**  The entry of the image that a call binds is new, and all others stay or rise. -/
theorem risen_act (a : Action) (d : Document) :
    Risen (d.entries + listedAt a.place (a.newFiles (a.act d).1)) (a.act d).2.entries := by
  cases a with
  | onSegment name path call => exact risen_onSegment path call d
  | declareSegment name =>
    exact (d.atomic_declareSegment name).risen fun e h => by
      rw [entries_declareSegment h]
      exact .refl _
  | mergeSegment name => exact (d.atomic_mergeSegment name).risen fun e h => risen_mergeSegment h
  | _ => exact risen_of_not_onSegments id d

/-! ## The whole course -/

theorem risen_happen (e : Event) (d : Document) :
    Risen (d.entries + e.bound d) (e.happen d).entries := by
  cases e with
  | call a => exact risen_act a d
  | outside disk =>
    rw [Event.bound, add_zero]
    exact .refl _

theorem risen_course (events : List Event) (d : Document) :
    Risen (d.entries + bound events d) (course events d).entries := by
  induction events generalizing d with
  | nil =>
    rw [bound, add_zero]
    exact .refl _
  | cons e events ih =>
    rw [bound, course, ← add_assoc]
    exact Risen.trans ((risen_happen e d).add (Risen.refl _)) (ih (e.happen d))

/-- **Names of pictures are conserved.**  A document is opened and used in any way.  At any time, also
after a merge that failed half-way, its list and those of all nodes hold together exactly the files of
the images that were bound, each as often as one was bound, and each of them is in the list of the node
on which its image was bound, of one above, or of the document. -/
theorem picture_names_conserved {disk made : Disk} {template : Text} {config : Config} {d : Document}
    (opened : openAt disk template config = (.ok d, made)) (events : List Event) :
    ((course events d).allListed : Multiset Text) = (bound events d).map Entry.file ∧
      Multiset.Rel Entry.Rises (bound events d) (course events d).entries := by
  obtain ⟨values, segments⟩ := fresh_of_openAt opened
  have none : d.entries = 0 := by
    rw [entries, entries_root, values, segments]
    rfl
  have moved := risen_course events d
  rw [none, zero_add] at moved
  refine ⟨?_, moved⟩
  rw [← map_file_entries]
  exact moved.map_file.symm

/-- A disk with two images, and a template with two segments in one. -/
def pairDesk : Disk :=
  let content := "[!-- BEGIN s --][!-- BEGIN a --]\x7bp\x7d[!-- END a --]".toList
    ++ "[!-- BEGIN b --]\x7bp\x7d[!-- END b --][!-- END s --]".toList
  let texts := [(Part.content, content), (Part.styles, []), (Part.meta_, []),
    (Part.manifest, "<manifest:manifest></manifest:manifest>".toList)]
  { Disk.empty with nodes :=
    (Disk.empty.current ++ ["t".toList],
        .file (.package (texts.map fun (name, t) => Zip.Member.mk name .stored (Text.toBytes t)))) ::
      (Disk.empty.current ++ ["x".toList], .file (.bytes (square 1))) ::
      (Disk.empty.current ++ ["y".toList], .file (.bytes (square 2))) :: Disk.empty.nodes }

/-- Each inner segment gets an image, and the second image is removed.  The merge of the outer one
fails after the first image went up, and what it has is put into the content. -/
def halfWay : List Event :=
  [.call (.onSegment "s".toList ["a".toList] (.bindImage "p".toList "x".toList Placement.inText)),
    .call (.onSegment "s".toList ["b".toList] (.bindImage "p".toList "y".toList Placement.inText)),
    .outside { Disk.empty with nodes :=
      (Disk.empty.current ++ ["x".toList], .file (.bytes (square 1))) :: Disk.empty.nodes },
    .call (.onSegment "s".toList [] .merge),
    .call (.mergeSegment "s".toList)]

/-- In the end the first file is in the document's list, and the second one is still where its image
was bound. -/
theorem picture_names_conserved_half_way :
    ∃ d made, openAt pairDesk "t".toList Config.standard = (.ok d, made) ∧
      ((course halfWay d).allListed : Multiset Text) = {"x".toList, "y".toList} ∧
      bound halfWay d
        = {⟨["s".toList, "a".toList], "x".toList⟩, ⟨["s".toList, "b".toList], "y".toList⟩} ∧
      (course halfWay d).entries = {⟨[], "x".toList⟩, ⟨["s".toList, "b".toList], "y".toList⟩} ∧
      Multiset.Rel Entry.Rises (bound halfWay d) (course halfWay d).entries := by
  have opens : (openAt pairDesk "t".toList Config.standard).1.toOption.isSome = true := by
    decide +kernel
  have outcome : ∀ d ∈ (openAt pairDesk "t".toList Config.standard).1.toOption,
      bound halfWay d
        = {⟨["s".toList, "a".toList], "x".toList⟩, ⟨["s".toList, "b".toList], "y".toList⟩} ∧
      (course halfWay d).entries
        = {⟨[], "x".toList⟩, ⟨["s".toList, "b".toList], "y".toList⟩} := by
    decide +kernel
  rcases opened : openAt pairDesk "t".toList Config.standard with ⟨cause | d, made⟩
  · rw [opened] at opens
    cases opens
  · obtain ⟨files, left⟩ := outcome d (by rw [opened]; rfl)
    obtain ⟨listed, moved⟩ := picture_names_conserved opened halfWay
    refine ⟨d, made, rfl, ?_, files, left, moved⟩
    rw [listed, files]
    rfl

end DocumentMerge.Document
