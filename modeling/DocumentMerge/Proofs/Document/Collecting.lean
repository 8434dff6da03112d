import DocumentMerge.Proofs.Document.Retaining
import DocumentMerge.Proofs.Segment.Listing

/-!
# Files that a document collects

The file of an image that is bound is listed at once, at the document or at the node of a segment.
Merges move it up to the top of its tree, and when the segment is put into the content the document
takes it.

* `Document.allListed` are the files that are listed anywhere.  `tracks_act`: a call keeps them all,
  each as often as it is listed, and adds the file of the image that it binds.
* `Accounted`: the file of every picture is listed somewhere, also if it was copied long ago.  This
  holds all along the use of a document (`Accounted.run`).
* `taken` are the files that the document takes from its segments in the course of a run.
  `Lists.run`: these, and the files of its own pictures, are what its list holds.
-/

namespace DocumentMerge.Document

/-- The files that are listed at the document or at a node of a segment. -/
def allListed (d : Document) : List Text :=
  d.values.listed ++ d.root.allListed

/-- The file of the image that a call bound, if it succeeded. -/
def Action.newFiles : Action → Except Error Unit → List Text
  | .bindImage _ path _, .ok () => (Path.fileName? path).toList
  | .onSegment _ _ call, r => call.newFiles r
  | _, _ => []

/-- The given files are listed besides those that were listed, and every picture that is new has one
of these files. -/
structure Tracks (new : List Text) (d e : Document) : Prop where
  listed : e.allListed.Perm (d.allListed ++ new)
  pictures : ∀ p ∈ e.allPictures, p ∈ d.allPictures ∨ p.file ∈ new

namespace Tracks

variable {new : List Text} {d e f : Document}

theorem refl (d : Document) : Tracks [] d d where
  listed := by rw [List.append_nil]
  pictures _ mem := .inl mem

/-- Only the document's own values matter if the segments stay. -/
theorem of_values (same : e.segments = d.segments) (listed : e.values.listed = d.values.listed ++ new)
    (pictures : ∀ p ∈ e.values.pictures, p ∈ d.values.pictures ∨ p.file ∈ new) :
    Tracks new d e := by
  have roots : e.root = d.root := by rw [root, root, same]
  constructor
  · rw [allListed, allListed, roots, listed, List.append_assoc, List.append_assoc]
    exact List.perm_append_comm.append_left _
  · intro p mem
    rw [allPictures, roots] at mem
    rcases List.mem_append.1 mem with own | below
    · exact (pictures p own).imp_left (List.mem_append_left _)
    · exact .inl (List.mem_append_right _ below)

/-- Only the segments matter if the document's own values stay. -/
theorem of_root (same : e.values = d.values) (tracks : Segment.Tracks new d.root e.root) :
    Tracks new d e := by
  constructor
  · rw [allListed, allListed, same, List.append_assoc]
    exact tracks.listed.append_left _
  · intro p mem
    rw [allPictures, same] at mem
    rcases List.mem_append.1 mem with own | below
    · exact .inl (List.mem_append_left _ own)
    · exact (tracks.pictures p below).imp_left (List.mem_append_right _)

/-- A first step that adds nothing does not matter. -/
theorem after (h : Tracks new e f) (first : Tracks [] d e) : Tracks new d f where
  listed := by
    have same := first.listed
    rw [List.append_nil] at same
    exact h.listed.trans (same.append_right _)
  pictures p mem := by
    rcases h.pictures p mem with old | new
    · exact (first.pictures p old).imp_right fun none => absurd none List.not_mem_nil
    · exact .inr new

end Tracks

/-! ## Calls on segments -/

/-- A segment that was just built lists no file. -/
theorem allListed_of_ofRegion {name source : Text} {s : Segment}
    (h : Segment.ofRegion name source = .ok s) : s.allListed = [] := by
  refine Segment.parse_induct (P := fun s => s.allListed = [])
    (fun name source cs _ below => ?_) h
  rw [Segment.allListed_node, List.append_eq_nil_iff, List.flatMap_eq_nil_iff]
  exact ⟨rfl, below⟩

theorem tracks_declareSegment {d e : Document} {name : Text}
    (h : d.declareSegment name = (.ok (), e)) : Tracks [] d e := by
  have grown := (grows_declareSegment h).1.fresh
  rw [List.append_nil] at grown
  refine ⟨?_, fun p mem => .inl (grown mem)⟩
  rcases declareSegment_eq_ok h with rfl | ⟨-, m, s, -, built, rfl⟩
  · rw [List.append_nil]
  · rw [allListed, allListed, root, root, Segment.allListed_node, Segment.allListed_node,
      List.flatMap_append, List.flatMap_singleton, allListed_of_ofRegion built]
    simp

/-- The answer of a call on a segment is the one that its tree gave, as to the files of images. -/
theorem newFiles_onSegment {d e : Document} {name : Text} {path : List Text} {call : Segment.Action}
    {r : Except Error Unit} {t : Segment} {τ : Session}
    (declared : d.declareSegment name = (.ok (), e))
    (done : Segment.onChild name (Segment.onPath call.call path) e.root e.session = (r, t, τ)) :
    call.newFiles (d.onSegment name (Segment.onPath call.call path)).1 = call.newFiles r := by
  rcases d.onSegment_cases name (Segment.onPath call.call path) with
    ⟨cause, failed, -⟩ | ⟨e', declared', cases⟩
  · rw [declared] at failed
    cases failed
  · rw [declared] at declared'
    cases declared'
    obtain ⟨-, -, answer⟩ := cases r t τ done
    cases answered : (d.onSegment name (Segment.onPath call.call path)).1 with
    | ok u => rw [(answer u).1 answered]
    | error cause =>
      cases r with
      | error cause' => rw [Segment.Action.newFiles_error, Segment.Action.newFiles_error]
      | ok u =>
        rw [(answer u).2 rfl] at answered
        cases answered

theorem tracks_onSegment (name : Text) (path : List Text) (call : Segment.Action) (d : Document) :
    Tracks (call.newFiles (d.onSegment name (Segment.onPath call.call path)).1) d
      (d.onSegment name (Segment.onPath call.call path)).2 := by
  rcases d.onSegment_cases name (Segment.onPath call.call path) with
    ⟨cause, -, failed⟩ | ⟨e, declared, cases⟩
  · rw [failed, Segment.Action.newFiles_error]
    exact .refl d
  · rcases done : Segment.onChild name (Segment.onPath call.call path) e.root e.session
      with ⟨r, t, τ⟩
    obtain ⟨left, tree, -⟩ := cases r t τ done
    rw [left, newFiles_onSegment declared done]
    refine Tracks.after (e := e) (.of_root rfl ?_) (tracks_declareSegment declared)
    rw [tree]
    have done : Segment.onPath call.call (name :: path) e.root e.session = (r, t, τ) := done
    exact Segment.tracks_onPath call done

/-! ## Putting a segment into the content -/

/-- The files of the first segment of a name are taken from its list, and all others stay. -/
theorem perm_allListed_release {name : Text} {segments : List Segment} {s : Segment}
    (h : (segments.find? fun s => s.name == name) = some s) :
    (segments.flatMap Segment.allListed).Perm
      (s.own.values.listed ++ (release name segments).flatMap Segment.allListed) := by
  induction segments with
  | nil => cases h
  | cons c rest ih =>
    obtain ⟨own, children⟩ := c
    by_cases named : own.name = name
    · rw [List.find?_cons_of_pos (by simpa [Segment.name] using named)] at h
      cases h
      rw [release, if_pos named, List.flatMap_cons, List.flatMap_cons, Segment.allListed_node,
        Segment.allListed_node]
      simp
    · rw [List.find?_cons_of_neg (by simpa [Segment.name] using named)] at h
      rw [release, if_neg named, List.flatMap_cons, List.flatMap_cons]
      have below := ih h
      rw [List.perm_iff_count] at below ⊢
      intro file
      have count := below file
      simp only [List.count_append] at count ⊢
      omega

theorem tracks_mergeSegment {d e : Document} {name : Text}
    (h : d.mergeSegment name = (.ok (), e)) : Tracks [] d e := by
  obtain ⟨-, same, idled⟩ := mergeSegment_eq_ok h
  obtain ⟨s, m, found, -, rfl⟩ := exists_of_mergeSegment h
  constructor
  · have moved := perm_allListed_release found
    rw [allListed, allListed, root, root, Segment.allListed_node, Segment.allListed_node,
      List.append_nil]
    rw [List.perm_iff_count] at moved ⊢
    intro file
    have count := moved file
    simp only [List.count_append] at count ⊢
    omega
  · intro p mem
    refine .inl ?_
    rw [allPictures, ← Segment.allPictures_idled, root, Segment.idled_node] at mem ⊢
    rwa [idled] at mem

/-! ## Every call -/

/-- **One call.**  No file is lost and none is listed once more, except for the file of the image
that the call binds. -/
theorem tracks_act (a : Action) (d : Document) : Tracks (a.newFiles (a.act d).1) d (a.act d).2 := by
  cases a with
  | bind key value encode =>
    refine (d.atomic_bind key value encode).elim (P := Tracks [] d) (.refl d) fun e h => ?_
    obtain ⟨values, same, listed, rfl⟩ := bind_eq_ok h
    refine .of_values rfl (by rw [listed, List.append_nil]) fun p mem => .inl ?_
    rwa [same] at mem
  | bindBytes key value encode charset =>
    refine (d.atomic_bindBytes key value encode charset).elim (P := Tracks [] d) (.refl d)
      fun e h => ?_
    obtain ⟨values, same, listed, rfl⟩ := bindBytes_eq_ok h
    refine .of_values rfl (by rw [listed, List.append_nil]) fun p mem => .inl ?_
    rwa [same] at mem
  | bindImage key path placement =>
    rcases (d.atomic_bindImage key path placement).cases with ⟨cause, failed⟩ | ⟨e, done⟩
    · rw [Action.act, failed]
      exact .refl d
    · obtain ⟨tag, frame, values, -, built, -, added, listed, rfl⟩ := bindImage_eq_ok done
      obtain ⟨file, content, named, -, picture, -⟩ := Frame.exists_of_build built
      have new : (Action.bindImage key path placement).newFiles (.ok ()) = [file] := by
        rw [Action.newFiles, named]
        rfl
      rw [Action.act, done]
      show Tracks ((Action.bindImage key path placement).newFiles (.ok ())) d { d with values }
      rw [picture] at added listed
      rw [new]
      refine .of_values rfl listed fun p mem => ?_
      rw [added] at mem
      refine (List.mem_append.1 (Values.addPicture_subset _ _ mem)).imp_right fun fresh => ?_
      rw [List.mem_singleton.1 fresh]
      exact List.mem_singleton_self file
  | declareSegment name =>
    exact (d.atomic_declareSegment name).elim (.refl d) fun e h => tracks_declareSegment h
  | onSegment name path call => exact tracks_onSegment name path call d
  | mergeSegment name =>
    exact (d.atomic_mergeSegment name).elim (.refl d) fun e h => tracks_mergeSegment h
  | setProperty key value encode =>
    have none : (Action.setProperty key value encode).newFiles
        ((Action.setProperty key value encode).act d).1 = [] := rfl
    obtain ⟨meta_, session, done⟩ := d.exists_of_setProperty key value encode
    rw [none, Action.act, done]
    exact .of_values rfl (List.append_nil _).symm fun _ mem => .inl mem
  | save call =>
    obtain ⟨-, -, values⟩ := call.texts_after_call d
    have none : (Action.save call).newFiles ((Action.save call).act d).1 = [] := rfl
    rw [none]
    refine .of_values (call.segments_after_call d) ?_ fun _ mem => .inl ?_
    · rw [Action.act, values, List.append_nil]
    · rwa [Action.act, values] at mem

/-! ## Files of pictures -/

/-- The file of every picture that the document or a segment has, or that was copied before, is
listed somewhere. -/
def Accounted (log : List Picture) (d : Document) : Prop :=
  ∀ p ∈ d.allPictures ++ log, p.file ∈ d.allListed

theorem Accounted.act {log : List Picture} {d : Document} (h : Accounted log d) (a : Action) :
    Accounted (log ++ a.copies d) (a.act d).2 := by
  have step := tracks_act a d
  have old : ∀ p ∈ d.allPictures ++ log, p.file ∈ (a.act d).2.allListed := by
    intro p mem
    rw [step.listed.mem_iff]
    exact List.mem_append_left _ (h p mem)
  intro p mem
  rcases List.mem_append.1 mem with here | logged
  · rcases step.pictures p here with kept | new
    · exact old p (List.mem_append_left _ kept)
    · rw [step.listed.mem_iff]
      exact List.mem_append_right _ new
  · rcases List.mem_append.1 logged with before | copied
    · exact old p (List.mem_append_right _ before)
    · exact old p (List.mem_append_left _ (copies_subset a d copied))

/-- No file of a picture gets lost: it waits in a segment until the document takes it. -/
theorem Accounted.run {log : List Picture} {d : Document} (h : Accounted log d)
    (steps : List Action) : Accounted (log ++ copied steps d) (run steps d) := by
  induction steps generalizing log d with
  | nil =>
    rw [copied, List.append_nil]
    exact h
  | cons a steps ih =>
    rw [copied, ← List.append_assoc]
    exact ih (h.act a)

/-- Adding a picture adds its file, also when there is one of the same source. -/
theorem mem_files_addPicture {p : Picture} {pictures : List Picture}
    (named : ∀ q ∈ p :: pictures, Path.fileName? q.source = some q.file) {file : Text} :
    file ∈ (Values.addPicture p pictures).map Picture.file ↔
      file ∈ pictures.map Picture.file ∨ file = p.file := by
  obtain ⟨q, mem, same⟩ := Values.exists_same_addPicture p pictures
  have known : ∀ q ∈ Values.addPicture p pictures, q ∈ p :: pictures := by
    intro q mem
    rcases List.mem_append.1 (Values.addPicture_subset p pictures mem) with old | new
    · exact List.mem_cons_of_mem _ old
    · rw [List.mem_singleton.1 new]
      exact List.mem_cons_self
  have files : q.file = p.file := by
    have names := Path.fileName?_eq_of_same same
    rw [named q (known q mem), named p List.mem_cons_self] at names
    exact Option.some.inj names
  constructor
  · intro here
    obtain ⟨r, mem, rfl⟩ := List.mem_map.1 here
    rcases List.mem_cons.1 (known r mem) with rfl | old
    · exact .inr rfl
    · exact .inl (List.mem_map_of_mem old)
  · rintro (old | rfl)
    · exact List.map_subset _ (Values.subset_addPicture p pictures) old
    · exact List.mem_map.2 ⟨q, mem, files⟩

/-! ## The document's list -/

/-- The files that a call takes from the list of a segment. -/
def Action.takes : Action → Document → List Text
  | .mergeSegment name, d =>
    match d.mergeSegment name, d.segment? name with
    | (.ok (), _), some s => s.own.values.listed
    | _, _ => []
  | _, _ => []

/-- The files that the document takes from its segments in the course of a run. -/
def taken : List Action → Document → List Text
  | [], _ => []
  | a :: steps, d => a.takes d ++ taken steps (a.act d).2

/-- A call on a segment keeps the document's own values. -/
theorem values_onSegment {α : Type} (name : Text) (call : Segment.Call α) (d : Document) :
    (d.onSegment name call).2.values = d.values := by
  rcases d.onSegment_cases name call with ⟨cause, -, failed⟩ | ⟨e, declared, cases⟩
  · rw [failed]
  · rw [(cases _ _ _ rfl).1]
    obtain ⟨segments, rfl⟩ := exists_of_declareSegment declared
    rfl

/-- All that a call does to the pictures and to the list of the document itself: a segment's list is
taken, or a picture is added and its file is listed. -/
theorem values_act_cases (a : Action) (d : Document) :
    ((a.act d).2.values.pictures = d.values.pictures ∧
      (a.act d).2.values.listed = d.values.listed ++ a.takes d) ∨
    ∃ p : Picture, Path.fileName? p.source = some p.file ∧
      (a.act d).2.values.pictures = Values.addPicture p d.values.pictures ∧
      (a.act d).2.values.listed = d.values.listed ++ [p.file] ∧ a.takes d = [] := by
  have quiet {answer : Except Error Unit × Document} (atomic : Atomic d answer)
      (kept : ∀ e, answer = (.ok (), e) →
        e.values.pictures = d.values.pictures ∧ e.values.listed = d.values.listed) :
      answer.2.values.pictures = d.values.pictures ∧
        answer.2.values.listed = d.values.listed ++ [] := by
    rw [List.append_nil]
    exact atomic.elim (P := fun e => e.values.pictures = d.values.pictures ∧
      e.values.listed = d.values.listed) ⟨rfl, rfl⟩ kept
  cases a with
  | bind key value encode =>
    refine .inl (quiet (d.atomic_bind key value encode) fun e h => ?_)
    obtain ⟨values, pictures, listed, rfl⟩ := bind_eq_ok h
    exact ⟨pictures, listed⟩
  | bindBytes key value encode charset =>
    refine .inl (quiet (d.atomic_bindBytes key value encode charset) fun e h => ?_)
    obtain ⟨values, pictures, listed, rfl⟩ := bindBytes_eq_ok h
    exact ⟨pictures, listed⟩
  | bindImage key path placement =>
    rw [Action.act]
    rcases (d.atomic_bindImage key path placement).cases with ⟨cause, failed⟩ | ⟨e, done⟩
    · rw [failed]
      exact .inl ⟨rfl, (List.append_nil _).symm⟩
    · obtain ⟨tag, frame, values, -, built, -, added, listed, rfl⟩ := bindImage_eq_ok done
      obtain ⟨file, content, named, -, picture, -⟩ := Frame.exists_of_build built
      rw [done]
      refine .inr ⟨frame.picture, ?_, added, listed, rfl⟩
      rw [picture]
      exact named
  | declareSegment name =>
    refine .inl (quiet (d.atomic_declareSegment name) fun e h => ?_)
    obtain ⟨segments, rfl⟩ := exists_of_declareSegment h
    exact ⟨rfl, rfl⟩
  | onSegment name path call =>
    have none : (Action.onSegment name path call).takes d = [] := rfl
    rw [none, List.append_nil, Action.act, values_onSegment]
    exact .inl ⟨rfl, rfl⟩
  | mergeSegment name =>
    rw [Action.act, Action.takes]
    rcases (d.atomic_mergeSegment name).cases with ⟨cause, failed⟩ | ⟨e, done⟩
    · rw [failed]
      exact .inl ⟨rfl, (List.append_nil _).symm⟩
    · obtain ⟨s, m, found, -, rfl⟩ := exists_of_mergeSegment done
      rw [done, found]
      exact .inl ⟨rfl, rfl⟩
  | setProperty key value encode =>
    have none : (Action.setProperty key value encode).takes d = [] := rfl
    obtain ⟨meta_, session, done⟩ := d.exists_of_setProperty key value encode
    rw [none, List.append_nil, Action.act, done]
    exact .inl ⟨rfl, rfl⟩
  | save call =>
    obtain ⟨-, -, values⟩ := call.texts_after_call d
    have none : (Action.save call).takes d = [] := rfl
    rw [none, List.append_nil, Action.act, values]
    exact .inl ⟨rfl, rfl⟩

/-- The list of the document holds the files of its own pictures and the given ones. -/
def Lists (log : List Text) (d : Document) : Prop :=
  ∀ file, file ∈ d.values.listed ↔ file ∈ d.values.pictures.map Picture.file ∨ file ∈ log

theorem Lists.act {log : List Text} {d : Document} (h : Lists log d) (named : d.Named) (a : Action) :
    Lists (log ++ a.takes d) (a.act d).2 := by
  intro file
  rcases values_act_cases a d with ⟨pictures, listed⟩ | ⟨p, name, pictures, listed, none⟩
  · rw [pictures, listed, List.mem_append, List.mem_append, h file, or_assoc]
  · have named' : ∀ q ∈ p :: d.values.pictures, Path.fileName? q.source = some q.file :=
      List.forall_mem_cons.2 ⟨name, fun q mem => named q (List.mem_append_left _ mem)⟩
    rw [pictures, listed, none, List.append_nil, List.mem_append, List.mem_singleton, h file,
      mem_files_addPicture named']
    tauto

/-- **The document's list.**  It holds the files of the document's own pictures and those that it
took from its segments. -/
theorem Lists.run {log : List Text} {d : Document} (h : Lists log d) (named : d.Named)
    (steps : List Action) : Lists (log ++ taken steps d) (run steps d) := by
  induction steps generalizing log d with
  | nil =>
    rw [taken, List.append_nil]
    exact h
  | cons a steps ih =>
    rw [taken, ← List.append_assoc]
    exact ih (h.act named a) (named.event (.call a))

end DocumentMerge.Document
