import DocumentMerge.MergeData.Applying
import DocumentMerge.Proofs.Document.Saving
import DocumentMerge.Proofs.Image.Frame
import DocumentMerge.Proofs.Segment.Pictures

/-!
# Documents in use

A document is used by calls on itself and on its segments, in any order; a call that fails does not
keep the next one from being made.  This file says what any such call does to pictures: to those
that the document and its segments have, and to those in the package.

* `Action` are the calls, and `run` makes one after the other.
* `grows_act`: no call takes a picture from the document or from a node of a segment, and only the
  binding of an image adds one.
* `copied` are the pictures that are copied by the merges of a run, in order.
* `Traced` is the invariant.  The package has, under the name of a picture that is not the
  document's own, what the template had, and else the first of the pictures that were copied.
  `Traced.act` is the step and `Traced.run` the run.
* `fill_induct`: filling keeps what each of the calls keeps that it is made of.
* `exists_holds_of_openAt`: a document that was opened has the package of its template.
-/

namespace DocumentMerge

open Zip (Held)
open Archive (contentOf Ordinary Keeps Edits)

namespace Document

/-- A call on a document, or on a node of one of its segments. -/
inductive Action where
  | bind (key value : Text) (encode : Bool)
  | bindBytes (key : Text) (value : List UInt8) (encode : Bool) (charset : Text)
  | bindImage (key path : Text) (placement : Placement)
  | declareSegment (name : Text)
  | onSegment (name : Text) (path : List Text) (call : Segment.Action)
  | mergeSegment (name : Text)
  | setProperty (key value : Text) (encode : Bool)
  | save (call : SaveCall)

namespace Action

/-- Makes the call. -/
def act : Action → Document → Except Error Unit × Document
  | .bind key value encode, d => d.bind key value encode
  | .bindBytes key value encode charset, d => d.bindBytes key value encode charset
  | .bindImage key path placement, d => d.bindImage key path placement
  | .declareSegment name, d => d.declareSegment name
  | .onSegment name path call, d => d.onSegment name (Segment.onPath call.call path)
  | .mergeSegment name, d => d.mergeSegment name
  | .setProperty key value encode, d => d.setProperty key value encode
  | .save call, d => ((call.call d).1.map fun _ => (), (call.call d).2)

/-- The path of the image that a call binds. -/
def image? : Action → Option Text
  | .bindImage _ path _ => some path
  | .onSegment _ _ (.bindImage _ path _) => some path
  | _ => none

/-- The picture of the image that a call binds, if it can be read. -/
def newPictures (disk : Disk) : Action → List Picture
  | .bindImage key path placement =>
    (Segment.Action.bindImage key path placement).newPictures disk
  | .onSegment _ _ call => call.newPictures disk
  | _ => []

end Action

/-- Makes one call after another, whatever they answer. -/
def run : List Action → Document → Document
  | [], d => d
  | a :: steps, d => run steps (a.act d).2

theorem run_append (steps more : List Action) (d : Document) :
    run (steps ++ more) d = run more (run steps d) := by
  induction steps generalizing d with
  | nil => rfl
  | cons a steps ih => exact ih _

/-! ## The pictures of a document -/

/-- The segments of a document as the children of one node. -/
def root (d : Document) : Segment :=
  .node (Fragment.ofRegion [] []) d.segments

/-- The pictures of the document itself and of all its segments. -/
def allPictures (d : Document) : List Picture :=
  d.values.pictures ++ d.root.allPictures

/-- Neither the document nor a node of a segment loses a picture, and all pictures that are new are
among the given ones. -/
structure Grows (new : List Picture) (d e : Document) : Prop where
  own : d.values.pictures ⊆ e.values.pictures
  nodes : ∀ path, Segment.picturesAt path d.root ⊆ Segment.picturesAt path e.root
  old : d.allPictures ⊆ e.allPictures
  fresh : e.allPictures ⊆ d.allPictures ++ new

namespace Grows

variable {new : List Picture} {d e f : Document}

theorem refl (d : Document) : Grows new d d where
  own := List.Subset.refl _
  nodes _ := List.Subset.refl _
  old := List.Subset.refl _
  fresh := List.subset_append_left _ _

/-- Only the document's own pictures matter if the segments stay. -/
theorem of_values (same : e.segments = d.segments) (own : d.values.pictures ⊆ e.values.pictures)
    (fresh : e.values.pictures ⊆ d.values.pictures ++ new) : Grows new d e := by
  have roots : e.root = d.root := by rw [root, root, same]
  refine ⟨own, fun path => by rw [roots]; exact List.Subset.refl _, ?_, ?_⟩
  · rw [allPictures, allPictures, roots]
    exact append_subset_append own (List.Subset.refl _)
  · rw [allPictures, allPictures, roots]
    exact append_subset_of_left fresh

/-- Only the segments matter if the document's own pictures stay. -/
theorem of_root (same : e.values.pictures = d.values.pictures)
    (grows : Segment.Grows new d.root e.root) : Grows new d e where
  own := by rw [same]; exact List.Subset.refl _
  nodes := grows.kept
  old := by
    rw [allPictures, allPictures, same]
    exact append_subset_append (List.Subset.refl _) grows.old
  fresh := by
    rw [allPictures, allPictures, same]
    exact append_subset_of_right grows.fresh

/-- A first step that adds nothing does not matter. -/
theorem after (h : Grows new e f) (first : Grows [] d e) : Grows new d f where
  own := List.Subset.trans first.own h.own
  nodes path := List.Subset.trans (first.nodes path) (h.nodes path)
  old := List.Subset.trans first.old h.old
  fresh := by
    intro p mem
    rcases List.mem_append.1 (h.fresh mem) with old | new
    · have := first.fresh old
      rw [List.append_nil] at this
      exact List.mem_append_left _ this
    · exact List.mem_append_right _ new

end Grows

/-! ### Calls that fail -/

/-- A call on a document leaves it as it was if it fails. -/
def Atomic (d : Document) (answer : Except Error Unit × Document) : Prop :=
  ∀ cause, answer.1 = .error cause → answer.2 = d

theorem Atomic.cases {d : Document} {answer : Except Error Unit × Document} (h : Atomic d answer) :
    (∃ cause, answer = (.error cause, d)) ∨ ∃ e, answer = (.ok (), e) := by
  obtain ⟨cause | ⟨⟩, e⟩ := answer
  · obtain rfl : e = d := h cause rfl
    exact .inl ⟨cause, rfl⟩
  · exact .inr ⟨e, rfl⟩

/-- What is so of the document, and of all that the call makes of it when it succeeds, is so of what
the call leaves behind. -/
theorem Atomic.elim {d : Document} {answer : Except Error Unit × Document} {P : Document → Prop}
    (h : Atomic d answer) (same : P d) (ok : ∀ e, answer = (.ok (), e) → P e) : P answer.2 := by
  rcases h.cases with ⟨cause, rfl⟩ | ⟨e, rfl⟩
  · exact same
  · exact ok e rfl

theorem Atomic.session {d : Document} {answer : Except Error Unit × Document} (h : Atomic d answer)
    (ok : ∀ e, answer = (.ok (), e) → e.session = d.session) : answer.2.session = d.session :=
  h.elim (P := fun e => e.session = d.session) rfl ok

section Atomic

variable (d : Document)

theorem atomic_bind (key value : Text) (encode : Bool) : Atomic d (d.bind key value encode) := by
  intro cause failed
  rw [Document.bind] at failed ⊢
  split
  · rfl
  · next declared =>
    rw [declared] at failed
    cases failed

theorem atomic_bindBytes (key : Text) (value : List UInt8) (encode : Bool) (charset : Text) :
    Atomic d (d.bindBytes key value encode charset) := by
  intro cause failed
  rw [Document.bindBytes] at failed ⊢
  split
  · rfl
  · next tag declared =>
    split
    · rfl
    · next values stored =>
      simp only [declared, stored] at failed
      cases failed

theorem atomic_bindImage (key path : Text) (placement : Placement) :
    Atomic d (d.bindImage key path placement) := by
  intro cause failed
  rw [Document.bindImage] at failed ⊢
  split
  · rfl
  · next tag declared =>
    split
    · rfl
    · next values stored =>
      simp only [declared, stored] at failed
      cases failed

theorem atomic_declareSegment (name : Text) : Atomic d (d.declareSegment name) := by
  intro cause failed
  rw [declareSegment] at failed ⊢
  split
  · rfl
  · next undeclared =>
    split
    · rfl
    · next m found =>
      split
      · rfl
      · next s built =>
        simp only [undeclared, found, built] at failed
        cases failed

theorem atomic_mergeSegment (name : Text) : Atomic d (d.mergeSegment name) := by
  intro cause failed
  rw [Document.mergeSegment] at failed ⊢
  split
  · rfl
  · next s declared =>
    split
    · rfl
    · next m found =>
      simp only [declared, found] at failed
      cases failed

end Atomic

/-! ### Declaring a segment -/

/-- A segment that was just built has no pictures. -/
theorem allPictures_of_ofRegion {name source : Text} {s : Segment}
    (h : Segment.ofRegion name source = .ok s) : s.allPictures = [] := by
  refine Segment.parse_induct (P := fun s => s.allPictures = [])
    (fun name source cs _ below => ?_) h
  rw [Segment.allPictures_node, List.append_eq_nil_iff, List.flatMap_eq_nil_iff]
  exact ⟨rfl, below⟩

/-- All that declaring a segment can do. -/
theorem declareSegment_eq_ok {d e : Document} {name : Text} (h : d.declareSegment name = (.ok (), e)) :
    e = d ∨ d.segment? name = none ∧ ∃ m s, Region.find? name d.content = some m ∧
      Segment.ofRegion name m.value.outer = .ok s ∧
      e = { d with segments := d.segments ++ [s] } := by
  rw [declareSegment] at h
  split at h
  · cases h
    exact .inl rfl
  · next none =>
    split at h
    · cases h
    · next m found =>
      split at h
      · cases h
      · next s built =>
        cases h
        exact .inr ⟨none, m, s, found, built, rfl⟩

/-- Declaring a segment changes nothing but the segments. -/
theorem exists_of_declareSegment {d e : Document} {name : Text}
    (h : d.declareSegment name = (.ok (), e)) : ∃ segments, e = { d with segments } := by
  rcases declareSegment_eq_ok h with rfl | ⟨-, m, s, -, -, rfl⟩
  · exact ⟨e.segments, rfl⟩
  · exact ⟨_, rfl⟩

/-- A segment in which there is a node is declared. -/
theorem declareSegment_of_at? {d : Document} {name : Text} {path : List Text} {n : Segment}
    (h : Segment.at? (name :: path) d.root = some n) : d.declareSegment name = (.ok (), d) := by
  obtain ⟨c, found, -⟩ := Option.bind_eq_some_iff.1 h
  have present : d.segment? name = some c := found
  rw [declareSegment, present]

/-- Declaring a segment adds no picture. -/
theorem grows_declareSegment {d e : Document} {name : Text} (h : d.declareSegment name = (.ok (), e)) :
    Grows [] d e ∧ e.session = d.session := by
  rcases declareSegment_eq_ok h with rfl | ⟨-, m, s, -, built, rfl⟩
  · exact ⟨.refl _, rfl⟩
  · have all : (root { d with segments := d.segments ++ [s] }).allPictures
        = d.root.allPictures := by
      rw [root, root, Segment.allPictures_node, Segment.allPictures_node, List.flatMap_append,
        List.flatMap_singleton, allPictures_of_ofRegion built, List.append_nil]
    refine ⟨.of_root rfl ⟨fun path => ?_, ?_, ?_⟩, rfl⟩
    · cases path with
      | nil => exact List.Subset.refl _
      | cons name names =>
        rw [Segment.picturesAt_cons, Segment.picturesAt_cons, root, root, Segment.child?,
          Segment.child?, Segment.children_node, Segment.children_node, List.find?_append]
        cases d.segments.find? fun c => c.name == name with
        | none => exact List.nil_subset _
        | some c => exact List.Subset.refl _
    · rw [all]
      exact List.Subset.refl _
    · rw [all, List.append_nil]
      exact List.Subset.refl _

/-! ### Calls on segments -/

theorem own_onChild {α : Type} (name : Text) (call : Segment.Call α) (own : Fragment)
    (children : List Segment) (σ : Session) :
    (Segment.onChild name call (.node own children) σ).2.1
      = .node own (Segment.onChild name call (.node own children) σ).2.1.children := by
  rcases done : Segment.onChild name call (.node own children) σ with ⟨r, t, τ⟩
  rcases Segment.onChild_cases done with ⟨_, _, _, _, -, -, -, -, rfl⟩ | ⟨-, -, rfl, -⟩
  · rfl
  · rfl

/-- A call on a segment is a call on a child of the root, once the segment is declared. -/
theorem onSegment_cases {α : Type} (d : Document) (name : Text) (call : Segment.Call α) :
    (∃ cause, d.declareSegment name = (.error cause, d) ∧
      d.onSegment name call = (.error cause, d)) ∨
    ∃ e, d.declareSegment name = (.ok (), e) ∧ ∀ r t τ,
      Segment.onChild name call e.root e.session = (r, t, τ) →
      (d.onSegment name call).2 = { e with segments := t.children, session := τ } ∧
        ({ e with segments := t.children, session := τ } : Document).root = t ∧
        ∀ x, (d.onSegment name call).1 = .ok x ↔ r = .ok x := by
  rw [onSegment]
  rcases (d.atomic_declareSegment name).cases with ⟨cause, failed⟩ | ⟨e, declared⟩
  · rw [failed]
    exact .inl ⟨cause, rfl, rfl⟩
  · rw [declared]
    refine .inr ⟨e, rfl, fun r t τ done => ?_⟩
    have same := own_onChild name call (Fragment.ofRegion [] []) e.segments e.session
    rw [root] at done
    rw [done] at same
    rw [Segment.onChild] at done
    simp only
    cases named : Segment.callNamed name call e.segments e.session with
    | none =>
      rw [named] at done
      cases done
      exact ⟨rfl, same.symm, fun x => ⟨fun ok => (by cases ok), fun ok => (by cases ok)⟩⟩
    | some answer =>
      obtain ⟨r', cs, τ'⟩ := answer
      rw [named] at done
      cases done
      exact ⟨rfl, same.symm, fun x => Iff.rfl⟩

/-- Taking the files that a segment lists takes no picture. -/
theorem idled_release (name : Text) (segments : List Segment) :
    (release name segments).map Segment.idled = segments.map Segment.idled := by
  induction segments with
  | nil => rfl
  | cons s rest ih =>
    obtain ⟨own, children⟩ := s
    rw [release]
    split
    · rw [List.map_cons, List.map_cons, Segment.idled_node, Segment.idled_node]
      rfl
    · rw [List.map_cons, List.map_cons, ih]

/-- All that putting a segment into the content does. -/
theorem exists_of_mergeSegment {d e : Document} {name : Text} (h : d.mergeSegment name = (.ok (), e)) :
    ∃ s m, d.segment? name = some s ∧ Region.find? name d.content = some m ∧ e = { d with
      content := m.before ++ s.own.output ++ m.after
      values := { d.values with listed := d.values.listed ++ s.own.values.listed }
      segments := release name d.segments } := by
  rw [Document.mergeSegment] at h
  split at h
  · cases h
  · next s found =>
    split at h
    · cases h
    · next m region =>
      cases h
      exact ⟨s, m, found, region, rfl⟩

/-- Putting the output of a segment into the content takes no picture. -/
theorem mergeSegment_eq_ok {d e : Document} {name : Text} (h : d.mergeSegment name = (.ok (), e)) :
    e.session = d.session ∧ e.values.pictures = d.values.pictures ∧
      e.segments.map Segment.idled = d.segments.map Segment.idled := by
  obtain ⟨s, m, -, -, rfl⟩ := exists_of_mergeSegment h
  exact ⟨rfl, rfl, idled_release name d.segments⟩

/-- A call on a node of a segment adds the picture of the image that it binds, if it binds one. -/
theorem grows_onSegment (name : Text) (path : List Text) (call : Segment.Action) (d : Document) :
    Grows (call.newPictures d.session.disk) d
      (d.onSegment name (Segment.onPath call.call path)).2 := by
  rcases d.onSegment_cases name (Segment.onPath call.call path) with
    ⟨cause, -, failed⟩ | ⟨e, declared, cases⟩
  · rw [failed]
    exact .refl d
  · obtain ⟨first, session⟩ := grows_declareSegment declared
    have grown := Segment.grows_onPath call (name :: path) e.root e.session
    rcases done : Segment.onChild name (Segment.onPath call.call path) e.root e.session
      with ⟨r, t, τ⟩
    obtain ⟨left, tree, -⟩ := cases r t τ done
    rw [left, ← session]
    refine Grows.after (e := e) (.of_root rfl ?_) first
    rw [tree]
    rw [Segment.onPath, done] at grown
    exact grown

/-! ### Binding -/

/-- Binding a value at the document changes its values only, and neither its pictures nor its list. -/
theorem bind_eq_ok {d e : Document} {key value : Text} {encode : Bool}
    (h : d.bind key value encode = (.ok (), e)) :
    ∃ values : Values, values.pictures = d.values.pictures ∧ values.listed = d.values.listed ∧
      e = { d with values } := by
  rw [Document.bind] at h
  cases declared : d.declaredTag key with
  | error cause => rw [declared] at h; cases h
  | ok tag =>
    rw [declared] at h
    cases h
    exact ⟨d.values.bind tag value encode, rfl, rfl, rfl⟩

theorem bindBytes_eq_ok {d e : Document} {key : Text} {value : List UInt8} {encode : Bool}
    {charset : Text} (h : d.bindBytes key value encode charset = (.ok (), e)) :
    ∃ values : Values, values.pictures = d.values.pictures ∧ values.listed = d.values.listed ∧
      e = { d with values } := by
  rw [Document.bindBytes] at h
  split at h
  · cases h
  · next tag _ =>
    split at h
    · cases h
    · next values stored =>
      cases h
      rw [Values.bindBytes] at stored
      split at stored
      · next codec _ =>
        cases stored
        exact ⟨d.values.bind tag (codec.decode value) encode, rfl, rfl, rfl⟩
      · cases stored

/-- An image that was bound at the document is among its pictures, its file is listed, and its frame
is the value of the tag. -/
theorem bindImage_eq_ok {d e : Document} {key path : Text} {placement : Placement}
    (h : d.bindImage key path placement = (.ok (), e)) :
    ∃ tag frame values, d.declaredTag key = .ok tag ∧
      Frame.build d.session.disk path placement = .ok frame ∧
      d.values.bindImage d.session.disk tag path placement = .ok values ∧
      values.pictures = Values.addPicture frame.picture d.values.pictures ∧
      values.listed = d.values.listed ++ [frame.picture.file] ∧ e = { d with values } := by
  rw [Document.bindImage] at h
  split at h
  · cases h
  · next tag declared =>
    split at h
    · cases h
    · next values stored =>
      cases h
      cases built : Frame.build d.session.disk path placement with
      | error cause =>
        rw [Values.bindImage, built] at stored
        cases stored
      | ok frame =>
        refine ⟨tag, frame, values, declared, rfl, stored, ?_⟩
        rw [Values.bindImage, built] at stored
        cases stored
        exact ⟨rfl, rfl, rfl⟩

/-! ### Properties -/

/-- Setting a property fails and changes nothing, or it writes the metadata into the working copy and
answers as that does. -/
theorem setProperty_cases (d : Document) (key value : Text) (encode : Bool) :
    (∃ cause, d.setProperty key value encode = (.error cause, d)) ∨
    ∃ meta_ answer session,
      d.session.withOpen (WorkingCopy.putText Part.meta_ meta_) = (answer, session) ∧
      d.setProperty key value encode = (answer, { d with meta_, session }) := by
  rw [setProperty]
  split
  · exact .inl ⟨_, rfl⟩
  · exact .inl ⟨_, rfl⟩
  · exact .inl ⟨_, rfl⟩
  · exact .inr ⟨_, _, _, rfl, rfl⟩

/-- Setting a property changes nothing but the metadata and the session. -/
theorem exists_of_setProperty (d : Document) (key value : Text) (encode : Bool) :
    ∃ meta_ session, (d.setProperty key value encode).2 = { d with meta_, session } := by
  rcases d.setProperty_cases key value encode with ⟨cause, failed⟩ | ⟨_, _, _, -, done⟩
  · exact ⟨d.meta_, d.session, by rw [failed]⟩
  · exact ⟨_, _, by rw [done]⟩

/-! ### Every call -/

/-- No call takes a picture away, and only the binding of an image adds one. -/
theorem grows_act (a : Action) (d : Document) :
    Grows (a.newPictures d.session.disk) d (a.act d).2 := by
  cases a with
  | bind key value encode =>
    refine (d.atomic_bind key value encode).elim (.refl d) fun e h => ?_
    obtain ⟨values, same, -, rfl⟩ := bind_eq_ok h
    exact .of_values rfl (fun _ mem => same ▸ mem) fun _ mem => List.mem_append_left _ (same ▸ mem)
  | bindBytes key value encode charset =>
    refine (d.atomic_bindBytes key value encode charset).elim (.refl d) fun e h => ?_
    obtain ⟨values, same, -, rfl⟩ := bindBytes_eq_ok h
    exact .of_values rfl (fun _ mem => same ▸ mem) fun _ mem => List.mem_append_left _ (same ▸ mem)
  | bindImage key path placement =>
    refine (d.atomic_bindImage key path placement).elim (.refl d) fun e h => ?_
    obtain ⟨tag, frame, values, -, built, -, added, -, rfl⟩ := bindImage_eq_ok h
    rw [Action.newPictures, Segment.Action.newPictures, built]
    refine .of_values rfl ?_ ?_
    · rw [added]
      exact Values.subset_addPicture _ _
    · rw [added]
      exact Values.addPicture_subset _ _
  | declareSegment name =>
    exact (d.atomic_declareSegment name).elim (.refl d) fun e h => (grows_declareSegment h).1
  | onSegment name path call => exact grows_onSegment name path call d
  | mergeSegment name =>
    refine (d.atomic_mergeSegment name).elim (.refl d) fun e h => ?_
    obtain ⟨-, same, idled⟩ := mergeSegment_eq_ok h
    refine .of_root same (.of_idled_eq ?_)
    rw [root, root, Segment.idled_node, Segment.idled_node, idled]
  | setProperty key value encode =>
    obtain ⟨meta_, session, done⟩ := d.exists_of_setProperty key value encode
    rw [Action.act, done]
    exact .of_values rfl (List.Subset.refl _) (List.subset_append_left _ _)
  | save call =>
    obtain ⟨-, -, values⟩ := call.texts_after_call d
    exact .of_values (call.segments_after_call d)
      (fun _ mem => by rwa [Action.act, values]) fun _ mem =>
        List.mem_append_left _ (by rwa [Action.act, values] at mem)

/-! ## The package of a document -/

namespace Action

/-- The pictures that a merge copies, in order. -/
def copies : Action → Document → List Picture
  | .onSegment name path .merge, d =>
    match d.declareSegment name with
    | (.ok (), e) => ((Segment.at? (name :: path) e.root).map Segment.copies).getD []
    | (.error _, _) => []
  | _, _ => []

end Action

/-- The pictures that the merges of a run copy, in order. -/
def copied : List Action → Document → List Picture
  | [], _ => []
  | a :: steps, d => a.copies d ++ copied steps (a.act d).2

/-- A call on a node of a segment that is no merge leaves the session as it is; a merge does what it
does on the node. -/
theorem session_onSegment_cases (name : Text) (path : List Text) (call : Segment.Action)
    (d : Document) :
    ((d.onSegment name (Segment.onPath call.call path)).2.session = d.session ∧
      (Action.onSegment name path call).copies d = []) ∨
    ∃ e, call = .merge ∧ d.declareSegment name = (.ok (), e) ∧
      (d.onSegment name (Segment.onPath call.call path)).2.session
        = (Segment.onPath Segment.merge (name :: path) e.root d.session).2.2 := by
  have copiesOfOther (binds : call ≠ .merge) : (Action.onSegment name path call).copies d = [] := by
    cases call with
    | merge => exact absurd rfl binds
    | bind => rfl
    | bindBytes => rfl
    | bindImage => rfl
  rcases d.onSegment_cases name (Segment.onPath call.call path) with
    ⟨cause, undeclared, failed⟩ | ⟨e, declared, cases⟩
  · rw [failed]
    refine .inl ⟨rfl, ?_⟩
    by_cases merges : call = .merge
    · rw [merges, Action.copies, undeclared]
    · exact copiesOfOther merges
  · have session := (grows_declareSegment declared).2
    rcases done : Segment.onChild name (Segment.onPath call.call path) e.root e.session
      with ⟨r, t, τ⟩
    rw [(cases r t τ done).1]
    by_cases merges : call = .merge
    · subst merges
      refine .inr ⟨e, rfl, declared, ?_⟩
      rw [← session]
      show τ = (Segment.onChild name (Segment.onPath Segment.merge path) e.root e.session).2.2
      rw [show Segment.onChild name (Segment.onPath Segment.merge path) e.root e.session
        = (r, t, τ) from done]
    · have still := Segment.session_onPath (P := fun σ τ => τ = σ) (fun _ => rfl)
        (Segment.session_call merges) (name :: path) e.root e.session
      rw [Segment.onPath, done] at still
      exact .inl ⟨still.trans session, copiesOfOther merges⟩

/-- All that a call can do to the session: nothing; a merge on a node; writing the metadata; or
saving. -/
theorem session_act_cases (a : Action) (d : Document) :
    ((a.act d).2.session = d.session ∧ a.copies d = []) ∨
    (∃ name path e, a = .onSegment name path .merge ∧ d.declareSegment name = (.ok (), e) ∧
      (a.act d).2.session = (Segment.onPath Segment.merge (name :: path) e.root d.session).2.2) ∨
    (∃ key value encode, a = .setProperty key value encode ∧ (a.act d).2.session
        = (d.session.withOpen (WorkingCopy.putText Part.meta_ (a.act d).2.meta_)).2 ∧
      a.copies d = []) ∨
    ∃ call, a = .save call := by
  cases a with
  | bind key value encode =>
    refine .inl ⟨(d.atomic_bind key value encode).session fun e h => ?_, rfl⟩
    obtain ⟨values, -, -, rfl⟩ := bind_eq_ok h
    rfl
  | bindBytes key value encode charset =>
    refine .inl ⟨(d.atomic_bindBytes key value encode charset).session fun e h => ?_, rfl⟩
    obtain ⟨values, -, -, rfl⟩ := bindBytes_eq_ok h
    rfl
  | bindImage key path placement =>
    refine .inl ⟨(d.atomic_bindImage key path placement).session fun e h => ?_, rfl⟩
    obtain ⟨tag, frame, values, -, -, -, -, -, rfl⟩ := bindImage_eq_ok h
    rfl
  | declareSegment name =>
    exact .inl ⟨(d.atomic_declareSegment name).session fun e h => (grows_declareSegment h).2, rfl⟩
  | onSegment name path call =>
    rcases session_onSegment_cases name path call d with same | ⟨e, rfl, declared, merged⟩
    · exact .inl same
    · exact .inr (.inl ⟨name, path, e, rfl, declared, merged⟩)
  | mergeSegment name =>
    exact .inl ⟨(d.atomic_mergeSegment name).session fun e h => (mergeSegment_eq_ok h).1, rfl⟩
  | setProperty key value encode =>
    rw [Action.act]
    rcases d.setProperty_cases key value encode with ⟨cause, failed⟩ | ⟨_, _, _, written, done⟩
    · rw [failed]
      exact .inl ⟨rfl, rfl⟩
    · rw [done, written]
      exact .inr (.inr (.inl ⟨key, value, encode, rfl, rfl, rfl⟩))
  | save call => exact .inr (.inr (.inr ⟨call, rfl⟩))

/-- What the working copy holds after a result was written into it, it holds after the whole call. -/
theorem holds_call {d : Document} {members : List Held} (call : SaveCall)
    (h : d.finalize.2.session.Holds members) : (call.call d).2.session.Holds members := by
  rcases call.call_cases d with ⟨cause, failed⟩ | ⟨w, file, disk, -, -, -, same, -, done⟩
  · rw [failed]
    exact h
  · rw [done]
    obtain ⟨w, content, working, closed, file, read⟩ := h
    exact ⟨w, content, working, closed, (same w.file).trans file, read⟩

/-- What can be written after a result was written into it, can be written after the whole call. -/
theorem ready_call {d : Document} {members : List Held} (call : SaveCall)
    (h : d.finalize.2.session.Ready members) : (call.call d).2.session.Ready members := by
  refine ⟨holds_call call h.holds, ?_, h.fits⟩
  rcases call.call_cases d with ⟨cause, failed⟩ | ⟨w, file, disk, -, -, -, -, alike, done⟩
  · rw [failed]
    exact h.staged
  · rw [done]
    exact fun w working => alike.stage (h.staged w working)

/-- No call takes a name from the package. -/
theorem extends_act (a : Action) (d : Document) : d.session.Extends (a.act d).2.session := by
  rcases session_act_cases a d with
    ⟨same, -⟩ | ⟨name, path, e, rfl, -, merged⟩ | ⟨_, _, _, -, written, -⟩ | ⟨call, rfl⟩
  · rw [same]
    exact .refl _
  · rw [merged]
    exact Segment.session_onPath (P := Session.Extends) .refl Segment.extends_merge _ _ _
  · rw [written]
    exact .withOpen _ (Edits.putText _ _)
  · intro members held
    obtain ⟨after, held, kept, -⟩ := holds_finalize held
    exact ⟨after, holds_call call held, kept.names⟩

theorem extends_run (steps : List Action) (d : Document) :
    d.session.Extends (run steps d).session := by
  induction steps generalizing d with
  | nil => exact .refl _
  | cons a steps ih => exact (extends_act a d).trans (ih _)

/-- What is known of a document all along its use.  The images are where they were; all pictures are
those of images that can be read; and under the name of a picture that is not the document's own,
the package has what the template had, and else the first picture that was copied. -/
structure Traced (images : Disk) (paths : List Text) (template : List Held)
    (log : List Picture) (d : Document) : Prop where
  sees : ∀ path ∈ paths, d.session.disk.read path = images.read path
  pictures : ∀ p ∈ d.allPictures ++ log, p.Usable images ∧ p.source ∈ paths
  package : ∃ members, d.session.Ready members ∧
    ∀ p : Picture, p.Usable images → p.entry ∉ d.values.pictures.map Picture.entry →
      contentOf members p.entry =
        (contentOf template p.entry).or (Picture.firstBytes? images log p.entry)

/-- The picture of an image that is bound is usable. -/
theorem usable_of_mem_newPictures {a : Segment.Action} {disk : Disk} {p : Picture}
    (mem : p ∈ a.newPictures disk) :
    p.Usable disk ∧ ∃ key placement, a = .bindImage key p.source placement := by
  cases a with
  | bindImage key path placement =>
    rw [Segment.Action.newPictures] at mem
    cases built : Frame.build disk path placement with
    | error cause =>
      rw [built] at mem
      exact absurd mem List.not_mem_nil
    | ok frame =>
      rw [built, List.mem_singleton] at mem
      subst mem
      obtain ⟨file, content, named, read, picture, -⟩ := Frame.exists_of_build built
      rw [picture]
      exact ⟨⟨⟨content, read⟩, named⟩, key, placement, rfl⟩
  | bind => exact absurd mem List.not_mem_nil
  | bindBytes => exact absurd mem List.not_mem_nil
  | merge => exact absurd mem List.not_mem_nil

theorem Action.usable_of_mem_newPictures {a : Action} {disk : Disk} {p : Picture}
    (mem : p ∈ a.newPictures disk) : p.Usable disk ∧ a.image? = some p.source := by
  cases a with
  | bindImage key path placement =>
    have mem : p ∈ (Segment.Action.bindImage key path placement).newPictures disk := mem
    obtain ⟨usable, _, _, same⟩ := Document.usable_of_mem_newPictures mem
    cases same
    exact ⟨usable, rfl⟩
  | onSegment name path call =>
    have mem : p ∈ call.newPictures disk := mem
    obtain ⟨usable, _, _, rfl⟩ := Document.usable_of_mem_newPictures mem
    exact ⟨usable, rfl⟩
  | _ => exact absurd mem List.not_mem_nil

/-- The pictures that a call copies are pictures of the document. -/
theorem copies_subset (a : Action) (d : Document) : a.copies d ⊆ d.allPictures := by
  intro p mem
  cases a with
  | onSegment name path call =>
    cases call with
    | merge =>
      rw [Action.copies] at mem
      rcases declared : d.declareSegment name with ⟨cause | ⟨⟩, e⟩
      · rw [declared] at mem
        exact absurd mem List.not_mem_nil
      · rw [declared] at mem
        simp only at mem
        cases found : Segment.at? (name :: path) e.root with
        | none =>
          rw [found] at mem
          exact absurd mem List.not_mem_nil
        | some n =>
          rw [found] at mem
          have below := Segment.allPictures_at?_subset found (Segment.copies_subset n mem)
          have grown := (grows_declareSegment declared).1.fresh (List.mem_append_right _ below)
          rwa [List.append_nil] at grown
    | bind => exact absurd mem List.not_mem_nil
    | bindBytes => exact absurd mem List.not_mem_nil
    | bindImage => exact absurd mem List.not_mem_nil
  | _ => exact absurd mem List.not_mem_nil

namespace Traced

variable {images : Disk} {paths : List Text} {template : List Held} {log : List Picture}
  {d : Document}

/-- The document's own pictures and those that were copied are usable, and their images stay. -/
theorem of_mem (h : Traced images paths template log d) {p : Picture}
    (mem : p ∈ d.values.pictures ++ log) : p.Usable images ∧ p.source ∈ paths := by
  refine h.pictures p ?_
  rcases List.mem_append.1 mem with own | copied
  · exact List.mem_append_left _ (List.mem_append_left _ own)
  · exact List.mem_append_right _ copied

/-- The pictures after a call are usable, if its image is among those that stay where they are. -/
theorem pictures_act (h : Traced images paths template log d) {a : Action}
    (bound : ∀ path ∈ a.image?, path ∈ paths) :
    ∀ p ∈ (a.act d).2.allPictures ++ (log ++ a.copies d), p.Usable images ∧ p.source ∈ paths := by
  have old : ∀ p ∈ d.allPictures, p.Usable images ∧ p.source ∈ paths :=
    fun p mem => h.pictures p (List.mem_append_left _ mem)
  intro p mem
  rcases List.mem_append.1 mem with here | logged
  · rcases List.mem_append.1 ((grows_act a d).fresh here) with mem | new
    · exact old p mem
    · obtain ⟨⟨readable, named⟩, image⟩ := Action.usable_of_mem_newPictures new
      have known := bound p.source image
      rw [h.sees p.source known] at readable
      exact ⟨⟨readable, named⟩, known⟩
  · rcases List.mem_append.1 logged with mem | copied
    · exact h.pictures p (List.mem_append_right _ mem)
    · exact old p (copies_subset a d copied)

/-- What a merge on a node leaves in the package. -/
theorem package_merge (h : Traced images paths template log d) {name : Text} (path : List Text)
    {e : Document} (declared : d.declareSegment name = (.ok (), e)) :
    ∃ members after, d.session.Holds members ∧
      (Segment.onPath Segment.merge (name :: path) e.root d.session).2.2.Ready after ∧
      Copied images ((Action.onSegment name path .merge).copies d) members after := by
  obtain ⟨members, ready, -⟩ := h.package
  have copies : (Action.onSegment name path .merge).copies d
      = ((Segment.at? (name :: path) e.root).map Segment.copies).getD [] := by
    rw [Action.copies, declared]
  rw [copies]
  cases found : Segment.at? (name :: path) e.root with
  | none =>
    rw [Segment.onPath_of_none found]
    exact ⟨members, members, ready.holds, ready, .refl _⟩
  | some n =>
    have known : ∀ p ∈ n.allPictures, p.Usable images ∧ p.source ∈ paths := by
      intro p mem
      have below := Segment.allPictures_at?_subset found mem
      have grown := (grows_declareSegment declared).1.fresh (List.mem_append_right _ below)
      rw [List.append_nil] at grown
      exact h.pictures p (List.mem_append_left _ grown)
    have usable : ∀ p ∈ n.allPictures, p.Usable d.session.disk := by
      intro p mem
      obtain ⟨⟨readable, named⟩, there⟩ := known p mem
      rw [← h.sees p.source there] at readable
      exact ⟨readable, named⟩
    obtain ⟨τ, after, done, ready', copied⟩ := Segment.copied_merge ready usable
    obtain ⟨around, -, -, -, -, calls⟩ := Segment.exists_around found
    rw [calls Segment.merge d.session, done]
    refine ⟨members, after, ready.holds, ready', copied.keeps, fun ordinary => ?_⟩
    rw [copied.content ordinary, Picture.firstBytes?_congr fun p mem =>
      h.sees p.source (known p (Segment.copies_subset n mem)).2]
    rfl

/-- **One call.**  The invariant is kept by every call after which the images are where they were. -/
theorem act (h : Traced images paths template log d) {a : Action}
    (bound : ∀ path ∈ a.image?, path ∈ paths)
    (sees : ∀ path ∈ paths, (a.act d).2.session.disk.read path = images.read path) :
    Traced images paths template (log ++ a.copies d) (a.act d).2 := by
  refine ⟨sees, h.pictures_act bound, ?_⟩
  have own := (grows_act a d).own
  have apart {p : Picture} (away : p.entry ∉ (a.act d).2.values.pictures.map Picture.entry) :
      p.entry ∉ d.values.pictures.map Picture.entry :=
    fun mem => away (List.map_subset _ own mem)
  rcases session_act_cases a d with
    ⟨same, none⟩ | ⟨name, path, e, rfl, declared, merged⟩ | ⟨_, _, _, -, written, none⟩ |
    ⟨call, rfl⟩
  · obtain ⟨members, ready, content⟩ := h.package
    rw [same, none, List.append_nil]
    exact ⟨members, ready, fun p usable away => content p usable (apart away)⟩
  · obtain ⟨members, ready, content⟩ := h.package
    obtain ⟨members', after, held', ready', copied⟩ := h.package_merge path declared
    obtain rfl := ready.holds.unique held'
    rw [merged]
    refine ⟨after, ready', fun p usable away => ?_⟩
    rw [copied.content usable.ordinary, content p usable (apart away), Option.or_assoc,
      Picture.firstBytes?_append fun q mem => (h.pictures q (List.mem_append_right _ mem)).1]
  · obtain ⟨members, ready, content⟩ := h.package
    obtain ⟨after, ready', kept⟩ := ready.withOpen (Edits.putText Part.meta_ _)
    rw [written, none, List.append_nil]
    refine ⟨after, ready', fun p usable away => ?_⟩
    have other : p.entry ∉ [Part.meta_] := fun mem =>
      p.entry_notMem_texts (List.mem_of_mem_drop (i := 3) mem)
    rw [kept.content usable.ordinary other, content p usable (apart away)]
  · obtain ⟨members, ready, content⟩ := h.package
    obtain ⟨after, ready', kept⟩ := ready_finalize ready
    have none : (Action.save call).copies d = [] := rfl
    rw [none, List.append_nil]
    refine ⟨after, ready_call call ready', fun p usable away => ?_⟩
    have other : p.entry ∉ d.touched := by
      rw [touched, List.mem_append]
      rintro (text | picture)
      · exact p.entry_notMem_texts (List.mem_of_mem_take (i := 3) text)
      · exact apart away picture
    rw [kept.content usable.ordinary other, content p usable (apart away)]

/-- **A run.**  The invariant holds all along a run during which the images stay where they are. -/
theorem run {steps : List Action} (h : Traced images paths template log d)
    (bound : ∀ a ∈ steps, ∀ path ∈ a.image?, path ∈ paths)
    (sees : ∀ before, before <+: steps → ∀ path ∈ paths,
      (Document.run before d).session.disk.read path = images.read path) :
    Traced images paths template (log ++ copied steps d) (Document.run steps d) := by
  induction steps generalizing log d with
  | nil =>
    rw [copied, List.append_nil]
    exact h
  | cons a steps ih =>
    have step := h.act (bound a List.mem_cons_self) (sees [a] (by simp))
    rw [copied, ← List.append_assoc]
    refine ih step (fun b mem => bound b (List.mem_cons_of_mem _ mem)) fun before first => ?_
    exact sees (a :: before) (List.cons_prefix_cons.2 ⟨rfl, first⟩)

end Traced

/-! ## Filling a document -/

section Filling

variable {P : Except Error Unit × Document → Prop} {d : Document}

/-- What each call of a list keeps, all of them keep up to the first that fails. -/
theorem forEach_induct {ι : Type} {call : Document → ι → Except Error Unit × Document}
    (each : ∀ {d : Document} i, P (.ok (), d) → P (call d i)) (h : P (.ok (), d)) (is : List ι) :
    P (d.forEach call is) := by
  induction is generalizing d with
  | nil => exact h
  | cons i is ih =>
    have first := each i h
    rw [forEach]
    rcases done : call d i with ⟨cause | _, e⟩
    · rw [done] at first
      exact first
    · rw [done] at first
      exact ih first

/-- Filling makes four kinds of calls on the document.  What each of them keeps, filling keeps,
wherever it stops. -/
theorem fill_induct
    (bind : ∀ {d : Document} key value, P (.ok (), d) → P (d.bind key value true))
    (bindImage : ∀ {d : Document} key path placement, P (.ok (), d) →
      P (d.bindImage key path placement))
    (mergeRows : ∀ {d : Document} name rows, P (.ok (), d) →
      P (d.onSegment name (MergeData.mergeRows rows)))
    (mergeSegment : ∀ {d : Document} name, P (.ok (), d) → P (d.mergeSegment name))
    (data : MergeData) (h : P (.ok (), d)) : P (d.fill data) := by
  obtain ⟨values, images, segments⟩ := data
  rw [fill]
  have bound := forEach_induct (fun (i : Text × Json.Value) => bind i.1 (MergeData.valueText i.2)) h values
  rcases done : d.forEach _ values with ⟨cause | _, e⟩
  · rw [done] at bound
    exact bound
  · rw [done] at bound
    simp only
    have shown := forEach_induct (fun (i : Text × ImageBinding) => bindImage i.1 i.2.path i.2.placement)
      bound images
    rcases done : e.forEach _ images with ⟨cause | _, f⟩
    · rw [done] at shown
      exact shown
    · rw [done] at shown
      refine forEach_induct (fun i h => ?_) shown segments
      have merged := mergeRows i.1 i.2 h
      simp only [fillSegment]
      rcases done : Document.onSegment _ i.1 (MergeData.mergeRows i.2) with ⟨cause | _, g⟩
      · rw [done] at merged
        exact merged
      · rw [done] at merged
        exact mergeSegment i.1 merged

end Filling

/-! ## Opening -/

/-- A template that was copied is the content of the copy, which is closed; and nothing that has a
path was touched. -/
theorem exists_of_create {disk after : Disk} {template directory : Text} {w : WorkingCopy}
    (h : WorkingCopy.create disk template directory = (.ok w, after)) :
    ∃ content, disk.read template = .ok content ∧ after.temporary? w.file = some content ∧
      after.bare = disk.bare := by
  rw [WorkingCopy.create, Disk.makeTemporary] at h
  simp only at h
  cases admitted : disk.admits directory (Temporary.nameOf disk.freeNumber) with
  | error cause => rw [admitted] at h; cases h
  | ok _ =>
    rw [admitted] at h
    simp only at h
    split at h
    · cases h
    · next content copied =>
      cases h
      refine ⟨content, ?_, Disk.temporary?_fillTemporary _ _ _, rfl⟩
      rw [Disk.readForCopy] at copied
      split at copied
      · cases copied
      · rw [← Disk.read_bare] at copied
        rw [← Disk.read_bare]
        exact copied

/-- The name under which a new package is prepared is shorter than that of any working copy. -/
theorem byteSize_stagedName_le (number : Nat) :
    Path.isAbsolute Disk.stagedName = Path.isAbsolute (Temporary.nameOf number) ∧
      Text.byteSize Disk.stagedName ≤ Text.byteSize (Temporary.nameOf number) := by
  obtain ⟨zeros, digits, spelled⟩ : ∃ zeros digits, Temporary.nameOf number
      = "odt-merge-".toList ++ zeros ++ digits ++ ".odt".toList := ⟨_, _, rfl⟩
  rw [spelled]
  constructor
  · have first : "odt-merge-".toList.head? = some 'o' := by decide
    rw [List.append_assoc, List.append_assoc, Path.isAbsolute, Path.isAbsolute, List.head?_append,
      first]
    rfl
  · have front : Text.byteSize "odt-merge-".toList = 10 := by decide
    have staged : Text.byteSize Disk.stagedName = 10 := by decide
    simp only [Text.byteSize_append]
    omega

/-- So one can be prepared beside a copy that was made. -/
theorem staged_of_create {disk after : Disk} {template directory : Text} {w : WorkingCopy}
    (h : WorkingCopy.create disk template directory = (.ok w, after)) :
    after.stage (.temporary w.file) = .ok () := by
  rw [WorkingCopy.create, Disk.makeTemporary] at h
  simp only at h
  cases admitted : disk.admits directory (Temporary.nameOf disk.freeNumber) with
  | error cause => rw [admitted] at h; cases h
  | ok _ =>
    rw [admitted] at h
    simp only at h
    split at h
    · cases h
    · cases h
      obtain ⟨absolute, shorter⟩ := byteSize_stagedName_le disk.freeNumber
      rw [← Disk.stage_bare]
      show disk.bare.stage (.temporary _) = .ok ()
      rw [Disk.stage_bare]
      exact Disk.admits_of_shorter admitted absolute shorter

/-- Reading the texts of a package is no edit. -/
theorem edits_readParts : Edits [] fun a => (readParts a, a) where
  location _ := rfl
  keeps _ := .refl _ _
  clean _ _ := rfl

/-- All that is known of a document that was opened: its template was copied, and its texts were read
from the copy. -/
theorem openAt_eq_ok {disk after : Disk} {path : Text} {config : Config} {d : Document}
    (h : openAt disk path config = (.ok d, after)) :
    ∃ directory w copied parts w', WorkingCopy.create disk path directory = (.ok w, copied) ∧
      Session.withOpen ⟨config, some w, copied⟩ (fun a => (readParts a, a))
        = (.ok parts, ⟨config, some w', after⟩) ∧
      d = {
        source := path
        session := ⟨config, some w', after⟩
        content := Region.normalizeRows parts.content
        styles := parts.styles
        meta_ := parts.meta_
        manifest := parts.manifest
        values := Values.empty
        segments := [] } := by
  rw [openAt] at h
  split at h
  · cases h
  · split at h
    · cases h
    · next directory _ =>
      split at h
      · cases h
      · next w copied created =>
        rcases edited : w.withOpen copied fun a => (readParts a, a) with ⟨_ | parts, w', final⟩
        · rw [edited] at h
          cases h
        · rw [edited] at h
          cases h
          refine ⟨directory, w, copied, parts, w', created, ?_, rfl⟩
          rw [Session.withOpen]
          simp only [edited]

/-- A document that was opened has the package of its template, from which its texts were read. -/
theorem exists_parts_of_openAt {disk after : Disk} {path : Text} {config : Config} {d : Document}
    (h : openAt disk path config = (.ok d, after)) :
    ∃ members location parts, Archive.load disk (.path path) = .ok members ∧
      d.session.Holds members ∧ d.session.disk.bare = disk.bare ∧
      readParts ⟨some location, members, false⟩ = .ok parts ∧
      d.content = Region.normalizeRows parts.content ∧ d.styles = parts.styles ∧
      d.manifest = parts.manifest ∧ d.meta_ = parts.meta_ := by
  obtain ⟨directory, w, copied, parts, w', created, whole, rfl⟩ := openAt_eq_ok h
  obtain ⟨content, read, file, bare⟩ := exists_of_create created
  obtain ⟨members, held⟩ := Session.holds_of_withOpen_ok (congrArg Prod.fst whole)
  obtain ⟨location, cases⟩ := Session.withOpen_cases held edits_readParts
  rcases cases _ rfl with ⟨-, answer, held'⟩ | ⟨dirty, -⟩ | ⟨dirty, -⟩
  · rw [whole] at answer held'
    refine ⟨members, location, parts, ?_, held', ?_, answer.symm, rfl, rfl, rfl, rfl⟩
    · obtain ⟨u, content', working, -, file', members'⟩ := held
      cases working
      rw [file] at file'
      cases file'
      rw [Archive.load, Disk.fetch, read]
      simp only [members']
    · have still := Session.detached_withOpen ⟨config, some w, copied⟩ edits_readParts
      rw [whole] at still
      exact (congrArg Session.disk still).trans bare
  · cases dirty
  · cases dirty

/-- The package of a document that was just opened can be written. -/
theorem staged_of_openAt {disk after : Disk} {path : Text} {config : Config} {d : Document}
    (h : openAt disk path config = (.ok d, after)) : d.session.Staged := by
  obtain ⟨directory, w, copied, parts, w', created, whole, rfl⟩ := openAt_eq_ok h
  have staged : Session.Staged ⟨config, some w, copied⟩ := by
    intro u working
    cases working
    exact staged_of_create created
  have kept := staged.withOpen edits_readParts
  rw [whole] at kept
  exact kept

/-- A document that was opened has the package of its template, and nothing is bound on it. -/
theorem exists_holds_of_openAt {disk after : Disk} {path : Text} {config : Config} {d : Document}
    (h : openAt disk path config = (.ok d, after)) :
    ∃ members, Archive.load disk (.path path) = .ok members ∧ d.session.Holds members ∧
      (∀ p, d.session.disk.read p = disk.read p) ∧ d.allPictures = [] := by
  obtain ⟨members, -, -, loaded, held, bare, -⟩ := exists_parts_of_openAt h
  refine ⟨members, loaded, held, fun p => ?_, ?_⟩
  · rw [← Disk.read_bare, bare, Disk.read_bare]
  · obtain ⟨_, _, _, _, _, -, -, rfl⟩ := openAt_eq_ok h
    rfl

end Document

end DocumentMerge
