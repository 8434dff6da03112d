import DocumentMerge.Proofs.Document.Running
import DocumentMerge.Proofs.Segment.Carrying

/-!
# What one call does to a document

A document is used by calls of eight kinds.  `Effect` says what each of them leaves, and
`effect_act` that this is all that a call can do.  What holds of a document all along its use is
proved by going through the effects, without asking again how a call is done.

* `content_act`: only putting a segment into the content, and saving, change the content.
* `get?_nil_act`: the empty tag is never bound.
* `Sound`: the segments have the shape that discovery gives them.  `Sound.act`: no call changes this.
* `prefix_outputAt_act`: what waits at a node of a segment is still there after a call, unless the
  call is a merge above the node.
-/

namespace DocumentMerge.Document

/-- All that a call can leave behind. -/
inductive Effect (d : Document) : Action → Document → Prop
  /-- The call failed, or there was nothing to do. -/
  | none {a : Action} : Effect d a d
  | bound {a : Action} {tag value : Text} {values : Values} : tag ≠ [] →
    values.bindings = d.values.bindings.put tag value → Effect d a { d with values }
  | declared {name : Text} {e : Document} : d.declareSegment name = (.ok (), e) →
    Effect d (.declareSegment name) e
  | called {name : Text} {path : List Text} {call : Segment.Action} {e : Document} {t : Segment}
    {r : Except Error Unit} {τ : Session} : d.declareSegment name = (.ok (), e) →
    Segment.onPath call.call (name :: path) e.root e.session = (r, t, τ) →
    ({ e with segments := t.children, session := τ } : Document).root = t →
    Effect d (.onSegment name path call) { e with segments := t.children, session := τ }
  | merged {name : Text} {s : Segment} {m : Match Region} : d.segment? name = some s →
    Region.find? name d.content = some m →
    Effect d (.mergeSegment name) { d with
      content := m.before ++ s.own.output ++ m.after
      values := { d.values with listed := d.values.listed ++ s.own.values.listed }
      segments := release name d.segments }
  | property {key value : Text} {encode : Bool} {meta_ : Text} {session : Session} :
    Effect d (.setProperty key value encode) { d with meta_, session }
  | saved {call : SaveCall} : Effect d (.save call) (call.call d).2

/-- The tag of a variable that is bound is not empty. -/
theorem ne_nil_of_declaredTag {d : Document} {key tag : Text} (h : d.declaredTag key = .ok tag) :
    tag ≠ [] := by
  rw [declaredTag] at h
  split at h
  · next there =>
    cases h
    intro empty
    rw [empty, Bindings.declaredIn] at there
    cases there
  · cases h

/-- A call leaves one of its effects. -/
theorem effect_act (a : Action) (d : Document) : Effect d a (a.act d).2 := by
  cases a with
  | bind key value encode =>
    refine (d.atomic_bind key value encode).elim .none fun e h => ?_
    rw [Document.bind] at h
    split at h
    · cases h
    · next tag tagged =>
      cases h
      exact .bound (ne_nil_of_declaredTag tagged) rfl
  | bindBytes key value encode charset =>
    refine (d.atomic_bindBytes key value encode charset).elim .none fun e h => ?_
    rw [Document.bindBytes] at h
    split at h
    · cases h
    · next tag tagged =>
      rw [Values.bindBytes] at h
      cases known : Charset.ofLabel? charset with
      | none => rw [known] at h; cases h
      | some codec =>
        rw [known] at h
        cases h
        exact .bound (ne_nil_of_declaredTag tagged) rfl
  | bindImage key path placement =>
    refine (d.atomic_bindImage key path placement).elim .none fun e h => ?_
    obtain ⟨tag, frame, values, tagged, built, stored, -, -, rfl⟩ := bindImage_eq_ok h
    rw [Values.bindImage, built] at stored
    cases stored
    exact .bound (ne_nil_of_declaredTag tagged) rfl
  | declareSegment name =>
    exact (d.atomic_declareSegment name).elim .none fun e h => .declared h
  | onSegment name path call =>
    rw [Action.act]
    rcases d.onSegment_cases name (Segment.onPath call.call path) with
      ⟨cause, -, failed⟩ | ⟨e, declared, cases⟩
    · rw [failed]
      exact .none
    · rcases done : Segment.onChild name (Segment.onPath call.call path) e.root e.session
        with ⟨r, t, τ⟩
      obtain ⟨left, tree, -⟩ := cases r t τ done
      rw [left]
      exact .called declared done tree
  | mergeSegment name =>
    refine (d.atomic_mergeSegment name).elim .none fun e h => ?_
    obtain ⟨s, m, found, region, rfl⟩ := exists_of_mergeSegment h
    exact .merged found region
  | setProperty key value encode =>
    obtain ⟨meta_, session, done⟩ := d.exists_of_setProperty key value encode
    rw [Action.act, done]
    exact .property
  | save call => exact .saved

/-! ## The content -/

/-- A call that changes the content. -/
def Action.Rewrites : Action → Prop
  | .mergeSegment _ => True
  | .save _ => True
  | _ => False

theorem content_act {a : Action} (h : ¬ a.Rewrites) (d : Document) :
    (a.act d).2.content = d.content := by
  have effect := effect_act a d
  generalize (a.act d).2 = after at effect ⊢
  cases effect with
  | none => rfl
  | bound => rfl
  | declared ok => obtain ⟨segments, rfl⟩ := exists_of_declareSegment ok; rfl
  | called ok => obtain ⟨segments, rfl⟩ := exists_of_declareSegment ok; rfl
  | merged => exact absurd trivial h
  | property => rfl
  | saved => exact absurd trivial h

/-! ## The empty tag -/

/-- The empty tag is never bound. -/
theorem get?_nil_act {d : Document} (h : d.values.bindings.get? [] = none) (a : Action) :
    (a.act d).2.values.bindings.get? [] = none := by
  have effect := effect_act a d
  generalize (a.act d).2 = after at effect ⊢
  cases effect with
  | none => exact h
  | bound nonempty put =>
    rw [put, Bindings.get?_put, if_neg (Ne.symm nonempty)]
    exact h
  | declared ok => obtain ⟨segments, rfl⟩ := exists_of_declareSegment ok; exact h
  | called ok => obtain ⟨segments, rfl⟩ := exists_of_declareSegment ok; exact h
  | merged => exact h
  | property => exact h
  | saved => rw [(SaveCall.texts_after_call _ d).2.2]; exact h

theorem get?_nil_run {d : Document} (h : d.values.bindings.get? [] = none) (steps : List Action) :
    (run steps d).values.bindings.get? [] = none := by
  induction steps generalizing d with
  | nil => exact h
  | cons a steps ih => exact ih (get?_nil_act h a)

/-! ## The shape of the segments -/

/-- The segments have the shape that discovery gives them. -/
def Sound (d : Document) : Prop :=
  ∀ s ∈ d.segments, s.Sound

theorem Sound.of_skeletons {d e : Document} (h : d.Sound)
    (same : e.segments.map Segment.skeleton = d.segments.map Segment.skeleton) : e.Sound := by
  intro t mem
  have mem : t.skeleton ∈ d.segments.map Segment.skeleton := same ▸ List.mem_map_of_mem mem
  obtain ⟨s, mem, twin⟩ := List.mem_map.1 mem
  exact (h s mem).of_skeleton twin.symm

theorem Sound.declareSegment {d e : Document} {name : Text} (h : d.Sound)
    (declared : d.declareSegment name = (.ok (), e)) : e.Sound := by
  rcases declareSegment_eq_ok declared with rfl | ⟨-, m, s, -, built, rfl⟩
  · exact h
  · exact List.forall_mem_append.2
      ⟨h, List.forall_mem_singleton.2 (Segment.sound_of_parse built)⟩

/-- Taking the files that a segment lists changes no shape. -/
theorem skeletons_release (name : Text) (segments : List Segment) :
    (release name segments).map Segment.skeleton = segments.map Segment.skeleton := by
  induction segments with
  | nil => rfl
  | cons s rest ih =>
    obtain ⟨own, children⟩ := s
    rw [release]
    split
    · rw [List.map_cons, List.map_cons, Segment.skeleton_node, Segment.skeleton_node]
    · rw [List.map_cons, List.map_cons, ih]

/-- No call changes the shape of a segment. -/
theorem Sound.act {d : Document} (h : d.Sound) (a : Action) : (a.act d).2.Sound := by
  have effect := effect_act a d
  generalize (a.act d).2 = after at effect ⊢
  cases effect with
  | none => exact h
  | bound => exact h
  | declared ok => exact h.declareSegment ok
  | @called name path call e t r τ ok done tree =>
    refine Sound.of_skeletons (d := e) (h.declareSegment ok) ?_
    have same := ((Segment.tame_call call).onPath (name :: path)).skeleton_eq done
    simpa [root] using congrArg Segment.children same
  | merged => exact h.of_skeletons (skeletons_release _ _)
  | property => exact h
  | @saved call =>
    rw [Sound, call.segments_after_call]
    exact h

theorem Sound.run {d : Document} (h : d.Sound) (steps : List Action) : (run steps d).Sound := by
  induction steps generalizing d with
  | nil => exact h
  | cons a steps ih => exact ih (h.act a)

/-- Every node of a segment is sound. -/
theorem Sound.at? {d : Document} (h : d.Sound) {name : Text} {path : List Text} {n : Segment}
    (found : Segment.at? (name :: path) d.root = some n) : n.Sound := by
  obtain ⟨s, first, below⟩ := Option.bind_eq_some_iff.1 found
  exact (h s (List.mem_of_find?_eq_some first)).at? below

/-! ## What waits -/

/-- Taking the files that a segment lists takes nothing that waits. -/
theorem outputAt_release (own : Fragment) (name : Text) (segments : List Segment)
    (place : List Text) : Segment.outputAt place (.node own (release name segments))
      = Segment.outputAt place (.node own segments) := by
  cases place with
  | nil => rfl
  | cons first place =>
    rw [Segment.outputAt_cons, Segment.outputAt_cons]
    congr 1
    rw [Segment.child?, Segment.child?, Segment.children_node, Segment.children_node]
    induction segments with
    | nil => rfl
    | cons s rest ih =>
      obtain ⟨own, children⟩ := s
      rw [release]
      split
      · let taken : Segment :=
          .node { own with values := { own.values with listed := [] } } children
        have waits : Segment.outputAt place taken = Segment.outputAt place (.node own children) := by
          cases place with
          | nil => rfl
          | cons second place => exact Segment.outputAt_cons_congr rfl second place
        show ((taken :: rest).find? fun c => c.name == first).map _ = _
        rw [List.find?_cons, List.find?_cons]
        have same : taken.name = (Segment.node own children).name := rfl
        rw [same]
        cases (Segment.node own children).name == first with
        | true => exact congrArg some waits
        | false => rfl
      · rw [List.find?_cons, List.find?_cons]
        cases (Segment.node own children).name == first with
        | true => rfl
        | false => exact ih

/-- What waits in the segments waits there also when another segment is declared. -/
theorem prefix_outputAt_declareSegment {d e : Document} {name : Text}
    (h : d.declareSegment name = (.ok (), e)) (place : List Text) :
    Segment.outputAt place d.root <+: Segment.outputAt place e.root := by
  rcases declareSegment_eq_ok h with rfl | ⟨-, m, s, -, -, rfl⟩
  · exact List.prefix_refl _
  · cases place with
    | nil => exact List.prefix_refl _
    | cons first place =>
      rw [Segment.outputAt_cons, Segment.outputAt_cons, root, root, Segment.child?, Segment.child?,
        Segment.children_node, Segment.children_node, List.find?_append]
      cases d.segments.find? fun c => c.name == first with
      | none => exact List.nil_prefix
      | some c => exact List.prefix_refl _

/-- **What waits is not lost.**  What waits at a node of a segment is still there after a call,
perhaps with one more row behind it, unless the call is a merge of a node above. -/
theorem prefix_outputAt_act {a : Action} {place : List Text}
    (spares : ∀ name path, a = .onSegment name path .merge → name :: path <+: place →
      name :: path = place) (d : Document) :
    Segment.outputAt place d.root <+: Segment.outputAt place (a.act d).2.root := by
  have effect := effect_act a d
  generalize (a.act d).2 = after at effect ⊢
  cases effect with
  | none => exact List.prefix_refl _
  | bound => exact List.prefix_refl _
  | declared ok => exact prefix_outputAt_declareSegment ok place
  | @called name path call e t r τ ok done tree =>
    rw [tree]
    have spares' : call = .merge → name :: path <+: place → name :: path = place :=
      fun merges under => spares name path (by rw [merges]) under
    have kept := Segment.prefix_outputAt_onPath spares' e.root e.session
    rw [done] at kept
    exact (prefix_outputAt_declareSegment ok place).trans kept
  | merged =>
    rw [root, root, outputAt_release]
  | property => exact List.prefix_refl _
  | @saved call =>
    rw [root, root, call.segments_after_call]

end DocumentMerge.Document
