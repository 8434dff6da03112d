import DocumentMerge.Proofs.Segment.Merging

/-!
# Calls on a segment tree

A call on a node may bind something, merge, or descend to a child; bigger calls are put together
from these with `andThen`, `each`, `onChild` and `onPath`.  What all of them have in common is
stated once, as a property of calls that is closed under these combinators.

A call is *tame* (`Tame`) when

* it leaves names, sources and children as they are: the `skeleton` of the tree does not change;
* it keeps the detached form of the session;
* on the detached session it does the same to the tree whenever it succeeds;
* it leaves a session without a working copy as it is;
* without a working copy it succeeds on all trees of one shape or on none of them.

So every statement about successful calls can be proved on a detached session, where no call changes
the session and no merge fails.

* `callNamed_append`, `onChild_cases`: a call on a child changes this child and no other.
* `Within.andThen`, `Within.onPath` and others: what calls keep of the session, and the causes with
  which they fail, is the same for calls that are put together from them.
* `tame_edit`, `tame_merge`: the two kinds of calls on a node are tame.
-/

namespace DocumentMerge.Segment

/-! ## The shape of a tree -/

mutual

/-- The tree with everything forgotten but names, sources and children. -/
def skeleton : Segment → Segment
  | .node own children => .node (Fragment.ofRegion own.name own.source) (skeletons children)

/-- The skeletons of several segments. -/
def skeletons : List Segment → List Segment
  | [] => []
  | c :: cs => skeleton c :: skeletons cs

end

theorem skeletons_eq_map (children : List Segment) :
    skeletons children = children.map skeleton := by
  induction children with
  | nil => rfl
  | cons c cs ih => rw [skeletons, ih, List.map_cons]

theorem skeleton_node (own : Fragment) (children : List Segment) :
    skeleton (.node own children)
      = .node (Fragment.ofRegion own.name own.source) (children.map skeleton) := by
  rw [skeleton, skeletons_eq_map]

@[simp] theorem name_skeleton (s : Segment) : s.skeleton.own.name = s.own.name := by
  obtain ⟨own, children⟩ := s
  rw [skeleton_node]
  rfl

@[simp] theorem source_skeleton (s : Segment) : s.skeleton.own.source = s.own.source := by
  obtain ⟨own, children⟩ := s
  rw [skeleton_node]
  rfl

@[simp] theorem children_skeleton (s : Segment) :
    s.skeleton.children = s.children.map skeleton := by
  obtain ⟨own, children⟩ := s
  rw [skeleton_node]
  rfl

/-- Segments of one shape have the same name. -/
theorem name_eq_of_skeleton_eq {s t : Segment} (h : s.skeleton = t.skeleton) :
    s.own.name = t.own.name := by
  rw [← name_skeleton s, h, name_skeleton]

theorem source_eq_of_skeleton_eq {s t : Segment} (h : s.skeleton = t.skeleton) :
    s.own.source = t.own.source := by
  rw [← source_skeleton s, h, source_skeleton]

/-- The shape of a node is settled by its name, its source and the shapes of its children. -/
theorem skeleton_node_eq {own own' : Fragment} {cs ds : List Segment}
    (name : own.name = own'.name) (source : own.source = own'.source)
    (below : cs.map skeleton = ds.map skeleton) :
    skeleton (.node own cs) = skeleton (.node own' ds) := by
  rw [skeleton_node, skeleton_node, name, source, below]

@[simp] theorem skeleton_drain (s : Segment) : s.drain.skeleton = s.skeleton := by
  obtain ⟨own, children⟩ := s
  exact skeleton_node_eq rfl rfl rfl

/-! ## Calls on a child -/

section OnChild

variable {α : Type} {name : Text} {call : Call α}

/-- A call by name is made on the first child of that name. -/
theorem callNamed_append {before after : List Segment} {c d : Segment} {σ τ : Session}
    {r : Except Error α} (earlier : ∀ b ∈ before, b.own.name ≠ name) (named : c.own.name = name)
    (h : call c σ = (r, d, τ)) :
    callNamed name call (before ++ c :: after) σ = some (r, before ++ d :: after, τ) := by
  induction before with
  | nil =>
    have same : c.name = name := named
    rw [List.nil_append, callNamed, if_pos same, h]
    rfl
  | cons b before ih =>
    have other : b.name ≠ name := earlier b List.mem_cons_self
    rw [List.cons_append, callNamed, if_neg other,
      ih fun b mem => earlier b (List.mem_cons_of_mem _ mem)]
    rfl

theorem callNamed_eq_none {cs : List Segment} {σ : Session}
    (h : ∀ c ∈ cs, c.own.name ≠ name) : callNamed name call cs σ = none := by
  induction cs with
  | nil => rfl
  | cons c cs ih =>
    have other : c.name ≠ name := h c List.mem_cons_self
    rw [callNamed, if_neg other, ih fun c mem => h c (List.mem_cons_of_mem _ mem)]
    rfl

/-- Either some child has a name, and there is a first one, or none has. -/
theorem exists_first_named (name : Text) (cs : List Segment) :
    (∃ before c after, cs = before ++ c :: after ∧ (∀ b ∈ before, b.own.name ≠ name) ∧
      c.own.name = name) ∨ ∀ c ∈ cs, c.own.name ≠ name := by
  induction cs with
  | nil => exact .inr fun c mem => absurd mem List.not_mem_nil
  | cons c cs ih =>
    by_cases here : c.own.name = name
    · exact .inl ⟨[], c, cs, rfl, fun b mem => absurd mem List.not_mem_nil, here⟩
    · rcases ih with ⟨before, d, after, rfl, earlier, named⟩ | none
      · refine .inl ⟨c :: before, d, after, rfl, ?_, named⟩
        intro b mem
        rcases List.mem_cons.1 mem with rfl | mem
        · exact here
        · exact earlier b mem
      · refine .inr fun d mem => ?_
        rcases List.mem_cons.1 mem with rfl | mem
        · exact here
        · exact none d mem

theorem onChild_append {own : Fragment} {before after : List Segment} {c d : Segment}
    {σ τ : Session} {r : Except Error α} (earlier : ∀ b ∈ before, b.own.name ≠ name)
    (named : c.own.name = name) (h : call c σ = (r, d, τ)) :
    onChild name call (.node own (before ++ c :: after)) σ
      = (r, .node own (before ++ d :: after), τ) := by
  rw [onChild, callNamed_append earlier named h]

/-- All that a call on a child can do. -/
theorem onChild_cases {own : Fragment} {cs : List Segment} {σ τ : Session} {t : Segment}
    {r : Except Error α} (h : onChild name call (.node own cs) σ = (r, t, τ)) :
    (∃ before c after d, cs = before ++ c :: after ∧ (∀ b ∈ before, b.own.name ≠ name) ∧
      c.own.name = name ∧ call c σ = (r, d, τ) ∧ t = .node own (before ++ d :: after)) ∨
    ((∀ c ∈ cs, c.own.name ≠ name) ∧ r = .error (.childNotFound own.name name) ∧
      t = .node own cs ∧ τ = σ) := by
  rcases exists_first_named name cs with ⟨before, c, after, rfl, earlier, named⟩ | none
  · rcases done : call c σ with ⟨r', d, τ'⟩
    rw [onChild_append earlier named done] at h
    cases h
    exact .inl ⟨before, c, after, d, rfl, earlier, named, done, rfl⟩
  · rw [onChild, callNamed_eq_none none] at h
    cases h
    exact .inr ⟨none, rfl, rfl, rfl⟩

end OnChild

/-! ## Calls within bounds -/

namespace Within

variable {α β ι : Type} {I : Session → Prop} {E : Error → Prop}

theorem skip (s : Segment) : Within I E Segment.skip s :=
  fun _ h => ⟨h, fun _ failed => by cases failed⟩

theorem andThen {first : Call α} {next : Call β} (hf : ∀ s, Within I E first s)
    (hn : ∀ s, Within I E next s) (s : Segment) : Within I E (andThen first next) s := by
  intro σ h
  have here := hf s σ h
  rcases done : first s σ with ⟨cause | _, t, τ⟩
  · rw [done] at here
    rw [andThen_of_error done]
    refine ⟨here.1, fun other failed => ?_⟩
    cases failed
    exact here.2 cause rfl
  · rw [done] at here
    rw [andThen_of_ok done]
    exact hn t τ here.1

theorem each {call : ι → Call Unit} (h : ∀ i s, Within I E (call i) s) (is : List ι)
    (s : Segment) : Within I E (each call is) s := by
  induction is generalizing s with
  | nil => exact skip s
  | cons i is ih => exact andThen (h i) ih s

theorem onChild {call : Call α} (h : ∀ s, Within I E call s)
    (missing : ∀ scope child, E (.childNotFound scope child)) (name : Text) (s : Segment) :
    Within I E (onChild name call) s := by
  intro σ held
  obtain ⟨own, cs⟩ := s
  rcases done : Segment.onChild name call (.node own cs) σ with ⟨r, t, τ⟩
  rcases onChild_cases done with ⟨before, c, after, d, -, -, -, called, -⟩ | ⟨-, rfl, -, rfl⟩
  · have here := h c σ held
    rw [called] at here
    exact here
  · refine ⟨held, fun cause failed => ?_⟩
    cases failed
    exact missing own.name name

theorem onPath {call : Call α} (h : ∀ s, Within I E call s)
    (missing : ∀ scope child, E (.childNotFound scope child)) (path : List Text) (s : Segment) :
    Within I E (onPath call path) s := by
  induction path generalizing s with
  | nil => exact h s
  | cons name names ih => exact onChild ih missing name s

/-- An edit leaves the session alone. -/
theorem edit {change : Fragment → Session → Except Error Values}
    (h : ∀ own σ, I σ → ∀ cause, change own σ = .error cause → E cause) (s : Segment) :
    Within I E (edit change) s := by
  intro σ held
  obtain ⟨own, cs⟩ := s
  rw [Segment.edit]
  cases changed : change own σ with
  | ok values => exact ⟨held, fun cause failed => by cases failed⟩
  | error cause =>
    refine ⟨held, fun other failed => ?_⟩
    cases failed
    exact h own σ held cause changed

end Within

/-! ## Tame calls -/

/-- A call that succeeded answered so. -/
theorem eq_ok_of_toOption {answer : Except Error Unit × Segment × Session}
    (h : answer.1.toOption = some ()) : answer = (.ok (), answer.2.1, answer.2.2) := by
  obtain ⟨_ | _, s, σ⟩ := answer
  · cases h
  · rfl

/-- A call that leaves the shape of the tree and the detached form of the session as they are, and
that is not kept from succeeding by the session being detached, nor then by values or outputs. -/
structure Tame {α : Type} (call : Call α) : Prop where
  skeleton : ∀ s σ, (call s σ).2.1.skeleton = s.skeleton
  session : ∀ s σ, (call s σ).2.2.detached = σ.detached
  detached : ∀ {s σ a t τ}, call s σ = (.ok a, t, τ) →
    call s σ.detached = (.ok a, t, σ.detached)
  still : ∀ s {σ}, σ.working = none → (call s σ).2.2 = σ
  alike : ∀ {s t s' σ τ a}, σ.working = none → s.skeleton = t.skeleton →
    call s σ = (.ok a, s', τ) → ∃ b t', call t σ = (.ok b, t', σ)

namespace Tame

variable {α β ι : Type}

theorem skeleton_eq {call : Call α} (h : Tame call) {s t : Segment} {σ τ : Session}
    {r : Except Error α} (done : call s σ = (r, t, τ)) : t.skeleton = s.skeleton := by
  have := h.skeleton s σ
  rwa [done] at this

theorem session_eq {call : Call α} (h : Tame call) {s t : Segment} {σ τ : Session}
    {r : Except Error α} (done : call s σ = (r, t, τ)) : τ.detached = σ.detached := by
  have := h.session s σ
  rwa [done] at this

theorem still_eq {call : Call α} (h : Tame call) {s t : Segment} {σ τ : Session}
    {r : Except Error α} (done : call s σ = (r, t, τ)) (none : σ.working = none) : τ = σ := by
  have := h.still s none
  rwa [done] at this

theorem skip : Tame Segment.skip where
  skeleton _ _ := rfl
  session _ _ := rfl
  detached h := by cases h; rfl
  still _ _ _ := rfl
  alike _ _ _ := ⟨(), _, rfl⟩

theorem andThen {first : Call α} {next : Call β} (hf : Tame first) (hn : Tame next) :
    Tame (andThen first next) where
  skeleton s σ := by
    rcases done : first s σ with ⟨_ | _, t, τ⟩
    · rw [andThen_of_error done]
      exact hf.skeleton_eq done
    · rw [andThen_of_ok done, hn.skeleton]
      exact hf.skeleton_eq done
  session s σ := by
    rcases done : first s σ with ⟨_ | _, t, τ⟩
    · rw [andThen_of_error done]
      exact hf.session_eq done
    · rw [andThen_of_ok done, hn.session]
      exact hf.session_eq done
  detached {s σ b u τ} h := by
    rcases done : first s σ with ⟨_ | _, t, τ'⟩
    · rw [andThen_of_error done] at h
      cases h
    · rw [andThen_of_ok done] at h
      have next := hn.detached h
      rw [hf.session_eq done] at next
      rw [andThen_of_ok (hf.detached done), next]
  still s σ none := by
    rcases done : first s σ with ⟨_ | _, t, τ⟩
    · rw [andThen_of_error done]
      exact hf.still_eq done none
    · obtain rfl := hf.still_eq done none
      rw [andThen_of_ok done]
      exact hn.still t none
  alike {s t s' σ τ a} none shape h := by
    rcases done : first s σ with ⟨_ | _, u, υ⟩
    · rw [andThen_of_error done] at h
      cases h
    · obtain rfl := hf.still_eq done none
      rw [andThen_of_ok done] at h
      obtain ⟨b, v, done'⟩ := hf.alike none shape done
      rw [andThen_of_ok done']
      refine hn.alike none ?_ h
      rw [hf.skeleton_eq done, hf.skeleton_eq done', shape]

theorem each {call : ι → Call Unit} (h : ∀ i, Tame (call i)) (is : List ι) :
    Tame (each call is) := by
  induction is with
  | nil => exact skip
  | cons i is ih => exact (h i).andThen ih

theorem onChild {call : Call α} (h : Tame call) (name : Text) : Tame (onChild name call) where
  skeleton s σ := by
    obtain ⟨own, cs⟩ := s
    rcases done : Segment.onChild name call (.node own cs) σ with ⟨r, t, τ⟩
    rcases onChild_cases done with ⟨before, c, after, d, rfl, -, -, called, rfl⟩ | ⟨-, -, rfl, -⟩
    · refine skeleton_node_eq rfl rfl ?_
      rw [List.map_append, List.map_append, List.map_cons, List.map_cons, h.skeleton_eq called]
    · rfl
  session s σ := by
    obtain ⟨own, cs⟩ := s
    rcases done : Segment.onChild name call (.node own cs) σ with ⟨r, t, τ⟩
    rcases onChild_cases done with ⟨before, c, after, d, rfl, -, -, called, rfl⟩ | ⟨-, -, -, rfl⟩
    · exact h.session_eq called
    · rfl
  detached {s σ a t τ} done := by
    obtain ⟨own, cs⟩ := s
    rcases onChild_cases done with
      ⟨before, c, after, d, rfl, earlier, named, called, rfl⟩ | ⟨-, e, -⟩
    · exact onChild_append earlier named (h.detached called)
    · cases e
  still s σ none := by
    obtain ⟨own, cs⟩ := s
    rcases done : Segment.onChild name call (.node own cs) σ with ⟨r, t, τ⟩
    rcases onChild_cases done with ⟨before, c, after, d, rfl, -, -, called, rfl⟩ | ⟨-, -, -, rfl⟩
    · exact h.still_eq called none
    · rfl
  alike {s t s' σ τ a} none shape done := by
    obtain ⟨own, cs⟩ := s
    obtain ⟨own', ds⟩ := t
    rcases onChild_cases done with
      ⟨before, c, after, d, rfl, earlier, named, called, -⟩ | ⟨-, e, -⟩
    · have below : ds.map Segment.skeleton
          = before.map Segment.skeleton ++ c.skeleton :: after.map Segment.skeleton := by
        simpa using congrArg children shape.symm
      -- the call finds the child at the same place
      obtain ⟨before', rest, rfl, earlier', below⟩ := List.map_eq_append_iff.1 below
      obtain ⟨c', after', rfl, shape', -⟩ := List.map_eq_cons_iff.1 below
      obtain ⟨b, d', called'⟩ := h.alike none shape'.symm called
      refine ⟨b, _, onChild_append (fun e mem same => ?_) ?_ called'⟩
      · have mem : e.skeleton ∈ before.map Segment.skeleton := earlier' ▸ List.mem_map_of_mem mem
        obtain ⟨b', mem, twin⟩ := List.mem_map.1 mem
        exact earlier b' mem ((name_eq_of_skeleton_eq twin).trans same)
      · exact (name_eq_of_skeleton_eq shape').trans named
    · cases e

theorem onPath {call : Call α} (h : Tame call) (path : List Text) : Tame (onPath call path) := by
  induction path with
  | nil => exact h
  | cons name names ih => exact ih.onChild name

end Tame

/-- All that an edit can do. -/
theorem edit_cases {change : Fragment → Session → Except Error Values} {own : Fragment}
    {cs : List Segment} {σ τ : Session} {r : Except Error Unit} {t : Segment}
    (h : edit change (.node own cs) σ = (r, t, τ)) :
    τ = σ ∧ ((∃ values, change own σ = .ok values ∧ r = .ok () ∧
        t = .node { own with values } cs) ∨
      ∃ cause, change own σ = .error cause ∧ r = .error cause ∧ t = .node own cs) := by
  rw [edit] at h
  cases changed : change own σ with
  | error cause =>
    rw [changed] at h
    cases h
    exact ⟨rfl, .inr ⟨cause, rfl, rfl, rfl⟩⟩
  | ok values =>
    rw [changed] at h
    cases h
    exact ⟨rfl, .inl ⟨values, rfl, rfl, rfl⟩⟩

/-- An edit is tame if it does not ask for the working copy, and if only the text of the fragment
decides whether it can be done. -/
theorem tame_edit {change : Fragment → Session → Except Error Values}
    (h : ∀ own σ, change own σ.detached = change own σ)
    (works : ∀ {own own' : Fragment} {σ values}, own.source = own'.source →
      change own σ = .ok values → ∃ values', change own' σ = .ok values') : Tame (edit change) where
  skeleton s σ := by
    obtain ⟨own, cs⟩ := s
    rcases done : edit change (.node own cs) σ with ⟨r, t, τ⟩
    obtain ⟨-, ⟨values, -, -, rfl⟩ | ⟨cause, -, -, rfl⟩⟩ := edit_cases done
    · exact skeleton_node_eq rfl rfl rfl
    · rfl
  session s σ := by
    obtain ⟨own, cs⟩ := s
    rcases done : edit change (.node own cs) σ with ⟨r, t, τ⟩
    obtain ⟨rfl, -⟩ := edit_cases done
    rfl
  detached {s σ a t τ} done := by
    obtain ⟨own, cs⟩ := s
    obtain ⟨rfl, ⟨values, changed, -, rfl⟩ | ⟨cause, -, e, -⟩⟩ := edit_cases done
    · rw [edit, h, changed]
    · cases e
  still s σ _ := by
    obtain ⟨own, cs⟩ := s
    rcases done : edit change (.node own cs) σ with ⟨r, t, τ⟩
    exact (edit_cases done).1
  alike {s t s' σ τ a} _ shape done := by
    obtain ⟨own, cs⟩ := s
    obtain ⟨own', ds⟩ := t
    obtain ⟨rfl, ⟨values, changed, -, -⟩ | ⟨cause, -, e, -⟩⟩ := edit_cases done
    · have source : own.source = own'.source := source_eq_of_skeleton_eq shape
      obtain ⟨values', changed'⟩ := works source changed
      refine ⟨(), .node { own' with values := values' } ds, ?_⟩
      rw [edit, changed']
    · cases e

theorem skeleton_mergeChildren {children : List Segment}
    (each : ∀ c ∈ children, ∀ σ, (merge c σ).2.1.skeleton = c.skeleton) (row : Row)
    (σ : Session) :
    (mergeChildren row children σ).2.2.1.map skeleton = children.map skeleton := by
  induction children generalizing row σ with
  | nil => rw [mergeChildren_nil]
  | cons c rest ih =>
    have kept : (settle c σ).2.1.skeleton = c.skeleton := by
      rw [settle]
      split
      · exact each c List.mem_cons_self σ
      · rfl
    rcases settled : settle c σ with ⟨_ | _, d, τ⟩
    · rw [settled] at kept
      rw [mergeChildren_cons_of_error settled]
      simp only [List.map_cons, kept]
    · rw [settled] at kept
      rw [mergeChildren_cons_of_ok settled]
      simp only [List.map_cons, skeleton_drain, kept,
        ih (fun c mem => each c (List.mem_cons_of_mem _ mem))]

theorem skeleton_merge (s : Segment) (σ : Session) : (merge s σ).2.1.skeleton = s.skeleton := by
  induction s using induct generalizing σ with
  | node own children ih =>
    rcases called : merge (.node own children) σ with ⟨r, t, τ⟩
    rcases merge_cases called with ⟨cause, -, -, rfl⟩ | ⟨σ', -, done⟩
    · rfl
    · have below := skeleton_mergeChildren ih own.firstRow σ'
      rcases done with ⟨cause, row, ds, stopped, -, rfl⟩ | ⟨row, ds, finished, -, rfl⟩
      · rw [stopped] at below
        exact skeleton_node_eq rfl rfl below
      · rw [finished] at below
        exact skeleton_node_eq rfl rfl below

theorem tame_merge : Tame merge where
  skeleton := skeleton_merge
  session := detached_merge
  detached h := by rw [eq_merged_of_merge h, merge_of_no_working rfl]
  still s _ none := by rw [merge_of_no_working none]
  alike {s t s' σ τ a} none _ _ := ⟨(), t.merged, merge_of_no_working none t⟩

@[simp] theorem skeleton_merged (s : Segment) : s.merged.skeleton = s.skeleton := by
  have none : (Session.alone Disk.empty).working = none := rfl
  have done := merge_of_no_working none s
  exact tame_merge.skeleton_eq done

@[simp] theorem skeleton_settled (c : Segment) : c.settled.skeleton = c.skeleton := by
  rw [settled]
  split
  · exact skeleton_merged c
  · rfl

end DocumentMerge.Segment
