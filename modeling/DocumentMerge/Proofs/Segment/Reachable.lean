import DocumentMerge.Proofs.Region.Unwrapping
import DocumentMerge.Proofs.Segment.Actions
import DocumentMerge.Segment.Discovery
import Mathlib.Data.List.Forall2

/-!
# Reachable segments

A segment is reachable when it, or a segment above it, was built from a text and since then only
the calls of a user were made on nodes of the tree: bindings of the three kinds and merges, in any
order, on any nodes, in any sessions, and also those that failed.

No call changes the shape of a tree, so what discovery guarantees about the shape holds of every
reachable segment.  The guarantee is `Sound`: at every node the children have different names, so a
name leads to one child, and the text of every child begins and ends with a bracket, so it can be
searched for and no piece without brackets is confused with it.

* `run` and `Reachable` say which segments are meant.
* `of_at?`: what is inherited from parent to child is inherited along a path.  `keeps_onPath`: what a call
  keeps at a node, it keeps in the tree around the node.
* `standsIn_of_mem_childRegions`: the regions that become children stand in the text of the segment and
  have other names than the segment.
* `parse_induct`: the induction over what discovery builds; `sound_of_parse`: it is sound.
* `Reachable.sound`: every reachable segment is sound.
* `Reachable.tidy`: in a reachable segment, a node in which nothing waits has no output.  Calls do
  change the state, so this is an invariant with a step lemma for each call, failing ones included.
-/

namespace DocumentMerge.Segment

/-! ## Shapes that discovery can build -/

/-- At every node the children have different names, and texts between brackets. -/
inductive Sound : Segment → Prop
  | node {own : Fragment} {children : List Segment} :
    (children.map fun c => c.own.name).Nodup →
    (∀ c ∈ children, c.own.source.Framed) →
    (∀ c ∈ children, Sound c) → Sound (.node own children)

namespace Sound

variable {s c : Segment}

theorem names (h : Sound s) : (s.children.map fun c => c.own.name).Nodup := by
  cases h
  assumption

theorem framed (h : Sound s) (mem : c ∈ s.children) : c.own.source.Framed := by
  cases h with
  | node _ sources _ => exact sources c mem

theorem source_ne_nil (h : Sound s) (mem : c ∈ s.children) : c.own.source ≠ [] :=
  (h.framed mem).ne_nil

theorem child (h : Sound s) (mem : c ∈ s.children) : Sound c := by
  cases h with
  | node _ _ below => exact below c mem

/-- Soundness is a matter of shape. -/
theorem of_skeleton {t : Segment} (h : Sound s) (same : t.skeleton = s.skeleton) : Sound t := by
  induction s using induct generalizing t with
  | node own cs ih =>
    obtain ⟨own', ds⟩ := t
    have below : ds.map skeleton = cs.map skeleton := by
      have := congrArg children same
      simpa using this
    have named : ds.map (fun d => d.own.name) = cs.map fun c => c.own.name := by
      have := congrArg (List.map fun c => c.own.name) below
      simpa [List.map_map, Function.comp_def] using this
    have origin {d : Segment} (mem : d ∈ ds) : ∃ c ∈ cs, d.skeleton = c.skeleton := by
      have mem : d.skeleton ∈ cs.map skeleton := below ▸ List.mem_map_of_mem mem
      obtain ⟨c, mem, e⟩ := List.mem_map.1 mem
      exact ⟨c, mem, e.symm⟩
    refine .node (named ▸ h.names) (fun d mem => ?_) fun d mem => ?_
    · obtain ⟨c, memc, e⟩ := origin mem
      rw [source_eq_of_skeleton_eq e]
      exact h.framed memc
    · obtain ⟨c, memc, e⟩ := origin mem
      exact ih c memc (h.child memc) e

end Sound

/-- The regions that are kept have different names. -/
theorem nodup_firstOfName (regions : List Region) :
    ((firstOfName regions).map Region.name).Nodup := by
  induction regions with
  | nil => exact List.nodup_nil
  | cons r rs ih =>
    rw [firstOfName, List.map_cons, List.nodup_cons]
    constructor
    · rw [List.mem_map]
      rintro ⟨q, mem, same⟩
      have := (List.mem_filter.1 mem).2
      rw [same] at this
      simp at this
    · exact ih.sublist (List.filter_sublist.map _)

theorem mem_of_mem_firstOfName {regions : List Region} {r : Region}
    (h : r ∈ firstOfName regions) : r ∈ regions := by
  induction regions with
  | nil => exact h
  | cons q rs ih =>
    rw [firstOfName] at h
    rcases List.mem_cons.1 h with rfl | h
    · exact List.mem_cons_self
    · exact List.mem_cons_of_mem _ (ih (List.mem_filter.1 h).1)

/-- The regions inside of a segment stand in its text, also those that stand in a region with the name
of the segment, and none has that name. -/
theorem standsIn_of_mem_innerRegions {scope xml : Text} {r : Region}
    (h : r ∈ innerRegions scope xml) :
    r.name ≠ scope ∧ ∃ before after, r.StandsIn xml before after := by
  rw [innerRegions, List.mem_flatMap] at h
  obtain ⟨⟨l, found⟩, -, h⟩ := h
  obtain ⟨before, after, stands⟩ := Region.standsIn_of_mem_all found
  simp only at h
  split at h
  · have := Region.length_inner_lt found
    obtain ⟨differ, before', after', inside⟩ := standsIn_of_mem_innerRegions h
    exact ⟨differ, _, _, stands.region.nested inside⟩
  · next differ =>
    rw [List.mem_singleton] at h
    subst h
    exact ⟨differ, before, after, stands.region⟩
termination_by xml.length

theorem standsIn_of_mem_childRegions {name source : Text} {r : Region}
    (h : r ∈ childRegions name source) :
    r.name ≠ name ∧ ∃ before after, r.StandsIn source before after :=
  standsIn_of_mem_innerRegions (mem_of_mem_firstOfName h)

/-- A list of answers is the list of the answers to each item. -/
theorem forall₂_of_mapM {α β ε : Type} {f : α → Except ε β} {as : List α} {bs : List β}
    (h : as.mapM f = .ok bs) : List.Forall₂ (fun a b => f a = .ok b) as bs := by
  induction as generalizing bs with
  | nil =>
    cases h
    exact .nil
  | cons a as ih =>
    rw [List.mapM_cons] at h
    cases head : f a with
    | error cause => rw [head] at h; cases h
    | ok b =>
      cases tail : as.mapM f with
      | error cause => rw [head, tail] at h; cases h
      | ok bs' =>
        rw [head, tail] at h
        cases h
        exact .cons head (ih tail)

theorem exists_of_mem_of_forall₂ {α β : Type} {R : α → β → Prop} {as : List α} {bs : List β}
    (h : List.Forall₂ R as bs) {b : β} (mem : b ∈ bs) : ∃ a ∈ as, R a b := by
  obtain ⟨i, at_, rfl⟩ := List.getElem_of_mem mem
  have bound : i < as.length := h.length_eq ▸ at_
  exact ⟨as[i], List.getElem_mem bound, h.get bound at_⟩

/-- All that discovery can build: a node with one child for every region, in order, for which fewer
levels of children were allowed. -/
theorem parse_cases {name source : Text} {room : Nat} {s : Segment}
    (h : parse name source room = .ok s) :
    ∃ cs, s = .node (Fragment.ofRegion name source) cs ∧
      List.Forall₂ (fun r c => ∃ lower < room, parse r.name r.outer lower = .ok c)
        (childRegions name source) cs := by
  cases room with
  | zero =>
    rw [parse] at h
    split at h
    · next none =>
      cases h
      exact ⟨[], rfl, none ▸ .nil⟩
    · cases h
  | succ room =>
    rw [parse] at h
    cases built : (childRegions name source).mapM fun r => parse r.name r.outer room with
    | error cause => rw [built] at h; cases h
    | ok cs =>
      rw [built] at h
      cases h
      exact ⟨cs, rfl, (forall₂_of_mapM built).imp fun r c parsed =>
        ⟨room, Nat.lt_succ_self room, parsed⟩⟩

/-- Induction over what discovery builds: a node may assume the statement of its children, which
stand for the regions of its text. -/
theorem parse_induct {P : Segment → Prop}
    (node : ∀ name source cs,
      List.Forall₂ (fun r c => c.own = Fragment.ofRegion r.name r.outer)
        (childRegions name source) cs →
      (∀ c ∈ cs, P c) → P (.node (Fragment.ofRegion name source) cs))
    {name source : Text} {room : Nat} {s : Segment} (h : parse name source room = .ok s) : P s := by
  obtain ⟨cs, rfl, built⟩ := parse_cases h
  refine node name source cs (built.imp fun r c parsed => ?_) fun c mem => ?_
  · obtain ⟨_, -, parsed⟩ := parsed
    obtain ⟨_, rfl, -⟩ := parse_cases parsed
    rfl
  · obtain ⟨r, -, lower, less, parsed⟩ := exists_of_mem_of_forall₂ built mem
    exact parse_induct node parsed
termination_by room

/-- The children have the names of the regions they stand for. -/
theorem map_name_of_forall₂ {rs : List Region} {cs : List Segment}
    (h : List.Forall₂ (fun r c => c.own = Fragment.ofRegion r.name r.outer) rs cs) :
    cs.map (fun c => c.own.name) = rs.map Region.name := by
  induction h with
  | nil => rfl
  | cons own _ ih =>
    rw [List.map_cons, List.map_cons, ih, own]
    rfl

/-- What discovery builds is sound. -/
theorem sound_of_parse {name source : Text} {room : Nat} {s : Segment}
    (h : parse name source room = .ok s) : Sound s := by
  refine parse_induct (fun name source cs regions below => ?_) h
  refine .node (map_name_of_forall₂ regions ▸ nodup_firstOfName _) (fun c mem => ?_) below
  obtain ⟨r, memr, own⟩ := exists_of_mem_of_forall₂ regions mem
  obtain ⟨-, _, _, stands⟩ := standsIn_of_mem_childRegions memr
  rw [own]
  exact stands.framed

/-! ## What a user can do -/

/-- Makes calls on nodes given by their paths, one after the other, whatever they answer. -/
def run : List (List Text × Action) → Segment → Session → Segment × Session
  | [], s, σ => (s, σ)
  | (path, a) :: steps, s, σ =>
    let (_, s, σ) := onPath a.call path s σ
    run steps s σ

/-- The node to which a path of names leads. -/
def at? : List Text → Segment → Option Segment
  | [], s => some s
  | name :: names, s => (s.child? name).bind (at? names)

/-- What children have from their parents, every node has from the tree. -/
theorem of_at? {P : Segment → Prop} (child : ∀ s, P s → ∀ c ∈ s.children, P c) {path : List Text}
    {s n : Segment} (h : P s) (found : at? path s = some n) : P n := by
  induction path generalizing s with
  | nil =>
    cases found
    exact h
  | cons name names ih =>
    obtain ⟨c, first, below⟩ := Option.bind_eq_some_iff.1 found
    exact ih (child s h c (List.mem_of_find?_eq_some first)) below

/-- The child of a name is the first one that has it. -/
theorem child?_of_first {own : Fragment} {before after : List Segment} {c : Segment} {name : Text}
    (earlier : ∀ b ∈ before, b.own.name ≠ name) (named : c.own.name = name) :
    child? (.node own (before ++ c :: after)) name = some c := by
  refine List.find?_eq_some_iff_append.2 ⟨?_, before, after, rfl, fun b mem => ?_⟩
  · simpa [Segment.name] using named
  · simpa [Segment.name] using earlier b mem

/-- One of several segments is exchanged for another one. -/
theorem forall_mem_exchange {P : Segment → Prop} {before after : List Segment} {c d : Segment}
    (h : ∀ e ∈ before ++ c :: after, P e) (here : P d) : ∀ e ∈ before ++ d :: after, P e := by
  intro e mem
  rcases List.mem_append.1 mem with mem | mem
  · exact h e (List.mem_append_left _ mem)
  · rcases List.mem_cons.1 mem with rfl | mem
    · exact here
    · exact h e (List.mem_append_right _ (List.mem_cons_of_mem _ mem))

/-- A call by a path keeps what all children have, and what stays when one child is exchanged, if it keeps
it at the node to which the path leads. -/
theorem keeps_onPath {P : Segment → Prop} (child : ∀ s, P s → ∀ c ∈ s.children, P c)
    (exchange : ∀ own before c d after, P (.node own (before ++ c :: after)) → P d →
      P (.node own (before ++ d :: after)))
    {a : Action} {path : List Text} {s : Segment} (h : P s) {σ : Session}
    (there : ∀ n, at? path s = some n → P n → P (a.call n σ).2.1) :
    P (onPath a.call path s σ).2.1 := by
  induction path generalizing s with
  | nil => exact there s rfl h
  | cons name names ih =>
    obtain ⟨own, cs⟩ := s
    rcases done : onPath a.call (name :: names) (.node own cs) σ with ⟨r, t, τ⟩
    rcases onChild_cases done with ⟨before, c, after, d, rfl, earlier, named, called, rfl⟩ |
      ⟨-, -, rfl, -⟩
    · have changed := ih (child _ h c (by simp)) fun n found => there n (by
        rw [at?, child?_of_first earlier named]
        exact found)
      rw [called] at changed
      exact exchange own before c d after h changed
    · exact h

/-- A segment of a tree that was built from a text and then used, by any calls on any nodes. -/
inductive Reachable : Segment → Prop
  | parsed {name source : Text} {room : Nat} {s : Segment} :
    parse name source room = .ok s → Reachable s
  | called {s t : Segment} {σ τ : Session} {r : Except Error Unit} (path : List Text) (a : Action) :
    Reachable s → onPath a.call path s σ = (r, t, τ) → Reachable t
  | child {s c : Segment} : Reachable s → c ∈ s.children → Reachable c

/-- Whatever is done with a segment, it stays reachable. -/
theorem Reachable.run (steps : List (List Text × Action)) {s : Segment} (h : Reachable s)
    (σ : Session) : Reachable (run steps s σ).1 := by
  induction steps generalizing s σ with
  | nil => exact h
  | cons step steps ih =>
    obtain ⟨path, a⟩ := step
    rcases done : onPath a.call path s σ with ⟨r, t, τ⟩
    rw [Segment.run, done]
    exact ih (h.called path a done) τ

/-- The segment of a text after some calls that were made without a document. -/
def used (name source : Text) (steps : List (List Text × Action)) : Segment :=
  (run steps ((ofRegion name source).toOption.getD default) (Session.alone Disk.empty)).1

theorem ofRegion_eq_ok_used {name source : Text}
    (built : (ofRegion name source).toOption.isSome = true) :
    ofRegion name source = .ok (used name source []) := by
  rw [used]
  cases parsed : ofRegion name source with
  | error cause =>
    rw [parsed] at built
    cases built
  | ok s => rfl

theorem reachable_used {name source : Text} (built : (ofRegion name source).toOption.isSome = true)
    (steps : List (List Text × Action)) : Reachable (used name source steps) := by
  have parsed := ofRegion_eq_ok_used built
  rw [used, parsed]
  exact (Reachable.parsed parsed).run steps _

/-- Every reachable segment is sound. -/
theorem Reachable.sound {s : Segment} (h : Reachable s) : Sound s := by
  induction h with
  | parsed built => exact sound_of_parse built
  | called path a _ done ih => exact ih.of_skeleton (((tame_call a).onPath path).skeleton_eq done)
  | child _ mem ih => exact ih.child mem

/-! ## Drained segments -/

/-- No node has output if nothing waits in it. -/
inductive Tidy : Segment → Prop
  | node {own : Fragment} {children : List Segment} : (own.state = .drained → own.output = []) →
    (∀ c ∈ children, Tidy c) → Tidy (.node own children)

namespace Tidy

variable {s c : Segment}

theorem output_eq_nil (h : Tidy s) (drained : s.own.state = .drained) : s.own.output = [] := by
  cases h with
  | node here _ => exact here drained

theorem child (h : Tidy s) (mem : c ∈ s.children) : Tidy c := by
  cases h with
  | node _ below => exact below c mem

theorem drain (h : Tidy s) : Tidy s.drain := by
  cases h with
  | node _ below => exact .node (fun _ => rfl) below

/-- Putting children into a row keeps them tidy if merging them does. -/
theorem mergeChildren {children : List Segment} (tidy : ∀ c ∈ children, Tidy c)
    (each : ∀ c ∈ children, ∀ σ, Tidy (Segment.merge c σ).2.1) (row : Row) (σ : Session) :
    ∀ d ∈ (Segment.mergeChildren row children σ).2.2.1, Tidy d := by
  induction children generalizing row σ with
  | nil =>
    rw [mergeChildren_nil]
    exact tidy
  | cons c rest ih =>
    have here : Tidy (settle c σ).2.1 := by
      rw [settle]
      split
      · exact each c List.mem_cons_self σ
      · exact tidy c List.mem_cons_self
    have later := ih (fun c mem => tidy c (List.mem_cons_of_mem _ mem))
      fun c mem => each c (List.mem_cons_of_mem _ mem)
    rcases settled : settle c σ with ⟨_ | _, d, τ⟩
    · rw [settled] at here
      rw [mergeChildren_cons_of_error settled]
      intro e mem
      rcases List.mem_cons.1 mem with rfl | mem
      · exact here
      · exact tidy e (List.mem_cons_of_mem _ mem)
    · rw [settled] at here
      rw [mergeChildren_cons_of_ok settled]
      intro e mem
      rcases List.mem_cons.1 mem with rfl | mem
      · exact here.drain
      · exact later _ _ e mem

theorem merge (h : Tidy s) (σ : Session) : Tidy (Segment.merge s σ).2.1 := by
  induction s using induct generalizing σ with
  | node own children ih =>
    rcases called : Segment.merge (.node own children) σ with ⟨r, t, τ⟩
    rcases merge_cases called with ⟨cause, -, -, rfl⟩ | ⟨σ', -, done⟩
    · exact h
    · have tidy : ∀ c ∈ children, Tidy c := fun c mem => h.child mem
      have below := mergeChildren tidy (fun c mem => ih c mem (tidy c mem)) own.firstRow σ'
      rcases done with ⟨cause, row, ds, stopped, -, rfl⟩ | ⟨row, ds, finished, -, rfl⟩
      · rw [stopped] at below
        exact .node h.output_eq_nil below
      · rw [finished] at below
        exact .node (fun drained => MergeState.noConfusion drained) below

theorem call (h : Tidy s) (a : Action) (σ : Session) : Tidy (a.call s σ).2.1 := by
  by_cases merges : a = .merge
  · subst merges
    exact h.merge σ
  · obtain ⟨own, cs⟩ := s
    rcases done : a.call (.node own cs) σ with ⟨r, t, τ⟩
    obtain ⟨-, ⟨key, v, values, -, -, -, -, rfl⟩ | ⟨cause, -, rfl, -⟩⟩ :=
      Action.call_cases merges done
    · exact .node h.output_eq_nil fun c mem => h.child mem
    · exact h

theorem onPath (h : Tidy s) (a : Action) (path : List Text) (σ : Session) :
    Tidy (Segment.onPath a.call path s σ).2.1 := by
  refine keeps_onPath (fun _ h _ mem => h.child mem) (fun own before c d after h here => ?_) h
    fun n _ tidy => tidy.call a σ
  exact .node h.output_eq_nil (forall_mem_exchange (fun e mem => h.child mem) here)

end Tidy

/-- Every reachable segment is tidy. -/
theorem Reachable.tidy {s : Segment} (h : Reachable s) : Tidy s := by
  induction h with
  | parsed built => exact parse_induct (fun _ _ _ _ below => .node (fun _ => rfl) below) built
  | @called s t σ τ r path a _ done ih =>
    have := ih.onPath a path σ
    rwa [done] at this
  | child _ mem ih => exact ih.child mem

end DocumentMerge.Segment
