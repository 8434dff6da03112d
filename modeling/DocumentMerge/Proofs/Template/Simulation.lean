import DocumentMerge.Proofs.Template.Discovery
import DocumentMerge.Proofs.Template.Merging

/-!
# Runs of a segment are runs of its template

`Template.Merging` shows that a merge of a segment does what a merge of its template does.  This
file does the same for the bindings, lifts both from one node to a node given by its path, and from
one call to a run.

* `Binds.put`, `Binds.ignore`: a binding that is made, and one that no item can see.
* `Template.Follows.act`: the step lemma at one node.  A segment refuses to bind a tag that does not
  occur in its text; the template binds any key, but such a key is none of its own.
* `Template.Follows.atPath`: the step lemma at a path.
* `Template.Follows.run`: the run lemma.
* `Template.output_run`: a segment that was built from the text of a sound template has, after any
  run, at every node the output that the template has there.
-/

namespace DocumentMerge

open Region (wrap)
open Segment (Action)
open Session (alone)

/-! ## One binding -/

namespace Binds

variable {σ : Type} {items : Items σ} {bound : Text → Option Text} {b : Bindings}

/-- Binding a key that does not occur below. -/
theorem put (h : Binds items bound b) (plain : items.Plain) {key v : Text} (free : IsBraceless key)
    (below : key ∉ items.keysBelow) (bracketless : '[' ∉ v) :
    Binds items (fun k => if k = key then some v else bound k)
      (b.put (Config.standard.tag key) v) where
  value k mem := by
    rw [Bindings.get?_put]
    by_cases same : k = key
    · rw [if_pos (by rw [same]), if_pos same]
    · have differ : Config.standard.tag k ≠ Config.standard.tag key :=
        fun e => same (tag_injective (plain.keys k mem).isBraceless free e)
      rw [if_neg differ, if_neg same, h.value k mem]
  entry e mem := by
    rcases Keyed.mem_of_mem_insert mem with rfl | mem
    · exact ⟨key, rfl, free, below, bracketless⟩
    · exact h.entry e mem

/-- A key that the node does not have makes no difference. -/
theorem ignore (h : Binds items bound b) {key : Text} (absent : key ∉ items.keys) (v : Text) :
    Binds items (fun k => if k = key then some v else bound k) b where
  value k mem := by
    have differ : k ≠ key := fun e => absent (e ▸ mem)
    rw [if_neg differ, h.value k mem]
  entry := h.entry

end Binds

/-- The tag of a node's key occurs in the text. -/
theorem Items.tag_infix_render {σ : Type} {items : Items σ} {key : Text} (mem : key ∈ items.keys) :
    Config.standard.tag key <:+: items.render := by
  induction items with
  | done => cases mem
  | literal text rest ih => exact (ih mem).trans (List.suffix_append _ _).isInfix
  | tag k rest ih =>
    rcases List.mem_cons.1 mem with rfl | mem
    · exact (List.prefix_append _ _).isInfix
    · exact (ih mem).trans (List.suffix_append _ _).isInfix
  | child name note inner rest _ ih => exact (ih mem).trans (List.suffix_append _ _).isInfix

/-- A key of the node may be bound. -/
theorem Items.declaredIn_wrap {σ : Type} {items : Items σ} {key : Text} (mem : key ∈ items.keys)
    (n : Text) :
    Bindings.declaredIn (Config.standard.tag key) [wrap n items.render] = true := by
  have occurs : Config.standard.tag key <:+: wrap n items.render :=
    (tag_infix_render mem).trans ⟨Region.beginMarker n, Region.endMarker n, rfl⟩
  have found := Text.occursIn_iff.2 occurs
  have filled : (Config.standard.tag key).isEmpty = false := rfl
  simp [Bindings.declaredIn, filled, found]

/-! ## One call -/

variable {disk : Disk}

/-- One action on a node: the segment after it follows the template after it. -/
theorem Template.Follows.act {t : Template Cell} {s : Segment} (h : t.Follows s) (sound : t.Sound)
    {a : Action} (allowed : t.Allows disk [] a) :
    (t.act disk a).Follows (a.call s (alone disk)).2.1 := by
  by_cases merges : a = .merge
  · subst merges
    rw [Action.call, Segment.merge_of_no_working rfl]
    exact h.merge sound
  · obtain ⟨own, cs⟩ := s
    obtain ⟨here, below⟩ := h
    have here : Represents t.name t.note t.items own := here
    rw [act_of_ne_merge merges]
    rcases done : a.call (.node own cs) (alone disk) with ⟨r, u, τ⟩
    obtain ⟨rfl, ⟨key, v, values, stored, -, bound, -, rfl⟩ | ⟨cause, -, rfl, refused⟩⟩ :=
      Action.call_cases merges done
    · have stored : a.stored? disk = some (key, v) := stored
      obtain ⟨bracketless, free, apart⟩ := allowed key v stored t rfl
      rw [stored]
      refine ⟨⟨here.name, here.source, here.output, here.state, ?_, here.pending⟩, below⟩
      show Binds t.items _ values.bindings
      rw [bound]
      exact here.bound.put sound.plain free apart bracketless
    · cases stored : a.stored? disk with
      | none => exact ⟨here, below⟩
      | some entry =>
        obtain ⟨key, v⟩ := entry
        have absent : key ∉ t.items.keys := by
          intro mem
          have declared := Items.declaredIn_wrap mem t.name
          rw [← here.source] at declared
          exact Bool.false_ne_true ((refused key v stored).symm.trans declared)
        exact ⟨⟨here.name, here.source, here.output, here.state, here.bound.ignore absent v,
          here.pending⟩, below⟩

/-! ## A call at a path -/

section Path

variable {σ : Session} {change : Template Cell → Template Cell} {call : Segment.Call Unit}

/-- A call by name and a change by name reach the same child. -/
theorem Items.Follows.atChild {items : Items Cell} {cs : List Segment} (h : items.Follows cs)
    (keeps : ∀ t, (change t).bare = t.bare) {name : Text}
    (each : ∀ t c, items.child? name = some t → t.Follows c →
      (change t).Follows (call c σ).2.1) :
    (Segment.callNamed name call cs σ = none ∧ items.atChild name change = items) ∨
      ∃ r ds τ, Segment.callNamed name call cs σ = some (r, ds, τ) ∧
        (items.atChild name change).Follows ds := by
  induction h with
  | done => exact .inl ⟨rfl, rfl⟩
  | @literal text rest cs _ ih =>
    rcases ih each with ⟨none, same⟩ | ⟨r, ds, τ, called, follows⟩
    · exact .inl ⟨none, by rw [Items.atChild, same]⟩
    · exact .inr ⟨r, ds, τ, called, .literal follows⟩
  | @tag key rest cs _ ih =>
    rcases ih each with ⟨none, same⟩ | ⟨r, ds, τ, called, follows⟩
    · exact .inl ⟨none, by rw [Items.atChild, same]⟩
    · exact .inr ⟨r, ds, τ, called, .tag follows⟩
  | @child n cell inner rest own ds cs here below next _ ih =>
    have named : (Segment.node own ds).name = n := here.name
    by_cases found : n = name
    · have first : (Items.child n cell inner rest).child? name = some ⟨n, cell, inner⟩ :=
        if_pos found
      obtain ⟨here', below'⟩ := each ⟨n, cell, inner⟩ (.node own ds) first ⟨here, below⟩
      have kept : (change ⟨n, cell, inner⟩).name = n :=
        congrArg Template.name (keeps ⟨n, cell, inner⟩)
      rw [kept] at here'
      rcases called : call (.node own ds) σ with ⟨r, ⟨own', ds'⟩, τ⟩
      rw [called] at here' below'
      refine .inr ⟨r, .node own' ds' :: cs, τ, ?_, ?_⟩
      · rw [Segment.callNamed, if_pos (named.trans found), called]
      · rw [Items.atChild, if_pos found]
        exact .child here' below' next
    · have skip : (Items.child n cell inner rest).child? name = rest.child? name := if_neg found
      have other : (Segment.node own ds).name ≠ name := fun e => found (named.symm.trans e)
      rw [skip] at each
      rw [Segment.callNamed, if_neg other, Items.atChild, if_neg found]
      rcases ih each with ⟨none, same⟩ | ⟨r, es, τ, called, follows⟩
      · rw [none, same]
        exact .inl ⟨rfl, rfl⟩
      · rw [called]
        exact .inr ⟨r, .node own ds :: es, τ, rfl, .child here below follows⟩

/-- A call at a path, from the same call at the node to which the path leads. -/
theorem Template.Follows.atPath (keeps : ∀ t, (change t).bare = t.bare) (path : List Text)
    {t : Template Cell} {s : Segment} (h : t.Follows s)
    (each : ∀ node u, t.at? path = some node → node.Follows u →
      (change node).Follows (call u σ).2.1) :
    (t.atPath change path).Follows (Segment.onPath call path s σ).2.1 := by
  induction path generalizing t s with
  | nil => exact each t s rfl h
  | cons name names ih =>
    obtain ⟨own, cs⟩ := s
    obtain ⟨here, below⟩ := h
    have below : t.items.Follows cs := below
    have inside : ∀ u c, t.items.child? name = some u → u.Follows c →
        (u.atPath change names).Follows (Segment.onPath call names c σ).2.1 := by
      intro u c found follows
      refine ih follows fun node v at_ => each node v ?_
      rw [at?, found]
      exact at_
    rw [Segment.onPath, Segment.onChild, Template.atPath]
    rcases below.atChild (bare_atPath keeps names) inside with
      ⟨none, same⟩ | ⟨r, ds, τ, called, follows⟩
    · rw [none, same]
      exact ⟨here, below⟩
    · rw [called]
      exact ⟨here.of_bare_eq (Items.bare_atChild (bare_atPath keeps names) name _), follows⟩

end Path

/-! ## Runs -/

/-- A node of a sound template is sound. -/
theorem Template.Sound.at? {σ : Type} {path : List Text} {t node : Template σ} (h : t.Sound)
    (found : t.at? path = some node) : node.Sound := by
  induction path generalizing t with
  | nil => cases found; exact h
  | cons name names ih =>
    obtain ⟨c, here, found⟩ := Option.bind_eq_some_iff.1 found
    exact ih (h.child here) found

/-- One step at a path: the segment after it follows the template after it. -/
theorem Template.Follows.step {t : Template Cell} {s : Segment} (h : t.Follows s) (sound : t.Sound)
    {path : List Text} {a : Action} (allowed : t.Allows disk path a) :
    (t.atPath (Template.act disk a) path).Follows
      (Segment.onPath a.call path s (alone disk)).2.1 := by
  refine h.atPath (bare_act disk a) path fun node u found follows => ?_
  refine follows.act (sound.at? found) fun key v stored node' e => ?_
  cases e
  exact allowed key v stored node found

/-- A run of the segment follows the run of the template, step by step. -/
theorem Template.Follows.run {t : Template Cell} {s : Segment} (h : t.Follows s) (sound : t.Sound)
    {steps : List (List Text × Action)}
    (allowed : ∀ step ∈ steps, t.Allows disk step.1 step.2) :
    (t.run disk steps).Follows (Segment.run steps s (alone disk)).1 := by
  induction steps generalizing t s with
  | nil => exact h
  | cons step steps ih =>
    obtain ⟨path, a⟩ := step
    have first := h.step sound (allowed (path, a) List.mem_cons_self)
    have same : (t.atPath (Template.act disk a) path).bare = t.bare :=
      bare_atPath (bare_act disk a) path t
    rcases called : Segment.onPath a.call path s (alone disk) with ⟨r, s', τ⟩
    obtain rfl := ((Segment.tame_call a).onPath path).still_eq called rfl
    rw [called] at first
    rw [Segment.run, called]
    exact ih first (sound.of_bare_eq same) fun step mem =>
      (allowed step (List.mem_cons_of_mem _ mem)).of_bare_eq same

/-- A fragment to which nothing has happened stands for a node that nobody has used yet. -/
theorem Represents.fresh (n : Text) (items : Items Unit) :
    Represents n Cell.fresh items.fresh (Fragment.ofRegion n (wrap n items.render)) where
  name := rfl
  source := by
    rw [← Items.render_bare items.fresh, Items.bare_fresh]
    rfl
  output := rfl
  state := rfl
  bound := ⟨fun _ _ => rfl, fun _ mem => absurd mem List.not_mem_nil⟩
  pending := by
    intro rows e
    cases e

/-- The segments that discovery builds follow their template. -/
theorem Items.follows_fresh (items : Items Unit) : items.fresh.Follows items.segments := by
  induction items with
  | done => exact .done
  | literal text rest ih => exact .literal ih
  | tag key rest ih => exact .tag ih
  | child name note inner rest ihi ihr => exact .child (Represents.fresh name inner) ihi ihr

/-- Segment and template lead to the same nodes. -/
theorem Items.Follows.child? {items : Items Cell} {cs : List Segment} (h : items.Follows cs)
    (name : Text) :
    (items.child? name = none ∧ (cs.find? fun c => c.name == name) = none) ∨
      ∃ t c, items.child? name = some t ∧ (cs.find? fun c => c.name == name) = some c ∧
        t.Follows c := by
  induction h with
  | done => exact .inl ⟨rfl, rfl⟩
  | literal _ ih => exact ih
  | tag _ ih => exact ih
  | @child n cell inner rest own ds cs here below _ _ ih =>
    have named : (Segment.node own ds).name = n := here.name
    by_cases found : n = name
    · refine .inr ⟨⟨n, cell, inner⟩, .node own ds, if_pos found, ?_, here, below⟩
      rw [List.find?_cons_of_pos (by rw [named, found, beq_self_eq_true])]
    · rw [Items.child?, if_neg found, List.find?_cons_of_neg (by rw [named]; simpa using found)]
      exact ih

/-- A path leads nowhere in both, or to a node and the segment that follows it. -/
theorem Template.Follows.cases_at? (path : List Text) {t : Template Cell} {s : Segment}
    (h : t.Follows s) :
    (t.at? path = none ∧ s.at? path = none) ∨
      ∃ node u, t.at? path = some node ∧ s.at? path = some u ∧ node.Follows u := by
  induction path generalizing t s with
  | nil => exact .inr ⟨t, s, rfl, rfl, h⟩
  | cons name names ih =>
    rw [Segment.at?, Template.at?, Segment.child?]
    rcases h.2.child? name with ⟨none, none'⟩ | ⟨u, c, found, found', follows⟩
    · rw [none, none']
      exact .inl ⟨rfl, rfl⟩
    · rw [found, found']
      exact ih follows

theorem Template.Follows.at? (path : List Text) {t : Template Cell} {s : Segment}
    (h : t.Follows s) :
    (s.at? path).map (fun u => u.own.output) = (t.at? path).map fun node => node.note.output := by
  rcases h.cases_at? path with ⟨none, none'⟩ | ⟨node, u, found, found', follows⟩
  · rw [none, none']
    rfl
  · rw [found, found']
    exact congrArg some follows.1.output

/-- A template that nobody has used is followed by the segments that discovery builds of it. -/
theorem Template.follows_fresh (t : Template Unit) :
    t.fresh.Follows (.node (Fragment.ofRegion t.name t.render) t.items.segments) :=
  ⟨Represents.fresh t.name t.items, Items.follows_fresh t.items⟩

theorem Template.Sound.fresh {t : Template Unit} (h : t.Sound) : t.fresh.Sound :=
  sound_bare.1 (by rw [bare_fresh]; exact h)

theorem Template.Allows.fresh {t : Template Unit} {path : List Text} {a : Action}
    (h : t.Allows disk path a) : t.fresh.Allows disk path a :=
  allows_bare.1 (by rw [bare_fresh]; exact h)

namespace Template

/-- **Segments mean what their templates say.**  A sound template that is not too high is found in
its own text, and whatever is then done with its segments, at every node the output is that of the
template: one pass over the items for every merge. -/
theorem output_run (t : Template Unit) (disk : Disk) (steps : List (List Text × Action))
    (sound : t.Sound) (height : t.items.height ≤ Segment.depthLimit)
    (allowed : ∀ step ∈ steps, t.Allows disk step.1 step.2) :
    ∃ s, Segment.ofRegion t.name t.render = .ok s ∧
      ∀ path, ((Segment.run steps s (alone disk)).1.at? path).map (fun u => u.own.output) =
        ((t.fresh.run disk steps).at? path).map fun node => node.note.output := by
  refine ⟨.node (Fragment.ofRegion t.name t.render) t.items.segments, ?_, fun path => ?_⟩
  · exact Items.parse_render sound.plain sound.isName sound.distinct height
  · exact ((follows_fresh t).run sound.fresh fun step mem => (allowed step mem).fresh).at? path

/-- Two rows wait in the child when its parent is merged for the first time and none when it is
merged for the second time; the key of the parent has no value. -/
theorem output_run_two_rows :
    let inner : Items Unit := .tag "x".toList .done
    let items : Items Unit :=
      .literal "<".toList (.tag "k".toList (.child "c".toList () inner (.literal ">".toList .done)))
    let steps : List (List Text × Action) :=
      [(["c".toList], .bind "x".toList "1".toList true), (["c".toList], .merge),
        (["c".toList], .bind "x".toList "2".toList true), (["c".toList], .merge),
        ([], .merge), ([], .merge)]
    ∃ s, Segment.ofRegion "s".toList (Template.render ⟨"s".toList, (), items⟩) = .ok s ∧
      (Segment.run steps s (alone Disk.empty)).1.own.output
        = "<\x7bk\x7d12><\x7bk\x7d2>".toList := by
  intro inner items steps
  have sound : Template.Sound ⟨"s".toList, (), items⟩ :=
    { name := ⟨⟨by decide, by decide, by decide⟩, List.forall_mem_singleton.2 rfl⟩
      plain := ⟨⟨by decide, by decide, by decide⟩, ⟨by decide, by decide, by decide⟩,
        ⟨⟨by decide, by decide, by decide⟩, List.forall_mem_singleton.2 rfl⟩,
        ⟨⟨by decide, by decide, by decide⟩, trivial⟩, ⟨by decide, by decide, by decide⟩, trivial⟩
      distinct := by decide }
  have allowed : ∀ step ∈ steps,
      Template.Allows Disk.empty step.1 step.2 ⟨"s".toList, (), items⟩ := by
    intro step mem key value stored node found
    simp only [steps, List.mem_cons, List.not_mem_nil, or_false] at mem
    rcases mem with rfl | rfl | rfl | rfl | rfl | rfl <;> cases stored <;> cases found <;> decide
  obtain ⟨s, built, outputs⟩ := output_run ⟨"s".toList, (), items⟩ Disk.empty steps sound
    (by decide) allowed
  exact ⟨s, built, Option.some.inj (outputs [])⟩

end Template

end DocumentMerge
