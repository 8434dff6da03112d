import DocumentMerge.Proofs.Segment.Clearing
import DocumentMerge.Proofs.Template.Simulation

/-!
# The segments of a template are arranged

`Segment.Clearing` asks that merges be made on arranged nodes, and what that takes is said there about
texts after substitution.  Here it is read off the template.  The names of a sound template are
different, and its texts, names and keys hold no bracket.  If no bound value holds one either, then the
text that a merge of any node begins with is put together as it must be, whatever was done before.

* `Items.Follows.pieced`: a filled text is made of text without brackets and of the children's texts.
* `Items.Follows.pairwise_absent`: the children have different names, so the text of none begins in that
  of another one.
* `Template.Follows.arranged`: a segment that follows a sound template is arranged.
* `Template.Follows.mergesArranged`: so all merges of a run are made on arranged nodes.
* `Template.arranged_run`: and this is so for a run of the segment that is built from the template's text.
-/

namespace DocumentMerge

open Region (IsName LaidOut Marked Pieced wrap)
open Segment (Action Arranged MergesArranged)
open Session (alone)
open Text (Absent)

/-- The text of a region begins nowhere among markers of other names. -/
theorem Region.Marked.absent_wrap {ms : List Text} {t n : Text} (h : Marked ms t)
    (names : ∀ m ∈ ms, IsName m) (other : n ∉ ms) (named : IsName n) (inner : Text) :
    Absent (wrap n inner) t :=
  (h.absent_opening names other (Region.isOpening_beginMarker named.spaceless)).longer
    ⟨inner ++ Region.endMarker n, by rw [wrap, List.append_assoc]⟩

/-! ## The text that a merge begins with -/

namespace Items.Follows

variable {items : Items Cell} {cs : List Segment} {ns : List Text}

/-- A filled text is made of text without brackets and of the children's texts. -/
theorem pieced (h : items.Follows cs) (plain : items.Plain) {bound : Text → Option Text}
    (values : Bracketless bound items.keys) {texts : List Text}
    (given : ∀ c ∈ cs, c.own.source ∈ texts) : Pieced ns texts (items.filled bound) := by
  have bare {t : Text} (free : '[' ∉ t) : Pieced ns texts t := .plain (Region.plain_of_notMem free)
  induction h with
  | done => exact bare List.not_mem_nil
  | literal _ ih => exact .append (bare plain.1.bracket) (ih plain.2 values given)
  | tag _ ih =>
    refine .append (bare (values.getD List.mem_cons_self plain.1)) (ih plain.2 ?_ given)
    exact fun key mem => values key (List.mem_cons_of_mem _ mem)
  | child here _ _ _ ih =>
    refine .append (.given ?_) (ih plain.2.2 values fun c mem => given c (List.mem_cons_of_mem _ mem))
    exact here.source ▸ given _ List.mem_cons_self

/-- The markers in the texts of the children are of names below the node. -/
theorem marked_source (h : items.Follows cs) (plain : items.Plain) :
    ∀ c ∈ cs, Marked items.names c.own.source := by
  induction h with
  | done => exact fun c mem => absurd mem List.not_mem_nil
  | literal _ ih => exact ih plain.2
  | tag _ ih => exact ih plain.2
  | child here _ _ _ ih =>
    intro c mem
    rcases List.mem_cons.1 mem with rfl | mem
    · rw [Segment.own_node, here.source]
      refine .inside List.mem_cons_self (plain.2.1.marked.mono ?_)
      exact fun m below => List.mem_cons_of_mem _ (List.mem_append_left _ below)
    · refine (ih plain.2.2 c mem).mono ?_
      exact fun m below => List.mem_cons_of_mem _ (List.mem_append_right _ below)

/-- The text of a child begins in that of no later one. -/
theorem pairwise_absent (h : items.Follows cs) (plain : items.Plain)
    (distinct : items.names.Nodup) :
    cs.Pairwise fun c d => Absent c.own.source d.own.source := by
  induction h with
  | done => exact .nil
  | literal _ ih => exact ih plain.2 distinct
  | tag _ ih => exact ih plain.2 distinct
  | child here _ next _ ih =>
    obtain ⟨plainName, -, plainRest⟩ := plain
    rw [names, List.nodup_cons, List.mem_append, not_or] at distinct
    obtain ⟨⟨-, other⟩, distinct⟩ := distinct
    refine .cons (fun d mem => ?_) (ih plainRest (List.nodup_append.1 distinct).2.1)
    rw [Segment.own_node, here.source]
    exact (next.marked_source plainRest d mem).absent_wrap plainRest.isName other
      (plainName.1.isName plainName.2) _

end Items.Follows

/-- A node is arranged if its children are. -/
theorem Represents.arranged {n : Text} {cell : Cell} {items : Items Cell} {own : Fragment}
    {cs : List Segment} {ns : List Text} (here : Represents n cell items own)
    (below : items.Follows cs) (name : IsPlain n) (named : IsName n) (plain : items.Plain)
    (distinct : items.names.Nodup) (each : ∀ c ∈ cs, Arranged ns c) :
    Arranged ns (.node own cs) := by
  refine .node ?_ (below.pairwise_absent plain distinct) fun c mem _ => each c mem
  rw [here.name, here.source, here.bound.apply_wrap plain name]
  refine Region.laidOut_wrap named.spaceless (below.pieced plain here.bracketless fun c mem => ?_)
  exact List.mem_map_of_mem mem

theorem Items.Follows.arranged {items : Items Cell} {cs : List Segment} {ns : List Text}
    (h : items.Follows cs) (plain : items.Plain) (distinct : items.names.Nodup) :
    ∀ c ∈ cs, Arranged ns c := by
  induction h with
  | done => exact fun c mem => absurd mem List.not_mem_nil
  | literal _ ih => exact ih plain.2 distinct
  | tag _ ih => exact ih plain.2 distinct
  | child here below _ ihi ihr =>
    obtain ⟨plainName, plainInner, plainRest⟩ := plain
    obtain ⟨distinctInner, distinctRest, -⟩ := List.nodup_append.1 distinct.of_cons
    intro c mem
    rcases List.mem_cons.1 mem with rfl | mem
    · exact here.arranged below plainName.1 (plainName.1.isName plainName.2) plainInner distinctInner
        (ihi plainInner distinctInner)
    · exact ihr plainRest distinctRest c mem

/-! ## Runs -/

namespace Template

variable {t : Template Cell} {s : Segment} {ns : List Text} {disk : Disk}

/-- A segment that follows a sound template is arranged. -/
theorem Follows.arranged (h : t.Follows s) (sound : t.Sound) : Arranged ns s := by
  obtain ⟨own, cs⟩ := s
  obtain ⟨here, below⟩ := h
  exact here.arranged below sound.name.1 sound.isName sound.plain sound.distinct.of_cons
    (below.arranged sound.plain sound.distinct.of_cons)

/-- And so is every node below it. -/
theorem Follows.arranged_at? (h : t.Follows s) (sound : t.Sound) {path : List Text} {n : Segment}
    (found : s.at? path = some n) : Arranged ns n := by
  rcases h.cases_at? path with ⟨-, none⟩ | ⟨node, u, at_, at_', follows⟩
  · rw [none] at found
    cases found
  · obtain rfl : u = n := Option.some.inj (at_'.symm.trans found)
    exact follows.arranged (sound.at? at_)

/-- All merges of a run are made on arranged nodes. -/
theorem Follows.mergesArranged (h : t.Follows s) (sound : t.Sound)
    {steps : List (List Text × Action)} (allowed : ∀ step ∈ steps, t.Allows disk step.1 step.2) :
    MergesArranged ns steps s (alone disk) := by
  induction steps generalizing t s with
  | nil => trivial
  | cons step steps ih =>
    obtain ⟨path, a⟩ := step
    have first := h.step sound (allowed (path, a) List.mem_cons_self)
    have same : (t.atPath (Template.act disk a) path).bare = t.bare :=
      bare_atPath (bare_act disk a) path t
    have still : (Segment.onPath a.call path s (alone disk)).2.2 = alone disk :=
      ((Segment.tame_call a).onPath path).still_eq rfl rfl
    refine ⟨fun _ _ n found => h.arranged_at? sound found, ?_⟩
    rw [still]
    exact ih first (sound.of_bare_eq same) fun step mem =>
      (allowed step (List.mem_cons_of_mem _ mem)).of_bare_eq same

/-- A sound template that is not too high is found in its own text.  Whatever is then done with its
segments, the merges are made on arranged nodes, and every node is arranged for the next one. -/
theorem arranged_run (t : Template Unit) (disk : Disk) (steps : List (List Text × Action))
    (sound : t.Sound) (height : t.items.height ≤ Segment.depthLimit)
    (allowed : ∀ step ∈ steps, t.Allows disk step.1 step.2) :
    ∃ s, Segment.ofRegion t.name t.render = .ok s ∧
      MergesArranged (Segment.names s) steps s (alone disk) ∧
      ∀ path n, (Segment.run steps s (alone disk)).1.at? path = some n →
        Arranged (Segment.names s) n := by
  have start := follows_fresh t
  have permitted : ∀ step ∈ steps, t.fresh.Allows disk step.1 step.2 :=
    fun step mem => (allowed step mem).fresh
  refine ⟨_, Items.parse_render sound.plain sound.isName sound.distinct height,
    start.mergesArranged sound.fresh permitted, fun path n found => ?_⟩
  have still : (t.fresh.run disk steps).Sound := sound.fresh.of_bare_eq (bare_run disk steps t.fresh)
  exact (start.run sound.fresh permitted).arranged_at? still found

end Template

end DocumentMerge
