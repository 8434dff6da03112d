import DocumentMerge.MergeData.Applying
import DocumentMerge.Proofs.Segment.Reachable
import Mathlib.Data.List.Nodup

/-!
# Merging a row of data

A row of data is merged by calls that a user could make: its values and images are bound, its
children get their rows, and then there is a merge.  So the theory of calls applies, and a row can
be studied on a detached session, where the only thing that matters is the tree.

* `induct`: the induction over data; a row may assume the statement of the rows in it.
* `tame_mergeRow`: merging rows is tame.  `within_mergeRows`: it does to the session only what the
  calls do that it is made of.
* `mergeChildren_cases`: the lists of rows for children reach their children one by one.  Each child
  gets the rows that are listed under its name and nothing else happens to it.
* `mergeRow_cases`: what a row that succeeds does to a node and its children.
-/

namespace DocumentMerge

open Segment (Action Tame Within andThen each onChild Reachable Sound)

namespace Segment

/-! ## Sequences of calls -/

theorem andThen_assoc {α β γ : Type} (a : Call α) (b : Call β) (c : Call γ) :
    andThen (andThen a b) c = andThen a (andThen b c) := by
  funext s σ
  rcases done : a s σ with ⟨_ | _, t, τ⟩
  · rw [andThen_of_error done, andThen_of_error (andThen_of_error done)]
  · rw [andThen_of_ok done, andThen, andThen_of_ok done]
    rfl

theorem skip_andThen {β : Type} (b : Call β) : andThen skip b = b := by
  funext s σ
  exact andThen_of_ok rfl

theorem each_append {ι : Type} (call : ι → Call Unit) (is js : List ι) :
    each call (is ++ js) = andThen (each call is) (each call js) := by
  induction is with
  | nil => exact (skip_andThen _).symm
  | cons i is ih =>
    show andThen (call i) (each call (is ++ js)) = andThen (andThen (call i) (each call is)) _
    rw [ih, andThen_assoc]

theorem each_map {ι κ : Type} (f : κ → ι) (call : ι → Call Unit) (ks : List κ) :
    each call (ks.map f) = each (fun k => call (f k)) ks := by
  induction ks with
  | nil => rfl
  | cons k ks ih =>
    show andThen (call (f k)) (each call (ks.map f)) = _
    rw [ih]
    rfl

/-- A sequence of two calls succeeds if each of them does. -/
theorem andThen_eq_ok {α β : Type} {first : Call α} {next : Call β} {b : β} {s u : Segment}
    {σ υ : Session} (h : andThen first next s σ = (.ok b, u, υ)) :
    ∃ a t τ, first s σ = (.ok a, t, τ) ∧ next t τ = (.ok b, u, υ) := by
  rcases done : first s σ with ⟨_ | a, t, τ⟩
  · rw [andThen_of_error done] at h
    cases h
  · rw [andThen_of_ok done] at h
    exact ⟨a, t, τ, rfl, h⟩

/-- Binding one after the other puts the stored values one after the other. -/
theorem each_call_cases {actions : List Action} (binds : ∀ a ∈ actions, a ≠ .merge)
    {own : Fragment} {cs : List Segment} {σ τ : Session} {t : Segment}
    (done : each Action.call actions (.node own cs) σ = (.ok (), t, τ)) :
    τ = σ ∧ (∀ a ∈ actions, ∃ e, a.stored? σ.disk = some e) ∧
      ∃ values : Values, t = .node { own with values } cs ∧
        values.bindings = (actions.filterMap (Action.stored? σ.disk)).foldl
          (fun b e => b.put (σ.config.tag e.1) e.2) own.values.bindings := by
  induction actions generalizing own with
  | nil =>
    cases done
    exact ⟨rfl, fun a mem => absurd mem List.not_mem_nil, own.values, rfl, rfl⟩
  | cons a actions ih =>
    obtain ⟨_, u, υ, here, later⟩ := andThen_eq_ok done
    obtain ⟨rfl, ⟨key, v, values, stored, -, bound, -, rfl⟩ | ⟨cause, e, -⟩⟩ :=
      Action.call_cases (binds a List.mem_cons_self) here
    · obtain ⟨rfl, works, values', rfl, bound'⟩ :=
        ih (fun a mem => binds a (List.mem_cons_of_mem _ mem)) later
      refine ⟨rfl, fun b mem => ?_, values', rfl, ?_⟩
      · rcases List.mem_cons.1 mem with rfl | mem
        · exact ⟨(key, v), stored⟩
        · exact works b mem
      · rw [bound', List.filterMap_cons_some stored, List.foldl_cons, bound]
    · cases e

end Segment

namespace MergeData

/-- Induction over data: a row may assume the statement of the rows in it. -/
@[elab_as_elim]
theorem induct {P : MergeData → Prop}
    (row : ∀ values images segments, (∀ p ∈ segments, ∀ r ∈ p.2, P r) →
      P (.row values images segments)) : ∀ r, P r
  | .row values images segments => row values images segments fun p memp r memr => by
    have inner := List.sizeOf_lt_of_mem memr
    have outer := List.sizeOf_lt_of_mem memp
    have pair : sizeOf p.2 < sizeOf p := by
      obtain ⟨name, rows⟩ := p
      simp only [Prod.mk.sizeOf_spec]
      omega
    have smaller : sizeOf r < sizeOf (MergeData.row values images segments) := by
      simp only [MergeData.row.sizeOf_spec]
      omega
    exact induct row r
termination_by r => sizeOf r
decreasing_by exact smaller

/-! ## Rows as calls -/

/-- The bindings of a row: first its values, then its images. -/
def actions (values : List (Text × Json.Value)) (images : List (Text × ImageBinding)) :
    List Action :=
  (values.map fun (key, value) => .bind key (valueText value) true) ++
    images.map fun (key, image) => .bindImage key image.path image.placement

theorem actions_ne_merge {values : List (Text × Json.Value)} {images : List (Text × ImageBinding)} :
    ∀ a ∈ actions values images, a ≠ .merge := by
  intro a mem
  rcases List.mem_append.1 mem with mem | mem
  · obtain ⟨⟨key, value⟩, -, rfl⟩ := List.mem_map.1 mem
    nofun
  · obtain ⟨⟨key, image⟩, -, rfl⟩ := List.mem_map.1 mem
    nofun

theorem mergeRow_row (values : List (Text × Json.Value)) (images : List (Text × ImageBinding))
    (segments : List (Text × List MergeData)) :
    mergeRow (.row values images segments) =
      andThen (each Action.call (actions values images))
        (andThen (mergeChildren segments) Segment.merge) := by
  rw [mergeRow, actions, Segment.each_append, Segment.each_map, Segment.each_map,
    Segment.andThen_assoc]
  rfl

@[simp] theorem mergeChildren_nil : mergeChildren [] = Segment.skip := by
  rw [mergeChildren]

theorem mergeChildren_cons (name : Text) (rows : List MergeData)
    (rest : List (Text × List MergeData)) :
    mergeChildren ((name, rows) :: rest)
      = andThen (onChild name (mergeRows rows)) (mergeChildren rest) := by
  rw [mergeChildren]

@[simp] theorem mergeRows_nil : mergeRows [] = Segment.skip := by
  rw [mergeRows]

theorem mergeRows_cons (r : MergeData) (rows : List MergeData) :
    mergeRows (r :: rows) = andThen (mergeRow r) (mergeRows rows) := by
  rw [mergeRows]

theorem mergeRows_append (rows later : List MergeData) :
    mergeRows (rows ++ later) = andThen (mergeRows rows) (mergeRows later) := by
  induction rows with
  | nil => rw [List.nil_append, mergeRows_nil, Segment.skip_andThen]
  | cons r rows ih =>
    rw [List.cons_append, mergeRows_cons, ih, mergeRows_cons, Segment.andThen_assoc]

mutual

theorem tame_mergeRow : ∀ r, Tame (mergeRow r)
  | .row values images segments => by
    rw [mergeRow_row]
    exact (Tame.each Segment.tame_call _).andThen
      ((tame_mergeChildren segments).andThen Segment.tame_merge)

theorem tame_mergeChildren : ∀ segments, Tame (mergeChildren segments)
  | [] => by
    rw [mergeChildren_nil]
    exact Tame.skip
  | (name, rows) :: rest => by
    rw [mergeChildren_cons]
    exact ((tame_mergeRows rows).onChild name).andThen (tame_mergeChildren rest)

theorem tame_mergeRows : ∀ rows, Tame (mergeRows rows)
  | [] => by
    rw [mergeRows_nil]
    exact Tame.skip
  | r :: rows => by
    rw [mergeRows_cons]
    exact (tame_mergeRow r).andThen (tame_mergeRows rows)

end

section Within

variable {I : Session → Prop} {E : Error → Prop}

theorem within_rows {rows : List MergeData} (each : ∀ r ∈ rows, ∀ s, Within I E (mergeRow r) s)
    (s : Segment) : Within I E (mergeRows rows) s := by
  induction rows generalizing s with
  | nil =>
    rw [mergeRows_nil]
    exact .skip s
  | cons r rows ih =>
    rw [mergeRows_cons]
    exact .andThen (each r List.mem_cons_self)
      (ih fun r mem => each r (List.mem_cons_of_mem _ mem)) s

theorem within_children (missing : ∀ scope child, E (.childNotFound scope child))
    {segments : List (Text × List MergeData)}
    (each : ∀ p ∈ segments, ∀ r ∈ p.2, ∀ s, Within I E (mergeRow r) s) (s : Segment) :
    Within I E (mergeChildren segments) s := by
  induction segments generalizing s with
  | nil =>
    rw [mergeChildren_nil]
    exact .skip s
  | cons p rest ih =>
    rw [mergeChildren_cons]
    exact .andThen (.onChild (within_rows (each p List.mem_cons_self)) missing p.1)
      (ih fun p mem => each p (List.mem_cons_of_mem _ mem)) s

variable (calls : ∀ (a : Action) (s : Segment), Within I E a.call s)
  (missing : ∀ scope child, E (.childNotFound scope child))

include calls missing

theorem within_mergeRow (r : MergeData) (s : Segment) : Within I E (mergeRow r) s := by
  induction r using induct generalizing s with
  | row values images segments ih =>
    rw [mergeRow_row]
    exact .andThen (.each calls _) (.andThen (within_children missing ih) (calls .merge)) s

/-- What each call on a node keeps of the session is kept when rows are merged, at any depth. -/
theorem within_mergeRows (rows : List MergeData) (s : Segment) : Within I E (mergeRows rows) s :=
  within_rows (fun r _ => within_mergeRow calls missing r) s

end Within

/-! ## Which rows a child gets -/

/-- The rows that are listed under a name. -/
def rowsFor (name : Text) (segments : List (Text × List MergeData)) : List MergeData :=
  segments.flatMap fun p => if p.1 = name then p.2 else []

theorem rowsFor_cons_self (name : Text) (rows : List MergeData)
    (rest : List (Text × List MergeData)) :
    rowsFor name ((name, rows) :: rest) = rows ++ rowsFor name rest := by
  rw [rowsFor, List.flatMap_cons, if_pos rfl]
  rfl

theorem rowsFor_cons_of_ne {name other : Text} (h : other ≠ name) (rows : List MergeData)
    (rest : List (Text × List MergeData)) :
    rowsFor name ((other, rows) :: rest) = rowsFor name rest := by
  rw [rowsFor, List.flatMap_cons, if_neg h]
  rfl

/-- The rows that a child gets are listed under its name. -/
theorem exists_of_mem_rowsFor {name : Text} {segments : List (Text × List MergeData)}
    {r : MergeData} (mem : r ∈ rowsFor name segments) : ∃ p ∈ segments, r ∈ p.2 := by
  obtain ⟨p, memp, mem⟩ := List.mem_flatMap.1 mem
  split at mem
  · exact ⟨p, memp, mem⟩
  · cases mem

/-- What the lists of rows make of a child. -/
def filled (segments : List (Text × List MergeData)) (σ : Session) (c : Segment) : Segment :=
  (mergeRows (rowsFor c.own.name segments) c σ).2.1

/-- Whether all rows of a child were merged. -/
def Fills (segments : List (Text × List MergeData)) (σ : Session) (c : Segment) : Prop :=
  (mergeRows (rowsFor c.own.name segments) c σ).1 = .ok ()

theorem mergeRows_of_fills {segments : List (Text × List MergeData)} {σ : Session} {c : Segment}
    (none : σ.working = none) (h : Fills segments σ c) :
    mergeRows (rowsFor c.own.name segments) c σ = (.ok (), filled segments σ c, σ) := by
  rcases done : mergeRows (rowsFor c.own.name segments) c σ with ⟨r, d, τ⟩
  obtain rfl := (tame_mergeRows _).still_eq done none
  rw [Fills, done] at h
  have h : r = .ok () := h
  rw [filled, done, h]

section OneList

variable {name : Text} {rows : List MergeData} {rest : List (Text × List MergeData)} {σ : Session}
  {b c d : Segment}

/-- A list of rows for one child does nothing to the others. -/
theorem filled_cons_of_ne (other : name ≠ b.own.name) :
    filled ((name, rows) :: rest) σ b = filled rest σ b := by
  rw [filled, filled, rowsFor_cons_of_ne other]

theorem fills_cons_of_ne (other : name ≠ b.own.name) :
    Fills ((name, rows) :: rest) σ b ↔ Fills rest σ b := by
  rw [Fills, Fills, rowsFor_cons_of_ne other]

variable (rest) in
/-- The rows of later lists are merged into what the first list made of the child. -/
theorem mergeRows_rowsFor_cons (named : c.own.name = name)
    (called : mergeRows rows c σ = (.ok (), d, σ)) :
    mergeRows (rowsFor c.own.name ((name, rows) :: rest)) c σ
      = mergeRows (rowsFor d.own.name rest) d σ := by
  have kept : d.own.name = c.own.name :=
    Segment.name_eq_of_skeleton_eq ((tame_mergeRows rows).skeleton_eq called)
  rw [kept, named, rowsFor_cons_self, mergeRows_append, Segment.andThen_of_ok called]

end OneList

/-- Every child gets its own rows, and nothing else happens. -/
theorem mergeChildren_cases {segments : List (Text × List MergeData)} {own : Fragment}
    {cs : List Segment} {σ τ : Session} {t : Segment} (none : σ.working = none)
    (names : (cs.map fun c => c.own.name).Nodup)
    (done : mergeChildren segments (.node own cs) σ = (.ok (), t, τ)) :
    t = .node own (cs.map (filled segments σ)) ∧ ∀ c ∈ cs, Fills segments σ c := by
  induction segments generalizing cs with
  | nil =>
    rw [mergeChildren_nil] at done
    cases done
    have same (c : Segment) : mergeRows (rowsFor c.own.name []) c σ = (.ok (), c, σ) := by
      show mergeRows [] c σ = _
      rw [mergeRows_nil]
      rfl
    constructor
    · congr 1
      refine (List.map_id' cs).symm.trans (List.map_congr_left fun c _ => ?_)
      rw [filled, same]
    · intro c _
      rw [Fills, same]
  | cons p rest ih =>
    obtain ⟨name, rows⟩ := p
    rw [mergeChildren_cons] at done
    obtain ⟨_, u, υ, here, later⟩ := Segment.andThen_eq_ok done
    rcases Segment.onChild_cases here with
      ⟨before, c, after, d, rfl, -, named, called, rfl⟩ | ⟨-, e, -⟩
    · obtain rfl := (tame_mergeRows rows).still_eq called none
      have kept : d.own.name = c.own.name :=
        Segment.name_eq_of_skeleton_eq ((tame_mergeRows rows).skeleton_eq called)
      have names' : ((before ++ d :: after).map fun c => c.own.name).Nodup := by
        simpa [kept] using names
      obtain ⟨rfl, fills⟩ := ih names' later
      -- the child that is called has the name, and no other one does
      have others : ∀ b ∈ before ++ after, name ≠ b.own.name := by
        intro b mem e
        rw [List.map_append, List.map_cons] at names
        have apart := (List.nodup_middle.1 names).notMem
        rw [← List.map_append, named, e] at apart
        exact apart (List.mem_map_of_mem mem)
      have take := mergeRows_rowsFor_cons rest named called
      constructor
      · have same : (before ++ d :: after).map (filled rest υ)
            = (before ++ c :: after).map (filled ((name, rows) :: rest) υ) := by
          rw [List.map_append, List.map_append, List.map_cons, List.map_cons]
          congr 1
          · exact List.map_congr_left fun b mem =>
              (filled_cons_of_ne (others b (List.mem_append_left _ mem))).symm
          · congr 1
            · rw [filled, filled, take]
            · exact List.map_congr_left fun b mem =>
                (filled_cons_of_ne (others b (List.mem_append_right _ mem))).symm
        rw [same]
      · intro b mem
        rcases List.mem_append.1 mem with mem | mem
        · rw [fills_cons_of_ne (others b (List.mem_append_left _ mem))]
          exact fills b (List.mem_append_left _ mem)
        · rcases List.mem_cons.1 mem with rfl | mem
          · rw [Fills, take]
            exact fills d (by simp)
          · rw [fills_cons_of_ne (others b (List.mem_append_right _ mem))]
            exact fills b (List.mem_append_right _ (List.mem_cons_of_mem _ mem))
    · cases e

/-- The bindings of a node after those of a row. -/
def bound (values : List (Text × Json.Value)) (images : List (Text × ImageBinding)) (σ : Session)
    (b : Bindings) : Bindings :=
  ((actions values images).filterMap (Action.stored? σ.disk)).foldl
    (fun b e => b.put (σ.config.tag e.1) e.2) b

/-- All that a row that succeeds does: it binds, fills the children, and merges. -/
theorem mergeRow_cases {values : List (Text × Json.Value)} {images : List (Text × ImageBinding)}
    {segments : List (Text × List MergeData)} {own : Fragment} {cs : List Segment} {σ τ : Session}
    {t : Segment} (none : σ.working = none) (names : (cs.map fun c => c.own.name).Nodup)
    (done : mergeRow (.row values images segments) (.node own cs) σ = (.ok (), t, τ)) :
    (∀ a ∈ actions values images, ∃ e, a.stored? σ.disk = some e) ∧
      (∀ c ∈ cs, Fills segments σ c) ∧ ∃ new : Values,
      new.bindings = bound values images σ own.values.bindings ∧
      t = Segment.merged (.node { own with values := new } (cs.map (filled segments σ))) := by
  obtain rfl := (tame_mergeRow _).still_eq done none
  rw [mergeRow_row] at done
  obtain ⟨_, u, υ, binds, done⟩ := Segment.andThen_eq_ok done
  obtain ⟨rfl, works, new, rfl, stored⟩ := Segment.each_call_cases actions_ne_merge binds
  obtain ⟨_, v, φ, children, merges⟩ := Segment.andThen_eq_ok done
  obtain ⟨rfl, fills⟩ := mergeChildren_cases none names children
  exact ⟨works, fills, new, stored, Segment.eq_merged_of_merge merges⟩

end MergeData

end DocumentMerge
