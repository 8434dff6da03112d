import DocumentMerge.Proofs.Segment.Reachable

/-!
# What a failing merge leaves behind

A merge fails when a picture of the segment, or of a drained segment below it, cannot be copied into
the package.  No row is added then.  But the children are taken one after the other, and those that
were reached before the failure have given away what waited in them.

* `Stops` follows a merge to the place where it fails, and lists the segments that were *taken* on
  the way: the children before the one that fails, at every level.  `exists_stops`: every failing
  merge stops somewhere.
* `idled` is a tree with everything forgotten that waits in it.  No merge changes more than this,
  whether it fails or not (`idled_merge`): names, texts, bindings and images stay.
* `Idle`: nothing at all waits in a segment, no rows and no files to list.
  `drain_settled_eq_self_iff`: these are the segments that are the same after they were taken.
* `failed_merge_unchanged_iff`: a failing merge leaves the tree as it was exactly when all segments
  that were taken are idle.  Only then is a second merge sure to give what the first would have given.
-/

namespace DocumentMerge.Segment

/-! ## What waits in a tree -/

mutual

/-- The tree with everything forgotten that waits in it: outputs, states and files to list. -/
def idled : Segment → Segment
  | .node own children => .node own.drain (idledAll children)

/-- Several segments in which nothing waits any more. -/
def idledAll : List Segment → List Segment
  | [] => []
  | c :: cs => idled c :: idledAll cs

end

theorem idledAll_eq_map (cs : List Segment) : idledAll cs = cs.map idled := by
  induction cs with
  | nil => rfl
  | cons c cs ih => rw [idledAll, ih, List.map_cons]

theorem idled_node (own : Fragment) (children : List Segment) :
    idled (.node own children) = .node own.drain (children.map idled) := by
  rw [idled, idledAll_eq_map]

/-- Nothing waits in a segment, nor anywhere below it. -/
def Idle (s : Segment) : Prop :=
  s.idled = s

theorem idle_node_iff {own : Fragment} {children : List Segment} :
    Idle (.node own children) ↔ own.drain = own ∧ ∀ c ∈ children, Idle c := by
  rw [Idle, idled_node, Segment.node.injEq]
  refine and_congr_right fun _ => ?_
  constructor
  · intro same c mem
    have here : children.map idled = children.map id := same.trans (List.map_id _).symm
    exact List.map_inj_left.1 here c mem
  · intro idle
    exact (List.map_congr_left idle).trans (List.map_id _)

theorem Idle.state_eq {s : Segment} (h : Idle s) : s.own.state = .drained := by
  obtain ⟨own, children⟩ := s
  have same := (idle_node_iff.1 h).1
  rw [own_node, ← same]
  rfl

theorem Idle.listed_eq {s : Segment} (h : Idle s) : s.own.values.listed = [] := by
  obtain ⟨own, children⟩ := s
  have same := (idle_node_iff.1 h).1
  rw [own_node, ← same]
  rfl

@[simp] theorem idled_drain (s : Segment) : s.drain.idled = s.idled := by
  obtain ⟨own, children⟩ := s
  rw [drain, idled_node, idled_node]
  rfl

/-! ## What a taken segment is left with -/

theorem listed_takeAll (row : Row) (cs : List Segment) :
    (takeAll row cs).listed = row.listed ++ cs.flatMap fun c => c.own.values.listed := by
  induction cs generalizing row with
  | nil => simp
  | cons c cs ih =>
    rw [takeAll_cons, ih, List.flatMap_cons, ← List.append_assoc]
    rfl

/-- An idle segment lists no file when it is settled. -/
theorem listed_settled_of_idle {c : Segment} (h : Idle c) : c.settled.own.values.listed = [] := by
  induction c using induct with
  | node own children ih =>
    rw [settled_of_drained h.state_eq, own_merged]
    show (takeAll own.firstRow (children.map settled)).listed = []
    rw [listed_takeAll, List.append_eq_nil_iff, List.flatMap_eq_nil_iff]
    refine ⟨h.listed_eq, fun d mem => ?_⟩
    obtain ⟨c, here, rfl⟩ := List.mem_map.1 mem
    exact ih c here ((idle_node_iff.1 h).2 c here)

/-- The segments that are the same after they were taken are those in which nothing waits. -/
theorem drain_settled_eq_self_iff {c : Segment} : c.settled.drain = c ↔ Idle c := by
  induction c using induct with
  | node own children ih =>
    have below : (children.map settled).map drain = children ↔ ∀ c ∈ children, Idle c := by
      rw [List.map_map]
      conv_lhs => rw [← List.map_id children, List.map_map]
      rw [List.map_inj_left]
      exact forall₂_congr fun c mem => ih c mem
    cases state : own.state with
    | drained =>
      rw [settled_of_drained (c := .node own children) state, merged_node, drain, Segment.node.injEq, below, idle_node_iff]
      rfl
    | accumulating =>
      rw [settled_of_accumulating (c := .node own children) state]
      constructor
      · intro same
        have : own.drain = own := congrArg Segment.own same
        rw [← this] at state
        cases state
      · intro idle
        have := idle.state_eq
        rw [own_node, state] at this
        cases this

/-! ## Where a merge stops -/

/-- A segment in a session whose merge fails, with the cause and the segments that are taken before.
Either a picture of the segment cannot be copied, and nothing was taken, or the merge stops at a
drained child, after the children before it and whatever was taken below the child. -/
inductive Stops : Segment → Session → List Segment → Error → Prop
  | images {own : Fragment} {children : List Segment} {σ τ : Session} {cause : Error} :
    σ.embed own.values.pictures = (.error cause, τ) → Stops (.node own children) σ [] cause
  | child {own : Fragment} {before after taken ds : List Segment} {c : Segment}
    {σ σ₁ σ₂ : Session} {row : Row} {cause : Error} :
    σ.embed own.values.pictures = (.ok (), σ₁) →
    mergeChildren own.firstRow before σ₁ = (.ok (), row, ds, σ₂) →
    c.own.state = .drained → Stops c σ₂ taken cause →
    Stops (.node own (before ++ c :: after)) σ (before ++ taken) cause

theorem eq_settled_of_settle {c d : Segment} {σ τ : Session} (h : settle c σ = (.ok (), d, τ)) :
    d = c.settled := by
  cases state : c.own.state with
  | drained =>
    rw [settle_of_drained state] at h
    rw [settled_of_drained state]
    exact eq_merged_of_merge h
  | accumulating =>
    rw [settle_of_accumulating state] at h
    cases h
    rw [settled_of_accumulating state]

theorem merge_of_settle_error {c d : Segment} {σ τ : Session} {cause : Error}
    (h : settle c σ = (.error cause, d, τ)) :
    c.own.state = .drained ∧ merge c σ = (.error cause, d, τ) := by
  cases state : c.own.state with
  | drained =>
    rw [settle_of_drained state] at h
    exact ⟨rfl, h⟩
  | accumulating =>
    rw [settle_of_accumulating state] at h
    cases h

/-- Where the children stop: those before the failing one are taken, and those behind it stay. -/
theorem exists_of_mergeChildren_error {children ds : List Segment} {row row' : Row}
    {σ τ : Session} {cause : Error}
    (h : mergeChildren row children σ = (.error cause, row', ds, τ)) :
    ∃ before c d after υ, children = before ++ c :: after ∧
      row' = takeAll row (before.map settled) ∧
      ds = (before.map settled).map drain ++ d :: after ∧
      mergeChildren row before σ = (.ok (), row', (before.map settled).map drain, υ) ∧
      c.own.state = .drained ∧ merge c υ = (.error cause, d, τ) := by
  induction children generalizing row ds σ with
  | nil =>
    rw [mergeChildren_nil] at h
    cases h
  | cons c rest ih =>
    rcases done : settle c σ with ⟨cause' | _, d, σ'⟩
    · rw [mergeChildren_cons_of_error done] at h
      cases h
      obtain ⟨state, failed⟩ := merge_of_settle_error done
      exact ⟨[], c, d, rest, σ, rfl, rfl, rfl, mergeChildren_nil _ _, state, failed⟩
    · rw [mergeChildren_cons_of_ok done] at h
      rcases later : mergeChildren (row.take d.own) rest σ' with ⟨r, row₁, ds₁, τ₁⟩
      rw [later] at h
      cases h
      obtain ⟨before, e, f, after, υ, rfl, same, rfl, earlier, state, failed⟩ := ih later
      have here : d = c.settled := eq_settled_of_settle done
      refine ⟨c :: before, e, f, after, υ, rfl, ?_, ?_, ?_, state, failed⟩
      · rw [same, here]
        rfl
      · rw [here]
        rfl
      · rw [mergeChildren_cons_of_ok done, earlier, here]
        rfl

/-- Every failing merge stops somewhere.  It adds no row to the segment, and the segment with all
that is below it stays as it was exactly when the segments that were taken are idle. -/
theorem exists_stops {n m : Segment} {σ τ : Session} {cause : Error}
    (failed : merge n σ = (.error cause, m, τ)) :
    ∃ taken, Stops n σ taken cause ∧ m.own.output = n.own.output ∧ m.own.state = n.own.state ∧
      (m = n ↔ ∀ c ∈ taken, Idle c) := by
  induction n using induct generalizing m σ τ with
  | node own children ih =>
    rcases merge_cases failed with ⟨cause, embedded, e, rfl⟩ | ⟨σ₁, embedded, stopped | finished⟩
    · cases e
      exact ⟨[], .images embedded, rfl, rfl, by simp⟩
    · obtain ⟨cause, row, ds, stopped, e, rfl⟩ := stopped
      cases e
      obtain ⟨before, c, d, after, σ₂, rfl, rfl, rfl, earlier, state, inner⟩ :=
        exists_of_mergeChildren_error stopped
      obtain ⟨taken, stops, -, -, same⟩ := ih c (by simp) inner
      refine ⟨before ++ taken, .child embedded earlier state stops, rfl, rfl, ?_⟩
      have front : (before.map settled).map drain = before ↔ ∀ c ∈ before, Idle c := by
        rw [List.map_map]
        conv_lhs => rw [← List.map_id before, List.map_map]
        rw [List.map_inj_left]
        exact forall₂_congr fun c _ => drain_settled_eq_self_iff
      rw [Segment.node.injEq, List.forall_mem_append, ← front, ← same]
      constructor
      · rintro ⟨-, split⟩
        have ⟨taken, rest⟩ := List.append_inj split (by simp)
        exact ⟨taken, (List.cons.inj rest).1⟩
      · rintro ⟨kept, rfl⟩
        refine ⟨?_, by rw [kept]⟩
        -- idle children had no file to add to the list of the segment
        have quiet : (takeAll own.firstRow (before.map settled)).listed = own.values.listed := by
          rw [listed_takeAll, List.flatMap_eq_nil_iff.2, List.append_nil]
          · rfl
          · intro d mem
            obtain ⟨c, here, rfl⟩ := List.mem_map.1 mem
            exact listed_settled_of_idle (front.1 kept c here)
        rw [Fragment.list, quiet]
    · obtain ⟨_, _, -, e, -⟩ := finished
      cases e

/-! ## What no merge changes -/

theorem idled_mergeChildren {children : List Segment}
    (each : ∀ c ∈ children, ∀ σ, (merge c σ).2.1.idled = c.idled) (row : Row) (σ : Session) :
    (mergeChildren row children σ).2.2.1.map idled = children.map idled := by
  induction children generalizing row σ with
  | nil => rw [mergeChildren_nil]
  | cons c rest ih =>
    have kept : (settle c σ).2.1.idled = c.idled := by
      rw [settle]
      split
      · exact each c List.mem_cons_self σ
      · rfl
    rcases settled : settle c σ with ⟨_ | _, d, τ⟩
    · rw [settled] at kept
      rw [mergeChildren_cons_of_error settled, List.map_cons, List.map_cons, kept]
    · rw [settled] at kept
      rw [mergeChildren_cons_of_ok settled, List.map_cons, List.map_cons, idled_drain, kept,
        ih fun c mem => each c (List.mem_cons_of_mem _ mem)]

/-- A merge, also one that fails, changes nothing but what waits in the tree. -/
@[simp] theorem idled_merge (s : Segment) (σ : Session) : (merge s σ).2.1.idled = s.idled := by
  induction s using induct generalizing σ with
  | node own children ih =>
    rcases called : merge (.node own children) σ with ⟨r, t, τ⟩
    rcases merge_cases called with ⟨cause, -, -, rfl⟩ | ⟨σ', -, done⟩
    · rfl
    · have below := idled_mergeChildren ih own.firstRow σ'
      rcases done with ⟨cause, row, ds, stopped, -, rfl⟩ | ⟨row, ds, finished, -, rfl⟩
      · rw [stopped] at below
        rw [idled_node, idled_node, below]
        rfl
      · rw [finished] at below
        rw [idled_node, idled_node, below]
        rfl

/-! ## A call on a node -/

/-- In the place of a child stands another one of its name: it is found where the child was found, and
otherwise the same is found. -/
theorem child?_replaced {own : Fragment} {before after : List Segment} {c d : Segment}
    (named : d.own.name = c.own.name) (name : Text) :
    (child? (.node own (before ++ c :: after)) name = some c ∧
      child? (.node own (before ++ d :: after)) name = some d) ∨
    child? (.node own (before ++ d :: after)) name
      = child? (.node own (before ++ c :: after)) name := by
  rw [child?, child?, children_node, children_node, List.find?_append, List.find?_append]
  cases before.find? fun b => b.name == name with
  | some b => exact .inr rfl
  | none =>
    have same : (d.name == name) = (c.name == name) := by
      rw [Segment.name, Segment.name, named]
    rw [Option.none_or, Option.none_or, List.find?_cons, List.find?_cons, same]
    cases c.name == name with
    | true => exact .inl ⟨rfl, rfl⟩
    | false => exact .inr rfl

/-- A node and the tree around it: a call on the node changes this node, and a tree that has another
node in its place is another tree. -/
theorem exists_around {path : List Text} {s n : Segment} (h : at? path s = some n) :
    ∃ around : Segment → Segment, around n = s ∧ around.Injective ∧
      (∀ m, m.own.name = n.own.name →
        (around m).own.name = s.own.name ∧ at? path (around m) = some m) ∧
      (∀ m, m.idled = n.idled → (around m).idled = s.idled) ∧
      ∀ {α : Type} (call : Call α) σ, onPath call path s σ =
        ((call n σ).1, around (call n σ).2.1, (call n σ).2.2) := by
  induction path generalizing s with
  | nil =>
    cases h
    exact ⟨id, rfl, Function.injective_id, fun m named => ⟨named, rfl⟩, fun _ same => same,
      fun _ _ => rfl⟩
  | cons name names ih =>
    obtain ⟨own, cs⟩ := s
    obtain ⟨c, found, below⟩ := Option.bind_eq_some_iff.1 h
    obtain ⟨named, before, after, rfl, earlier⟩ := List.find?_eq_some_iff_append.1 found
    have named : c.own.name = name := by simpa [Segment.name] using named
    have earlier : ∀ b ∈ before, b.own.name ≠ name := by
      intro b mem
      simpa [Segment.name] using earlier b mem
    obtain ⟨inner, here, distinct, reads, idles, calls⟩ := ih below
    refine ⟨fun m => .node own (before ++ inner m :: after), ?_, ?_, ?_, ?_, ?_⟩
    · show Segment.node own (before ++ inner n :: after) = _
      rw [here]
    · intro m m' same
      have split := (Segment.node.inj same).2
      exact distinct (List.cons.inj (List.append_cancel_left split)).1
    · intro m named'
      obtain ⟨same, read⟩ := reads m named'
      refine ⟨rfl, ?_⟩
      rw [at?, child?_of_first earlier (same.trans named)]
      exact read
    · intro m same
      rw [idled_node, idled_node, List.map_append, List.map_append, List.map_cons, List.map_cons,
        idles m same]
    · intro α call σ
      rcases done : onPath call names c σ with ⟨r, d, τ⟩
      have below := calls call σ
      rw [done] at below
      cases below
      rw [onPath, onChild_append earlier named done]

/-- **What a failing merge changes.**  A merge that fails on a node of a tree stops after it has
taken some segments below the node.  It adds no row to the node, and it changes no text, no binding
and no image anywhere in the tree.  The tree is the same as before exactly when the segments that
were taken are idle, and then a merge that succeeds later, in whatever session, leaves what it would
have left at first. -/
theorem failed_merge_unchanged_iff {s t n : Segment} {path : List Text} {σ τ : Session}
    {cause : Error} (node : at? path s = some n)
    (failed : onPath merge path s σ = (.error cause, t, τ)) :
    ∃ m taken, at? path t = some m ∧ m.own.output = n.own.output ∧ m.own.state = n.own.state ∧
      t.idled = s.idled ∧ Stops n σ taken cause ∧ (t = s ↔ ∀ c ∈ taken, Idle c) ∧
      ((∀ c ∈ taken, Idle c) → ∀ {σ₁ σ₂ τ₁ τ₂ : Session} {u v : Segment},
        onPath merge path s σ₁ = (.ok (), u, τ₁) →
        onPath merge path t σ₂ = (.ok (), v, τ₂) → u = v) := by
  obtain ⟨around, here, distinct, reads, idles, calls⟩ := exists_around node
  rcases done : merge n σ with ⟨r, m, τ'⟩
  have answer := calls merge σ
  rw [failed, done] at answer
  cases answer
  obtain ⟨taken, stops, output, state, same⟩ := exists_stops done
  have named : m.own.name = n.own.name :=
    name_eq_of_skeleton_eq (tame_merge.skeleton_eq done)
  have forgotten : m.idled = n.idled := by
    have := idled_merge n σ
    rwa [done] at this
  have unchanged : around m = s ↔ ∀ c ∈ taken, Idle c := by
    rw [← same]
    conv_lhs => rw [← here]
    exact distinct.eq_iff
  refine ⟨m, taken, (reads m named).2, output, state, idles m forgotten, stops, unchanged, ?_⟩
  intro idle σ₁ σ₂ τ₁ τ₂ u v first second
  rw [unchanged.2 idle] at second
  have left := calls merge σ₁
  have right := calls merge σ₂
  rw [first] at left
  rw [second] at right
  have tree {υ υ' : Session} {w : Segment} (ok : (.ok (), w, υ') =
      ((merge n υ).1, around (merge n υ).2.1, (merge n υ).2.2)) : w = around n.merged := by
    rcases merging : merge n υ with ⟨r, x, υ''⟩
    rw [merging] at ok
    cases ok
    rw [eq_merged_of_merge merging]
  rw [tree left, tree right]

/-! ## A picture that is gone -/

/-- A session with an empty package, on a disk where a picture may lie in the current directory. -/
def editing (picture? : Option (Text × List UInt8)) : Session where
  config := Config.standard
  working := some ⟨⟨"w".toList, 0, Disk.temporaryDirectory⟩, Archive.closed⟩
  disk := { Disk.empty with
    nodes := (picture?.map fun (name, data) =>
      (Disk.empty.current ++ [name], Node.file (.bytes ⟨data.toArray⟩))).toList
        ++ Disk.empty.nodes
    temporaries := [(0, .package [])] }

/-- The session while a picture of one pixel is there. -/
def withPicture : Session :=
  editing (some ("i".toList, [0x47, 0x49, 0x46, 0x38, 0x39, 0x61, 1, 0, 1, 0]))

/-- The session when the picture is gone. -/
def withoutPicture : Session :=
  editing none

/-- The segment of a text after some calls that were made while the picture was there. -/
def pictured (name source : Text) (steps : List (List Text × Action)) : Segment :=
  (run steps ((ofRegion name source).toOption.getD default) withPicture).1

theorem reachable_pictured {name source : Text}
    (built : (ofRegion name source).toOption.isSome = true) (steps : List (List Text × Action)) :
    Reachable (pictured name source steps) := by
  have parsed := ofRegion_eq_ok_used built
  rw [pictured, parsed]
  exact (Reachable.parsed parsed).run steps _

/-- The picture of a child is gone when the child is merged.  Nothing was taken, and the tree is the
same as before. -/
theorem failed_merge_unchanged_iff_own_picture :
    let source := "[!-- BEGIN s --]<[!-- BEGIN b --]\x7bp\x7d[!-- END b --]>[!-- END s --]".toList
    let s := pictured "s".toList source
      [(["b".toList], .bindImage "p".toList "i".toList Placement.inText)]
    ∃ cause τ, onPath merge ["b".toList] s withoutPicture = (.error cause, s, τ) := by
  intro source s
  have found : (at? ["b".toList] s).map
      (fun n => (withoutPicture.embed n.own.values.pictures).1.toOption) = some none := by
    decide +kernel
  have refused : (onPath merge ["b".toList] s withoutPicture).1.toOption = none := by
    decide +kernel
  obtain ⟨n, node, gone⟩ := Option.map_eq_some_iff.1 found
  rcases failed : onPath merge ["b".toList] s withoutPicture with ⟨cause | _, t, τ⟩
  · obtain ⟨m, taken, -, -, -, -, stops, unchanged, -⟩ := failed_merge_unchanged_iff node failed
    have none : taken = [] := by
      cases stops with
      | images _ => rfl
      | child embedded =>
        rw [own_node, embedded] at gone
        cases gone
    refine ⟨cause, τ, ?_⟩
    rw [unchanged.2 (by simp [none])]
  · rw [failed] at refused
    cases refused

/-- Two rows wait in the first child when the picture of the second one is gone.  The merge of the
segment fails, and the rows that waited are lost. -/
theorem failed_merge_loses_rows :
    let source := "[!-- BEGIN s --][!-- BEGIN a --]\x7bx\x7d[!-- END a --]".toList
      ++ "[!-- BEGIN b --]\x7bp\x7d[!-- END b --][!-- END s --]".toList
    let s := pictured "s".toList source
      [(["a".toList], .bind "x".toList "1".toList true), (["a".toList], .merge),
        (["a".toList], .bind "x".toList "2".toList true), (["a".toList], .merge),
        (["b".toList], .bindImage "p".toList "i".toList Placement.inText)]
    let waiting (t : Segment) := t.children.map fun c => (c.own.state, c.own.output)
    Reachable s ∧ withoutPicture.working.isSome = true ∧
      (merge s withoutPicture).1.toOption = none ∧
      waiting s = [(.accumulating, "12".toList), (.drained, [])] ∧
      waiting (merge s withoutPicture).2.1 = [(.drained, []), (.drained, [])] := by
  intro source s waiting
  exact ⟨reachable_pictured (by decide +kernel) _, rfl, by decide +kernel, by decide +kernel,
    by decide +kernel⟩

end DocumentMerge.Segment
