import DocumentMerge.Proofs.Segment.Carrying

/-!
# When rows wait and when they are taken

Rows wait in a segment until the merge of a segment above takes them.  Each node says by its state
whether any do.  Merges begin at any node and may fail half-way, but they write output and state in two
places only: the node whose merge is completed gets a row and is accumulating, and a child that was
taken by its parent is drained and has nothing left.

* `Sound.exists_at?`: every node of a tree with different names of siblings has a path, so a statement
  about all paths is one about all nodes.
* `waitingAt`: output and state of the node to which a path leads.  `waitingAt_onPath`: a call leaves
  both as they are, unless it is a merge of this node or of one above.
* `drained_of_mem_children_merged`: what the children are after a merge.
* `drain_discipline`: all of it for every reachable segment and every call on any of its nodes.
-/

namespace DocumentMerge.Segment

/-! ## Paths -/

/-- What is reached from a reachable segment is reachable. -/
theorem Reachable.at? {path : List Text} {s n : Segment} (h : Reachable s)
    (found : Segment.at? path s = some n) : Reachable n :=
  of_at? (fun _ h _ mem => h.child mem) h found

/-- Children with different names are found by their names. -/
theorem child?_of_mem {s c : Segment} (names : (s.children.map fun c => c.own.name).Nodup)
    (mem : c ∈ s.children) : s.child? c.own.name = some c := by
  obtain ⟨own, cs⟩ := s
  obtain ⟨before, after, rfl⟩ := List.append_of_mem (show c ∈ cs from mem)
  refine child?_of_first (fun b memb same => ?_) rfl
  rw [children_node, List.map_append, List.map_cons, List.nodup_append] at names
  exact names.2.2 _ (List.mem_map_of_mem memb) _ List.mem_cons_self same

/-- A fragment of some segments is a fragment of one of them. -/
theorem exists_of_mem_descendants {f : Fragment} {cs : List Segment} (h : f ∈ descendants cs) :
    ∃ c ∈ cs, f ∈ fragments c := by
  induction cs with
  | nil => cases h
  | cons c cs ih =>
    rw [descendants] at h
    rcases List.mem_append.1 h with here | later
    · exact ⟨c, List.mem_cons_self, here⟩
    · obtain ⟨d, mem, there⟩ := ih later
      exact ⟨d, List.mem_cons_of_mem _ mem, there⟩

/-- Every node has a path. -/
theorem Sound.exists_at? {s : Segment} (h : Sound s) {f : Fragment} (mem : f ∈ fragments s) :
    ∃ path n, Segment.at? path s = some n ∧ n.own = f := by
  induction s using induct with
  | node own cs ih =>
    rw [fragments] at mem
    rcases List.mem_cons.1 mem with rfl | below
    · exact ⟨[], _, rfl, rfl⟩
    · obtain ⟨c, memc, there⟩ := exists_of_mem_descendants below
      obtain ⟨path, n, found, same⟩ := ih c memc (h.child memc) there
      refine ⟨c.own.name :: path, n, ?_, same⟩
      rw [Segment.at?, child?_of_mem h.names memc]
      exact found

/-! ## What waits at a node -/

/-- The rows that wait at the node to which a path leads, and whether any do. -/
def waitingAt (path : List Text) (s : Segment) : Option (Text × MergeState) :=
  (at? path s).map fun n => (n.own.output, n.own.state)

theorem waitingAt_cons (name : Text) (names : List Text) (s : Segment) :
    waitingAt (name :: names) s = (s.child? name).bind (waitingAt names) := by
  rw [waitingAt, at?]
  cases s.child? name with
  | none => rfl
  | some c => rfl

/-- A binding leaves what waits, at the node itself and below. -/
theorem waitingAt_call {a : Action} (binds : a ≠ .merge) (place : List Text) (s : Segment)
    (σ : Session) : waitingAt place (a.call s σ).2.1 = waitingAt place s := by
  obtain ⟨own, children⟩ := s
  rcases done : a.call (.node own children) σ with ⟨r, t, τ⟩
  obtain ⟨-, ⟨key, v, values, -, -, -, -, rfl⟩ | ⟨cause, -, rfl, -⟩⟩ := Action.call_cases binds done
  · cases place with
    | nil => rfl
    | cons name names =>
      show waitingAt (name :: names) (.node { own with values } children) = _
      rw [waitingAt_cons, waitingAt_cons, child?, child?, children_node, children_node]
  · rfl

/-- **Who changes what waits.**  A call of a user leaves the output and the state of a node as they are,
whatever it answers, unless it is a merge of this node or of one above. -/
theorem waitingAt_onPath {a : Action} {path place : List Text}
    (spares : a = .merge → ¬ path <+: place) (s : Segment) (σ : Session) :
    waitingAt place (onPath a.call path s σ).2.1 = waitingAt place s := by
  induction path generalizing place s with
  | nil => exact waitingAt_call (fun merges => spares merges List.nil_prefix) place s σ
  | cons name names ih =>
    obtain ⟨own, children⟩ := s
    rcases done : onPath a.call (name :: names) (.node own children) σ with ⟨r, t, τ⟩
    rcases onChild_cases done with ⟨before, c, after, d, rfl, earlier, named, called, rfl⟩ |
      ⟨-, -, rfl, -⟩
    · cases place with
      | nil => rfl
      | cons first place =>
        have same : d.own.name = c.own.name :=
          name_eq_of_skeleton_eq (((tame_call a).onPath names).skeleton_eq called)
        rw [waitingAt_cons, waitingAt_cons]
        rcases child?_replaced same first with ⟨found, found'⟩ | other
        · obtain rfl : c.own.name = first := by simpa [Segment.name] using List.find?_some found
          subst named
          have below := ih (fun merges under =>
            spares merges (List.cons_prefix_cons.2 ⟨rfl, under⟩)) c
          rw [called] at below
          rw [found, found']
          exact below
        · rw [other]
    · rfl

/-! ## After a merge -/

/-- After a merge every child is drained and has neither rows nor files to list. -/
theorem drained_of_mem_children_merged {s c : Segment} (mem : c ∈ s.merged.children) :
    c.own.state = .drained ∧ c.own.output = [] ∧ c.own.values.listed = [] := by
  rw [children_merged] at mem
  obtain ⟨d, -, rfl⟩ := List.mem_map.1 mem
  rw [own_drain]
  exact ⟨rfl, rfl, rfl⟩

/-- A merge that succeeds on a node leaves there what the node alone determines. -/
theorem at?_of_merge {path : List Text} {s n t : Segment} {σ τ : Session}
    (found : at? path s = some n) (done : onPath merge path s σ = (.ok (), t, τ)) :
    at? path t = some n.merged := by
  obtain ⟨around, -, -, reads, -, calls⟩ := exists_around found
  have answer := calls merge σ
  rcases called : merge n σ with ⟨r, m, υ⟩
  rw [done, called] at answer
  cases answer
  obtain rfl := eq_merged_of_merge called
  exact (reads n.merged (name_merged n)).2

/-- **Rows wait and are taken.**  Every node of a reachable segment has a path, and whichever calls were
made on it, failing ones included:

* a node that is drained has no output;
* when a merge of a node succeeds, the node is accumulating, its output is the previous one and the new
  row behind it, and each of its children is drained and has neither output nor files to list;
* a call changes the output or the state of a node only if it is a merge of this node or of one above. -/
theorem drain_discipline {s : Segment} (reach : Reachable s) :
    (∀ f ∈ fragments s, ∃ path n, at? path s = some n ∧ n.own = f) ∧
    (∀ path n, at? path s = some n → n.own.state = .drained → n.own.output = []) ∧
    (∀ path n σ t τ, at? path s = some n → onPath merge path s σ = (.ok (), t, τ) →
      ∃ m, at? path t = some m ∧ m.own.state = .accumulating ∧
        m.own.output = n.own.output ++ n.row ∧
        ∀ c ∈ m.children, c.own.state = .drained ∧ c.own.output = [] ∧ c.own.values.listed = []) ∧
    ∀ path (a : Action) σ place, waitingAt place (onPath a.call path s σ).2.1 ≠ waitingAt place s →
      a = .merge ∧ path <+: place := by
  refine ⟨fun f mem => reach.sound.exists_at? mem, fun path n found drained => ?_,
    fun path n σ t τ found done => ?_, fun path a σ place changed => ?_⟩
  · exact (reach.at? found).tidy.output_eq_nil drained
  · exact ⟨n.merged, at?_of_merge found done, state_merged n, output_merged n,
      fun c mem => drained_of_mem_children_merged mem⟩
  · by_contra spared
    exact changed (waitingAt_onPath (fun merges under => spared ⟨merges, under⟩) s σ)

/-- A row waits in a child when its parent is merged: then it is in the row of the parent, nothing is
left in the child, and a binding on the child changes neither. -/
theorem drain_discipline_one_child :
    let source := "[!-- BEGIN s --]<[!-- BEGIN c --]\x7bx\x7d[!-- END c --]>[!-- END s --]".toList
    let s := used "s".toList source
      [(["c".toList], .bind "x".toList "1".toList true), (["c".toList], .merge)]
    let t := (merge s (Session.alone Disk.empty)).2.1
    Reachable s ∧ waitingAt [] s = some ([], .drained) ∧
      waitingAt ["c".toList] s = some ("1".toList, .accumulating) ∧
      t.own.state = .accumulating ∧ t.own.output = "<1>".toList ∧
      (∀ c ∈ t.children, c.own.state = .drained ∧ c.own.output = [] ∧ c.own.values.listed = []) ∧
      waitingAt [] (onPath (Action.bind "x".toList "2".toList true).call ["c".toList] s
        (Session.alone Disk.empty)).2.1 = some ([], .drained) := by
  intro source s t
  have reach : Reachable s := reachable_used (by decide +kernel) _
  obtain ⟨-, -, merges, changes⟩ := drain_discipline reach
  have done : onPath merge [] s (Session.alone Disk.empty)
      = (.ok (), t, (merge s (Session.alone Disk.empty)).2.2) := by
    have succeeds : merge s (Session.alone Disk.empty) = (.ok (), s.merged, _) :=
      merge_of_no_working rfl s
    show merge s (Session.alone Disk.empty) = (.ok (), (merge s (Session.alone Disk.empty)).2.1, _)
    rw [succeeds]
  obtain ⟨m, here, state, output, children⟩ := merges [] s _ t _ rfl done
  cases here
  have empty : s.own.output = [] ∧ row s = "<1>".toList := by decide +kernel
  rw [empty.1, empty.2] at output
  refine ⟨reach, by decide +kernel, by decide +kernel, state, output, children, ?_⟩
  have before : waitingAt [] s = some ([], .drained) := by decide +kernel
  by_contra changed
  rw [← before] at changed
  exact absurd (changes _ _ _ _ changed).1 (by simp)

end DocumentMerge.Segment
