import DocumentMerge.Proofs.Segment.Discovering
import Mathlib.Order.Interval.Finset.Nat

/-!
# How deep a discovery descends

Discovery calls itself in two ways.  A region of another name becomes a child, which is built one level
deeper, and levels are counted: too many of them are an error.  A region of the segment's own name is
looked through on the same level, and nothing counts how often this is done.  It is done once at most:
the region ends at the nearest closing marker of its name, so none is left inside of it, and what is
looked through again has no region of that name.

* `not_closed_inner`, `not_opened_inner`: inside of a region no closing marker of its name stands, and so
  no region of that name is complete there.
* `Makes`: which call may make which.  `rank` numbers the calls by their level and by what they can
  still do on it, three to a level, and a call has a higher rank than the one that made it.
* `Nested.length_le`, `Nested.length_level_le`: how many calls can be open at once.
* `look`, `build`: the discovery call by call, with the calls that are open whenever one is made.
  `answer_build`: it gives the segment that `parse` gives.  `within_build`: what is open in it is nested.
* `discovery_bounded`: all of it for every name and text.
-/

namespace DocumentMerge

/-! ## Inside of a region -/

namespace Region

variable {xml before after : Text} {r : Region}

/-- No closing marker of the name of a region stands inside of it, since it would have been nearer. -/
theorem not_closed_inner (h : r.StandsIn xml before after) : ¬ Closed r.name r.inner := by
  rintro ⟨w, marker, x, y, cut⟩
  have nearer : r.inner.length ≤ x.length :=
    h.nearest x w (y ++ (r.closing ++ after)) marker (by rw [← cut]; simp only [List.append_assoc])
  have filled := List.length_pos_iff.2 marker.ne_nil
  have lengths := congrArg List.length cut
  simp only [List.length_append] at lengths
  omega

/-- So no region of its name is complete inside of it, wherever that one is opened. -/
theorem not_opened_inner (h : r.StandsIn xml before after) (x : Text) :
    ¬ Opened r.name r.inner x := by
  rintro ⟨w, y, -, cut, z, marker, behind⟩
  refine not_closed_inner h ⟨z, marker, behind.trans (List.IsSuffix.isInfix ⟨x ++ w, ?_⟩)⟩
  rw [cut, List.append_assoc]

/-- A search of the inner text of a region finds none of its name. -/
theorem name_ne_of_mem_all_inner {l m : Located} (h : l ∈ all xml)
    (inside : m ∈ all l.region.inner) : m.region.name ≠ l.region.name := by
  intro same
  obtain ⟨_, _, outer⟩ := standsIn_of_mem_all h
  obtain ⟨before, _, inner⟩ := standsIn_of_mem_all inside
  exact not_opened_inner outer.region before (same ▸ inner.region.opened)

end Region

namespace Segment

/-! ## Calls and what they make -/

/-- A call of the discovery, with the level on which it works. -/
inductive Visit where
  /-- The segment of a text is built. -/
  | build (depth : Nat) (name source : Text)
  /-- A text is looked through for the children of the segment `scope`. -/
  | look (depth : Nat) (scope xml : Text)

/-- The level of a call. -/
def Visit.depth : Visit → Nat
  | build depth _ _ => depth
  | look depth _ _ => depth

/-- The calls that a call may make itself. -/
inductive Makes : Visit → Visit → Prop
  /-- The text of a segment is looked through, unless the segment stands too deep. -/
  | look {depth : Nat} {name source : Text} : depth ≤ depthLimit →
    Makes (.build depth name source) (.look depth name source)
  /-- A region of the segment's own name is looked through on the same level. -/
  | again {depth : Nat} {scope xml : Text} {l : Region.Located} :
    l ∈ Region.all xml → l.region.name = scope →
    Makes (.look depth scope xml) (.look depth scope l.region.inner)
  /-- The segment of any other region is built one level deeper. -/
  | child {depth : Nat} {scope xml : Text} {l : Region.Located} :
    l ∈ Region.all xml → l.region.name ≠ scope →
    Makes (.look depth scope xml) (.build (depth + 1) l.region.name l.region.outer)

/-- The number of a call, of which every level has three: a segment is built, a text is looked through
that has a region of the segment's name, and one is looked through that has none. -/
def Visit.rank : Visit → Nat
  | build depth _ _ => 3 * depth + 1
  | look depth scope xml =>
    if ∃ l ∈ Region.all xml, l.region.name = scope then 3 * depth + 2 else 3 * depth + 3

@[simp] theorem Visit.rank_build (depth : Nat) (name source : Text) :
    (build depth name source).rank = 3 * depth + 1 := rfl

theorem Visit.rank_look_bounds (depth : Nat) (scope xml : Text) :
    3 * depth + 2 ≤ (look depth scope xml).rank ∧ (look depth scope xml).rank ≤ 3 * depth + 3 := by
  rw [rank]
  split <;> omega

theorem Visit.rank_bounds (v : Visit) : 3 * v.depth < v.rank ∧ v.rank ≤ 3 * v.depth + 3 := by
  cases v with
  | build depth name source =>
    rw [rank, Visit.depth]
    omega
  | look depth scope xml =>
    have := rank_look_bounds depth scope xml
    rw [Visit.depth]
    omega

/-- A call has a higher rank than the one that made it. -/
theorem Makes.rank_lt {u v : Visit} (h : Makes u v) : u.rank < v.rank := by
  cases h with
  | @look depth name source =>
    have := Visit.rank_look_bounds depth name source
    rw [Visit.rank_build]
    omega
  | @again depth scope xml l mem own =>
    -- what is looked through again is the last text on its level: it has no region of the name
    have last : ¬ ∃ m ∈ Region.all l.region.inner, m.region.name = scope := fun ⟨m, inside, same⟩ =>
      Region.name_ne_of_mem_all_inner mem inside (same.trans own.symm)
    rw [Visit.rank, Visit.rank, if_pos ⟨l, mem, own⟩, if_neg last]
    omega
  | @child depth scope xml =>
    have := Visit.rank_look_bounds depth scope xml
    rw [Visit.rank_build]
    omega

/-- The highest rank is that of a segment on the first level that is too deep. -/
def rankLimit : Nat := 3 * (depthLimit + 1) + 1

/-- A text is looked through on no deeper level than the limit, so nothing goes beyond the level below. -/
theorem Makes.rank_le {u v : Visit} (h : Makes u v) (bounded : u.rank ≤ rankLimit) :
    v.rank ≤ rankLimit := by
  rw [rankLimit] at *
  cases h with
  | @look depth name source allowed =>
    have := Visit.rank_look_bounds depth name source
    omega
  | @again depth scope xml l =>
    have := Visit.rank_look_bounds depth scope xml
    have := Visit.rank_look_bounds depth scope l.region.inner
    omega
  | @child depth scope xml =>
    have := Visit.rank_look_bounds depth scope xml
    rw [Visit.rank_build]
    omega

/-! ## Calls that are open at once -/

/-- Calls each of which was made by the next one in the list, down to the call that discovery starts
with. -/
inductive Nested (name source : Text) : List Visit → Prop
  | first : Nested name source [.build 0 name source]
  | made {u v : Visit} {above : List Visit} : Nested name source (u :: above) → Makes u v →
    Nested name source (v :: u :: above)

variable {name source : Text} {stack : List Visit}

namespace Nested

theorem rank_le (h : Nested name source stack) : ∀ v ∈ stack, v.rank ≤ rankLimit := by
  induction h with
  | first => simp [rankLimit]
  | made _ makes ih =>
    exact List.forall_mem_cons.2 ⟨makes.rank_le (ih _ List.mem_cons_self), ih⟩

theorem pairwise (h : Nested name source stack) : stack.Pairwise fun v u => u.rank < v.rank := by
  induction h with
  | first => exact List.pairwise_singleton _ _
  | made _ makes ih =>
    refine List.pairwise_cons.2 ⟨fun w mem => ?_, ih⟩
    rcases List.mem_cons.1 mem with rfl | mem
    · exact makes.rank_lt
    · exact (List.rel_of_pairwise_cons ih mem).trans makes.rank_lt

end Nested

/-- Calls of descending rank are no more than there are ranks for them. -/
theorem length_le_of_ranks {low high : Nat} (descending : stack.Pairwise fun v u => u.rank < v.rank)
    (ranks : ∀ v ∈ stack, low < v.rank ∧ v.rank ≤ high) : stack.length ≤ high - low := by
  have distinct : (stack.map Visit.rank).Nodup :=
    List.pairwise_map.2 (descending.imp fun less => Nat.ne_of_gt less)
  have inside : (stack.map Visit.rank).toFinset ⊆ Finset.Ioc low high := by
    intro n mem
    obtain ⟨v, memv, rfl⟩ := List.mem_map.1 (List.mem_toFinset.1 mem)
    exact Finset.mem_Ioc.2 (ranks v memv)
  calc stack.length = (stack.map Visit.rank).toFinset.card := by
        rw [List.toFinset_card_of_nodup distinct, List.length_map]
    _ ≤ (Finset.Ioc low high).card := Finset.card_le_card inside
    _ = high - low := Nat.card_Ioc low high

namespace Nested

/-- No more calls are open at once than there are ranks. -/
theorem length_le (h : Nested name source stack) : stack.length ≤ rankLimit := by
  have ranks : ∀ v ∈ stack, 0 < v.rank ∧ v.rank ≤ rankLimit := fun v mem =>
    ⟨Nat.zero_lt_of_lt v.rank_bounds.1, h.rank_le v mem⟩
  exact length_le_of_ranks h.pairwise ranks

/-- Three of them at most are on one level. -/
theorem length_level_le (h : Nested name source stack) (depth : Nat) :
    (stack.filter fun v => v.depth = depth).length ≤ 3 := by
  have ranks : ∀ v ∈ stack.filter fun v => v.depth = depth,
      3 * depth < v.rank ∧ v.rank ≤ 3 * depth + 3 := by
    intro v mem
    have level : v.depth = depth := of_decide_eq_true (List.mem_filter.1 mem).2
    exact level ▸ v.rank_bounds
  have := length_le_of_ranks (h.pairwise.sublist List.filter_sublist) ranks
  omega

end Nested

/-- No calls go on for ever, each made by the one before. -/
theorem not_endless (calls : Nat → Visit) (first : calls 0 = .build 0 name source) :
    ¬ ∀ n, Makes (calls n) (calls (n + 1)) := by
  intro makes
  have bounds : ∀ n, n < (calls n).rank ∧ (calls n).rank ≤ rankLimit := by
    intro n
    induction n with
    | zero => simp [first, rankLimit]
    | succ n ih => exact ⟨Nat.lt_of_le_of_lt ih.1 (makes n).rank_lt, (makes n).rank_le ih.2⟩
  have := bounds rankLimit
  omega

/-! ## The discovery call by call -/

/-- An answer, and for every call that was made on the way the calls that were open then, it first. -/
structure Traced (α : Type) where
  answer : Except Error α
  calls : List (List Visit)

namespace Traced

variable {α β ι : Type}

/-- What follows an error is not done. -/
def bind (t : Traced α) (next : α → Traced β) : Traced β :=
  match t.answer with
  | .ok a => ⟨(next a).answer, t.calls ++ (next a).calls⟩
  | .error cause => ⟨.error cause, t.calls⟩

instance : Monad Traced where
  pure a := ⟨.ok a, []⟩
  bind := bind

/-- A call is made. -/
def call (stack : List Visit) : Traced Unit :=
  ⟨.ok (), [stack]⟩

/-- An error without further calls. -/
def fail (cause : Error) : Traced α :=
  ⟨.error cause, []⟩

@[simp] theorem answer_pure (a : α) : (pure a : Traced α).answer = pure a := rfl

@[simp] theorem answer_call (stack : List Visit) : (call stack).answer = pure () := rfl

@[simp] theorem answer_bind (t : Traced α) (next : α → Traced β) :
    (t >>= next).answer = t.answer >>= fun a => (next a).answer := by
  obtain ⟨answer, calls⟩ := t
  cases answer <;> rfl

theorem answer_foldlM (step : β → ι → Traced β) (is : List ι) (b : β) :
    (is.foldlM step b).answer = is.foldlM (fun b i => (step b i).answer) b := by
  induction is generalizing b with
  | nil => rfl
  | cons i is ih => simp only [List.foldlM_cons, answer_bind, ih]

/-- Whenever a call is made, the calls that are open are nested in a discovery of the name and text. -/
def Within (name source : Text) (t : Traced α) : Prop :=
  ∀ stack ∈ t.calls, Nested name source stack

theorem within_pure (a : α) : (pure a : Traced α).Within name source := fun _ mem => nomatch mem

theorem within_fail (cause : Error) : (fail cause : Traced α).Within name source :=
  fun _ mem => nomatch mem

theorem within_call (h : Nested name source stack) : (call stack).Within name source := fun _ mem =>
  List.mem_singleton.1 mem ▸ h

theorem Within.bind {t : Traced α} {next : α → Traced β} (h : t.Within name source)
    (later : ∀ a, (next a).Within name source) : (t >>= next).Within name source := by
  obtain ⟨answer, calls⟩ := t
  intro stack mem
  cases answer with
  | error cause => exact h stack mem
  | ok a =>
    rcases List.mem_append.1 mem with mem | mem
    · exact h stack mem
    · exact later a stack mem

theorem within_foldlM {step : β → ι → Traced β} {is : List ι}
    (h : ∀ i ∈ is, ∀ b, (step b i).Within name source) (b : β) :
    (is.foldlM step b).Within name source := by
  induction is generalizing b with
  | nil => exact within_pure b
  | cons i is ih =>
    rw [List.foldlM_cons]
    exact (h i List.mem_cons_self b).bind fun b => ih (fun j mem => h j (List.mem_cons_of_mem i mem)) b

end Traced

/-- Looks through a text for the children of a segment and puts them behind those that were found
before, which keep other regions of their names from becoming children. -/
def look (child : List Visit → Region → Traced Segment) (depth : Nat) (above : List Visit)
    (scope xml : Text) (found : List Segment) : Traced (List Segment) := do
  let stack := .look depth scope xml :: above
  Traced.call stack
  (Region.all xml).attach.foldlM (fun found ⟨l, _⟩ =>
    if l.region.name = scope then look child depth stack scope l.region.inner found
    else if l.region.name ∈ found.map Segment.name then pure found
    else do return found ++ [← child stack l.region]) found
termination_by xml.length
decreasing_by exact Region.length_inner_lt ‹_›

/-- Builds the segment of a text on a level, inside of the calls `above`. -/
def build (depth : Nat) (above : List Visit) (name source : Text) : Traced Segment := do
  let stack := .build depth name source :: above
  Traced.call stack
  if depthLimit < depth then Traced.fail (.nestingTooDeep name depthLimit)
  else do
    let children ← look (fun stack r => build (depth + 1) stack r.name r.outer) depth stack name source []
    return .node (Fragment.ofRegion name source) children
termination_by depthLimit + 1 - depth
decreasing_by omega

variable {child : List Visit → Region → Traced Segment} {depth : Nat} {scope : Text}

/-! ### What is open -/

theorem within_look {above : List Visit} {xml : Text} {found : List Segment}
    (inside : Nested name source (.look depth scope xml :: above))
    (built : ∀ stack r, Nested name source (.build (depth + 1) r.name r.outer :: stack) →
      (child stack r).Within name source) :
    (look child depth above scope xml found).Within name source := by
  rw [look]
  refine (Traced.within_call inside).bind fun _ =>
    Traced.within_foldlM (fun ⟨l, mem⟩ _ found => ?_) found
  dsimp only
  split
  · next own =>
    have := Region.length_inner_lt mem
    exact within_look (inside.made (.again mem own)) built
  · next other =>
    split
    · exact Traced.within_pure _
    · exact (built _ _ (inside.made (.child mem other))).bind fun _ => Traced.within_pure _
termination_by xml.length

theorem within_build {depth : Nat} {n xml : Text} {above : List Visit}
    (inside : Nested name source (.build depth n xml :: above)) :
    (build depth above n xml).Within name source := by
  rw [build]
  refine (Traced.within_call inside).bind fun _ => ?_
  split
  · exact Traced.within_fail _
  · next allowed =>
    have looked := inside.made (.look (Nat.le_of_not_lt allowed))
    exact (within_look looked fun _ _ deeper => within_build deeper).bind fun _ =>
      Traced.within_pure _
termination_by depthLimit + 1 - depth

/-! ### What is answered -/

variable {answer : Region → Except Error Segment}

/-- Adds the segment of a region to those that were found, if none of them has its name. -/
def gather (answer : Region → Except Error Segment) (found : List Segment) (r : Region) :
    Except Error (List Segment) :=
  if r.name ∈ found.map Segment.name then .ok found else (answer r).map fun c => found ++ [c]

theorem foldlM_flatMap {m : Type → Type} [Monad m] [LawfulMonad m] {α β γ : Type}
    (step : β → γ → m β) (f : α → List γ) (as : List α) (b : β) :
    (as.flatMap f).foldlM step b = as.foldlM (fun b a => (f a).foldlM step b) b := by
  induction as generalizing b with
  | nil => rfl
  | cons a as ih => simp only [List.flatMap_cons, List.foldlM_append, List.foldlM_cons, ih]

/-- A text that is looked through again adds its regions where it stands, so all that is found is found in
the order of `innerRegions`. -/
theorem answer_look (children : ∀ stack r, (child stack r).answer = answer r) (above : List Visit)
    (xml : Text) (found : List Segment) : (look child depth above scope xml found).answer
      = (innerRegions scope xml).foldlM (gather answer) found := by
  rw [look, innerRegions, foldlM_flatMap]
  simp only [Traced.answer_bind, Traced.answer_call, pure_bind, Traced.answer_foldlM]
  congr 1
  funext found l
  obtain ⟨l, mem⟩ := l
  have := Region.length_inner_lt mem
  dsimp only
  split
  · exact answer_look children _ l.region.inner found
  · rw [List.foldlM_cons, gather]
    split
    · rfl
    · simp only [Traced.answer_bind, Traced.answer_pure, children]
      cases answer l.region <;> rfl
termination_by xml.length

/-- The regions that have none of the names. -/
def unnamed (names : List Text) (rs : List Region) : List Region :=
  rs.filter fun r => r.name ∉ names

theorem unnamed_nil (rs : List Region) : unnamed [] rs = rs :=
  List.filter_eq_self.2 fun _ _ => decide_eq_true List.not_mem_nil

theorem unnamed_of_mem {names : List Text} {r : Region} (rs : List Region) (known : r.name ∈ names) :
    unnamed names (firstOfName (r :: rs)) = unnamed names (firstOfName rs) := by
  rw [firstOfName, unnamed, unnamed, List.filter_cons_of_neg (by simp [known]), List.filter_filter]
  refine List.filter_congr fun q _ => ?_
  by_cases same : q.name = r.name <;> simp [same, known]

theorem unnamed_of_notMem {names : List Text} {r : Region} (rs : List Region)
    (new : r.name ∉ names) :
    unnamed names (firstOfName (r :: rs)) = r :: unnamed (names ++ [r.name]) (firstOfName rs) := by
  rw [firstOfName, unnamed, unnamed, List.filter_cons_of_pos (by simp [new]), List.filter_filter]
  refine congrArg _ (List.filter_congr fun q _ => ?_)
  by_cases same : q.name = r.name <;> simp [same]

/-- Gathering keeps the first region of every name that was not found before. -/
theorem foldlM_gather (named : ∀ r c, answer r = .ok c → c.name = r.name) (rs : List Region)
    (found : List Segment) : rs.foldlM (gather answer) found =
      ((unnamed (found.map Segment.name) (firstOfName rs)).mapM answer).map fun cs => found ++ cs := by
  induction rs generalizing found with
  | nil => exact congrArg Except.ok (List.append_nil found).symm
  | cons r rs ih =>
    rw [List.foldlM_cons, gather]
    by_cases known : r.name ∈ found.map Segment.name
    · rw [if_pos known, unnamed_of_mem rs known]
      exact ih found
    · rw [if_neg known, unnamed_of_notMem rs known, List.mapM_cons]
      cases built : answer r with
      | error cause => rfl
      | ok c =>
        have names : found.map Segment.name ++ [r.name] = (found ++ [c]).map Segment.name := by
          rw [List.map_append, List.map_singleton, named r c built]
        change rs.foldlM (gather answer) (found ++ [c]) = _
        rw [ih, names]
        cases (unnamed ((found ++ [c]).map Segment.name) (firstOfName rs)).mapM answer with
        | error cause => rfl
        | ok cs => exact congrArg Except.ok (List.append_assoc found [c] cs)

/-- What is answered by the call for a segment on some level, in terms of the levels that are left. -/
def answerOn (depth : Nat) (name source : Text) : Except Error Segment :=
  if depthLimit < depth then .error (.nestingTooDeep name depthLimit)
  else parse name source (depthLimit - depth)

theorem name_of_answerOn {depth : Nat} {name source : Text} {c : Segment}
    (h : answerOn depth name source = .ok c) : c.name = name := by
  rw [answerOn] at h
  split at h
  · cases h
  · obtain ⟨_, rfl, -⟩ := parse_cases h
    rfl

/-- The limit in terms of levels: what is answered for a segment is what is answered for its children on
the level below. -/
theorem answerOn_eq {depth : Nat} (allowed : depth ≤ depthLimit) (name source : Text) :
    answerOn depth name source =
      ((childRegions name source).mapM fun r => answerOn (depth + 1) r.name r.outer).map
        (.node (Fragment.ofRegion name source)) := by
  rw [answerOn, if_neg (Nat.not_lt_of_le allowed)]
  rcases Nat.eq_or_lt_of_le allowed with rfl | less
  · rw [Nat.sub_self, parse]
    cases childRegions name source with
    | nil => rfl
    | cons r rs =>
      rw [List.mapM_cons, answerOn, if_pos (Nat.lt_succ_self _)]
      rfl
  · obtain ⟨room, e⟩ : ∃ room, depthLimit - depth = room + 1 := ⟨depthLimit - depth - 1, by omega⟩
    have below : depthLimit - (depth + 1) = room := by omega
    simp only [answerOn, if_neg (Nat.not_lt_of_le (Nat.succ_le_of_lt less)), below]
    rw [e, parse]

/-- The calls answer what the limited discovery answers. -/
theorem answer_build (depth : Nat) (above : List Visit) (name source : Text) :
    (build depth above name source).answer = answerOn depth name source := by
  rw [build, Traced.answer_bind]
  split
  · next deep => rw [answerOn, if_pos deep]; rfl
  · next allowed =>
    have children (stack : List Visit) (r : Region) :
        (build (depth + 1) stack r.name r.outer).answer = answerOn (depth + 1) r.name r.outer :=
      answer_build (depth + 1) stack r.name r.outer
    rw [answerOn_eq (Nat.le_of_not_lt allowed), Traced.answer_call]
    simp only [pure_bind, Traced.answer_bind, Traced.answer_pure, answer_look children,
      foldlM_gather fun r c built => name_of_answerOn built]
    rw [List.map_nil, unnamed_nil, childRegions]
    cases (firstOfName (innerRegions name source)).mapM fun r => answerOn (depth + 1) r.name r.outer <;>
      rfl
termination_by depthLimit + 1 - depth

/-- **How deep a discovery descends.**  Inside of a region of the segment's own name no region of that name
is complete, wherever it is opened, so when its inner text is looked through none is found that is looked
through again.  Of calls that each made the next at most three work on one level, and at most 196 are open
at once, three on every level down to the limit and one below it, however long the text is; none go on for
ever.  These are the calls that discovery makes on its way to its segment or its error. -/
theorem discovery_bounded (name source : Text) :
    (∀ xml, ∀ l ∈ Region.all xml, l.region.name = name →
      (∀ x, ¬ Region.Opened name l.region.inner x) ∧
        ∀ m ∈ Region.all l.region.inner, m.region.name ≠ name) ∧
    (∀ stack, Nested name source stack →
      (∀ depth, (stack.filter fun v => v.depth = depth).length ≤ 3) ∧ stack.length ≤ 196) ∧
    (∀ visits : Nat → Visit, visits 0 = .build 0 name source →
      ¬ ∀ n, Makes (visits n) (visits (n + 1))) ∧
    (build 0 [] name source).answer = ofRegion name source ∧
      ∀ stack ∈ (build 0 [] name source).calls, Nested name source stack := by
  refine ⟨fun xml l mem own => ⟨fun x => ?_, fun m inside => ?_⟩,
    fun stack nested => ⟨nested.length_level_le, nested.length_le⟩, not_endless,
    answer_build 0 [] name source, within_build .first⟩
  · obtain ⟨_, _, outside⟩ := Region.standsIn_of_mem_all mem
    exact own ▸ Region.not_opened_inner outside.region x
  · exact own ▸ Region.name_ne_of_mem_all_inner mem inside

end Segment

end DocumentMerge
