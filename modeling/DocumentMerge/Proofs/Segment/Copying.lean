import DocumentMerge.Proofs.Disk.Following
import DocumentMerge.Proofs.Package.Editing
import DocumentMerge.Proofs.Segment.Failing
import DocumentMerge.Proofs.Text.Positions

/-!
# Pictures that a merge copies

A merge copies the pictures of every segment that it expands into the package, each segment before
its children.  A picture whose member is there already is passed over, so of several pictures with
one name the first one counts, and a member that was there before counts more than any of them.

* `Picture.Usable`: the image of a picture can be read, and the picture has the name of its file.
* `expanded` are the segments that a merge expands, and `copies` their pictures, in order.
* `Copied` says what is in a package after pictures were copied into one; pictures that are copied
  one after the other are copied together (`Copied.trans`).
* `copied_merge`: if all pictures of a tree are usable and the package can be written, a merge
  succeeds, and `copies` are the pictures that were copied.
-/

namespace DocumentMerge

open Zip (Held)
open Archive (contentOf Ordinary Keeps Edits)

/-! ## Pictures that can be copied -/

namespace Picture

/-- The image can be read, and the picture has the name of its file. -/
structure Usable (disk : Disk) (p : Picture) : Prop where
  readable : ∃ content, disk.read p.source = .ok content
  named : Path.fileName? p.source = some p.file

variable {disk : Disk} {p : Picture}

theorem Usable.exists_bytes (h : p.Usable disk) : ∃ data, p.bytes? disk = some data := by
  obtain ⟨content, read⟩ := h.readable
  exact ⟨_, bytes?_of_read read⟩

/-- The member of a picture is an ordinary file. -/
theorem Usable.ordinary (h : p.Usable disk) : Ordinary p.entry := by
  obtain ⟨mem, moves, -⟩ := Path.mem_steps_of_fileName? h.named
  have free := Path.slash_notMem_of_mem_steps mem
  have nonempty : p.file ≠ [] := by
    rintro empty
    rw [empty] at moves
    cases moves
  constructor
  · rw [Zip.isDirectoryName, entry, Part.picture, List.getLast?_append_of_ne_nil _ nonempty]
    cases last : p.file.getLast? with
    | none => rfl
    | some c =>
      have : c ≠ '/' := by
        rintro rfl
        exact free (List.mem_of_getLast? last)
      simpa using this
  · rw [entry_eq_cons]
    exact fun same => absurd (List.cons.inj same).1 (by decide)

/-- The name of the member is short enough for a package. -/
theorem Usable.size_entry_le (h : p.Usable disk) : p.entry.toBytes.size ≤ Zip.nameLimit := by
  obtain ⟨content, read⟩ := h.readable
  have short := Disk.byteSize_fileName_le read h.named
  rw [← Text.size_toBytes] at short
  have split : p.entry.toBytes.size = Part.picturesDirectory.toBytes.size + p.file.toBytes.size := by
    simp [entry, Part.picture, Text.toBytes]
  have front : Part.picturesDirectory.toBytes.size = 9 := by decide +kernel
  rw [split, front]
  simp only [Disk.stepLimit] at short
  rw [Zip.nameLimit]
  omega

/-- The bytes of the first of several pictures that has an entry. -/
def firstBytes? (disk : Disk) (pictures : List Picture) (entry : Text) : Option ByteArray :=
  (pictures.find? fun p => p.entry == entry).bind (bytes? disk)

/-- The bytes are the same on disks where the images are. -/
theorem firstBytes?_congr {disk' : Disk} {ps : List Picture}
    (same : ∀ p ∈ ps, disk.read p.source = disk'.read p.source) (entry : Text) :
    firstBytes? disk ps entry = firstBytes? disk' ps entry := by
  rw [firstBytes?, firstBytes?]
  cases found : ps.find? fun p => p.entry == entry with
  | none => rfl
  | some p =>
    rw [Option.bind_some, Option.bind_some, bytes?, bytes?,
      same p (List.mem_of_find?_eq_some found)]

theorem firstBytes?_append {ps qs : List Picture} (usable : ∀ p ∈ ps, p.Usable disk)
    (entry : Text) :
    firstBytes? disk (ps ++ qs) entry
      = (firstBytes? disk ps entry).or (firstBytes? disk qs entry) := by
  rw [firstBytes?, firstBytes?, firstBytes?, List.find?_append]
  cases found : ps.find? fun p => p.entry == entry with
  | none => rfl
  | some p =>
    obtain ⟨data, bytes⟩ := (usable p (List.mem_of_find?_eq_some found)).exists_bytes
    simp [bytes]

/-- If one of several usable pictures has an entry, there are bytes for it. -/
theorem exists_firstBytes? {ps : List Picture} (usable : ∀ p ∈ ps, p.Usable disk) {p : Picture}
    (mem : p ∈ ps) : ∃ q ∈ ps, q.entry = p.entry ∧ ∃ data, q.bytes? disk = some data ∧
      firstBytes? disk ps p.entry = some data := by
  cases found : ps.find? fun q => q.entry == p.entry with
  | none =>
    rw [List.find?_eq_none] at found
    exact absurd (beq_self_eq_true _) (found p mem)
  | some q =>
    have there := List.mem_of_find?_eq_some found
    obtain ⟨data, bytes⟩ := (usable q there).exists_bytes
    refine ⟨q, there, by simpa using List.find?_some found, data, bytes, ?_⟩
    rw [firstBytes?, found, Option.bind_some, bytes]

end Picture

/-! ## Packages into which pictures were copied -/

/-- What is in a package after pictures were copied into one: what was there, and else the first
picture of the name. -/
structure Copied (disk : Disk) (pictures : List Picture) (before after : List Held) : Prop where
  keeps : Keeps (pictures.map Picture.entry) before after
  content : ∀ {name}, Ordinary name → contentOf after name =
    (contentOf before name).or (Picture.firstBytes? disk pictures name)

namespace Copied

variable {disk : Disk} {ps qs : List Picture} {before middle after : List Held}

theorem refl (members : List Held) : Copied disk [] members members where
  keeps := .refl _ _
  content _ := by simp [Picture.firstBytes?]

theorem trans (usable : ∀ p ∈ ps, p.Usable disk) (first : Copied disk ps before middle)
    (next : Copied disk qs middle after) : Copied disk (ps ++ qs) before after where
  keeps := by
    rw [List.map_append]
    exact (first.keeps.mono (List.subset_append_left _ _)).trans
      (next.keeps.mono (List.subset_append_right _ _))
  content ordinary := by
    rw [next.content ordinary, first.content ordinary, Option.or_assoc,
      Picture.firstBytes?_append usable]

end Copied

/-- Pictures are copied by one edit, unless there are none. -/
theorem Session.embed_eq_withOpen {σ : Session} {members : List Held} {pictures : List Picture}
    (held : σ.Holds members) (nonempty : pictures ≠ []) :
    σ.embed pictures = σ.withOpen (WorkingCopy.putPictures σ.disk true pictures) := by
  obtain ⟨w, -, working, -⟩ := held
  rw [embed, withOpen, working]
  simp only [WorkingCopy.embed]
  rw [if_neg (by simpa using nonempty)]

theorem Session.embed_nil {σ : Session} {members : List Held} (held : σ.Holds members) :
    σ.embed [] = (.ok (), σ) := by
  obtain ⟨config, working, disk⟩ := σ
  obtain ⟨w, -, rfl, -⟩ := held
  rfl

/-- Whatever package the first session holds, the second one holds a package with at least these
names. -/
def Session.Extends (σ τ : Session) : Prop :=
  ∀ members, σ.Holds members →
    ∃ after, τ.Holds after ∧ members.map Held.name ⊆ after.map Held.name

namespace Session.Extends

theorem refl (σ : Session) : σ.Extends σ :=
  fun members held => ⟨members, held, List.Subset.refl _⟩

theorem trans {σ τ υ : Session} (first : σ.Extends τ) (next : τ.Extends υ) : σ.Extends υ := by
  intro members held
  obtain ⟨middle, held, names⟩ := first members held
  obtain ⟨after, held, names'⟩ := next middle held
  exact ⟨after, held, List.Subset.trans names names'⟩

theorem withOpen {α : Type} {touched : List Text} {edit : Archive → Except Error α × Archive}
    (σ : Session) (edits : Edits touched edit) : σ.Extends (σ.withOpen edit).2 := by
  intro members held
  obtain ⟨after, held, kept, -⟩ := Holds.withOpen held edits
  exact ⟨after, held, kept.names⟩

theorem embed (σ : Session) (pictures : List Picture) : σ.Extends (σ.embed pictures).2 := by
  intro members held
  by_cases empty : pictures = []
  · subst empty
    rw [embed_nil held]
    exact refl σ members held
  · rw [embed_eq_withOpen held empty]
    exact withOpen σ (Edits.putPictures _ _ _) members held

end Session.Extends

/-- Pictures that are usable are copied. -/
theorem Session.copied_embed {σ : Session} {members : List Held} {pictures : List Picture}
    (ready : σ.Ready members) (usable : ∀ p ∈ pictures, p.Usable σ.disk) :
    ∃ τ after, σ.embed pictures = (.ok (), τ) ∧ τ.Ready after ∧
      Copied σ.disk pictures members after := by
  by_cases empty : pictures = []
  · subst empty
    exact ⟨σ, members, embed_nil ready.holds, ready, .refl _⟩
  · rw [embed_eq_withOpen ready.holds empty]
    have edits := Edits.putPictures σ.disk true pictures
    obtain ⟨location, cases⟩ := withOpen_cases ready.holds edits
    have opened : (⟨some location, members, false⟩ : Archive).location.isSome = true := rfl
    obtain ⟨b, put⟩ := WorkingCopy.putPictures_of_readable true opened
      fun p mem => (usable p mem).readable
    have found := WorkingCopy.contentOf_putPictures_keep opened put
    have kept := edits.keeps ⟨some location, members, false⟩
    have clean := edits.clean ⟨some location, members, false⟩
    rw [put] at kept clean
    have short : ∀ name ∈ pictures.map Picture.entry, name.toBytes.size ≤ Zip.nameLimit := by
      intro name mem
      obtain ⟨p, here, rfl⟩ := List.mem_map.1 mem
      exact (usable p here).size_entry_le
    have fits' := Archive.fits_of_fresh ready.fits kept.fresh short
    have staged := ready.staged.withOpen edits
    rcases cases _ put with ⟨same, answer, held⟩ | ⟨-, -, answer, held⟩ | ⟨-, long, -⟩
    · refine ⟨_, members, Prod.ext answer rfl, ⟨held, staged, ready.fits⟩, .refl _ _, ?_⟩
      intro name _
      have here := found name
      rw [show b = _ from clean same] at here
      exact here
    · refine ⟨_, _, Prod.ext answer rfl, ⟨held, staged, Archive.all_fits_rewritten fits'⟩,
        kept.trans (.rewritten _ _), ?_⟩
      intro name ordinary
      rw [Archive.contentOf_rewritten ordinary]
      exact found name
    · rw [long ready.staged] at fits'
      cases fits'

namespace Segment

/-! ## The segments that a merge expands -/

mutual

/-- The fragments that a merge expands: the segment's own, then those of its drained children. -/
def expanded : Segment → List Fragment
  | .node own children => own :: expandedAll children

/-- The fragments that are expanded when the given children are settled. -/
def expandedAll : List Segment → List Fragment
  | [] => []
  | .node own inner :: rest =>
    (match own.state with
      | .drained => expanded (.node own inner)
      | .accumulating => []) ++ expandedAll rest

end

theorem own_mem_expanded (s : Segment) : s.own ∈ expanded s := by
  obtain ⟨own, children⟩ := s
  rw [expanded]
  exact List.mem_cons_self

/-- The pictures that a merge copies, in order. -/
def copies (s : Segment) : List Picture :=
  (expanded s).flatMap fun f => f.values.pictures

/-- The pictures that are copied when a child is settled. -/
def copiesOfChild (c : Segment) : List Picture :=
  match c.own.state with
  | .drained => copies c
  | .accumulating => []

theorem expandedAll_pictures (children : List Segment) :
    (expandedAll children).flatMap (fun f => f.values.pictures)
      = children.flatMap copiesOfChild := by
  induction children with
  | nil => rfl
  | cons c rest ih =>
    obtain ⟨own, inner⟩ := c
    rw [expandedAll, List.flatMap_append, ih, List.flatMap_cons, copiesOfChild, own_node]
    cases own.state with
    | drained => rfl
    | accumulating => rfl

theorem copies_node (own : Fragment) (children : List Segment) :
    copies (.node own children) = own.values.pictures ++ children.flatMap copiesOfChild := by
  rw [copies, expanded, List.flatMap_cons, expandedAll_pictures]

/-! ## All pictures of a tree -/

/-- What all nodes have is what the root has, and then what the trees of its children have. -/
theorem flatMap_fragments_node {α : Type} (f : Fragment → List α) (own : Fragment)
    (children : List Segment) :
    (fragments (.node own children)).flatMap f
      = f own ++ children.flatMap fun c => (fragments c).flatMap f := by
  have below (cs : List Segment) :
      (descendants cs).flatMap f = cs.flatMap fun c => (fragments c).flatMap f := by
    induction cs with
    | nil => rfl
    | cons c cs ih => rw [descendants, List.flatMap_append, ih, List.flatMap_cons]
  rw [fragments, List.flatMap_cons, below]

/-- The pictures of all nodes. -/
def allPictures (s : Segment) : List Picture :=
  (fragments s).flatMap fun f => f.values.pictures

theorem allPictures_node (own : Fragment) (children : List Segment) :
    allPictures (.node own children) = own.values.pictures ++ children.flatMap allPictures :=
  flatMap_fragments_node _ own children

theorem allPictures_child_subset {own : Fragment} {children : List Segment} {c : Segment}
    (mem : c ∈ children) : allPictures c ⊆ allPictures (.node own children) := by
  rw [allPictures_node]
  intro p here
  exact List.mem_append_right _ (List.mem_flatMap.2 ⟨c, mem, here⟩)

theorem copies_subset (s : Segment) : copies s ⊆ allPictures s := by
  induction s using induct with
  | node own children ih =>
    rw [copies_node, allPictures_node]
    intro p mem
    rcases List.mem_append.1 mem with own | mem
    · exact List.mem_append_left _ own
    · obtain ⟨c, here, mem⟩ := List.mem_flatMap.1 mem
      rw [copiesOfChild] at mem
      split at mem
      · exact List.mem_append_right _ (List.mem_flatMap.2 ⟨c, here, ih c here mem⟩)
      · exact absurd mem List.not_mem_nil

/-! ## What a merge copies -/

theorem copied_mergeChildren {children : List Segment} (row : Row) {σ : Session}
    {members : List Held}
    (each : ∀ c ∈ children, ∀ {υ : Session} {ms : List Held}, υ.detached = σ.detached →
      υ.Ready ms → ∃ τ after, merge c υ = (.ok (), c.merged, τ) ∧ τ.Ready after ∧
        Copied σ.disk (copies c) ms after)
    (usable : ∀ c ∈ children, ∀ p ∈ copies c, p.Usable σ.disk)
    {υ : Session} (same : υ.detached = σ.detached) (ready : υ.Ready members) :
    ∃ row' ds τ after, mergeChildren row children υ = (.ok (), row', ds, τ) ∧ τ.Ready after ∧
      Copied σ.disk (children.flatMap copiesOfChild) members after := by
  induction children generalizing row υ members with
  | nil => exact ⟨row, [], υ, members, mergeChildren_nil _ _, ready, .refl _⟩
  | cons c rest ih =>
    have here : ∃ d υ' middle, settle c υ = (.ok (), d, υ') ∧ υ'.Ready middle ∧
        Copied σ.disk (copiesOfChild c) members middle := by
      cases state : c.own.state with
      | drained =>
        obtain ⟨τ, after, done, holds, copied⟩ := each c List.mem_cons_self same ready
        refine ⟨_, τ, after, (settle_of_drained state υ).trans done, holds, ?_⟩
        rwa [copiesOfChild, state]
      | accumulating =>
        refine ⟨c, υ, members, settle_of_accumulating state υ, ready, ?_⟩
        rw [copiesOfChild, state]
        exact .refl _
    obtain ⟨d, υ', middle, settled, ready', copied⟩ := here
    have same' : υ'.detached = σ.detached := by
      have kept : (settle c υ).2.2.detached = υ.detached := by
        rw [settle]
        split
        · exact detached_merge c υ
        · rfl
      rw [settled] at kept
      exact kept.trans same
    have usable' : ∀ p ∈ copiesOfChild c, p.Usable σ.disk := by
      intro p mem
      rw [copiesOfChild] at mem
      split at mem
      · exact usable c List.mem_cons_self p mem
      · exact absurd mem List.not_mem_nil
    obtain ⟨row', ds, τ, after, later, holds, copied'⟩ :=
      ih (row.take d.own) (fun c mem => each c (List.mem_cons_of_mem _ mem))
        (fun c mem => usable c (List.mem_cons_of_mem _ mem)) same' ready'
    rw [mergeChildren_cons_of_ok settled, later, List.flatMap_cons]
    exact ⟨row', _, τ, after, rfl, holds, copied.trans usable' copied'⟩

/-- A merge of a tree with usable pictures succeeds, and copies the pictures of all segments that it
expands. -/
theorem copied_merge {s : Segment} {σ : Session} {members : List Held} (ready : σ.Ready members)
    (usable : ∀ p ∈ s.allPictures, p.Usable σ.disk) :
    ∃ τ after, merge s σ = (.ok (), s.merged, τ) ∧ τ.Ready after ∧
      Copied σ.disk (copies s) members after := by
  induction s using induct generalizing σ members with
  | node own children ih =>
    have below {c : Segment} (mem : c ∈ children) : ∀ p ∈ c.allPictures, p.Usable σ.disk :=
      fun p here => usable p (allPictures_child_subset mem here)
    have usable' : ∀ p ∈ own.values.pictures, p.Usable σ.disk := by
      intro p mem
      refine usable p ?_
      rw [allPictures_node]
      exact List.mem_append_left _ mem
    obtain ⟨σ', middle, embedded, ready', copied⟩ := σ.copied_embed ready usable'
    have same : σ'.detached = σ.detached := by
      have := σ.detached_embed own.values.pictures
      rwa [embedded] at this
    have each : ∀ c ∈ children, ∀ {υ : Session} {ms : List Held}, υ.detached = σ.detached →
        υ.Ready ms → ∃ τ after, merge c υ = (.ok (), c.merged, τ) ∧ τ.Ready after ∧
          Copied σ.disk (copies c) ms after := by
      intro c mem υ ms same ready
      have read := Session.read_eq_of_detached_eq same
      obtain ⟨τ, after, done, ready, copied⟩ := ih c mem ready fun p here =>
        ⟨(read p.source).symm ▸ (below mem p here).readable, (below mem p here).named⟩
      refine ⟨τ, after, done, ready, copied.keeps, fun ordinary => ?_⟩
      rw [copied.content ordinary, Picture.firstBytes?_congr fun p _ => read p.source]
    obtain ⟨row, ds, τ, after, done, holds, copied'⟩ :=
      copied_mergeChildren own.firstRow each
        (fun c mem p here => below mem p (copies_subset c here)) same ready'
    have finished : merge (.node own children) σ = (.ok (), .node (own.finish row) ds, τ) := by
      rw [merge, embedded]
      simp only
      rw [Fragment.firstRow] at done
      rw [done]
    refine ⟨τ, after, ?_, holds, ?_⟩
    · rw [finished, eq_merged_of_merge finished]
    · rw [copies_node]
      exact copied.trans usable' copied'

/-! ## What no merge loses -/

theorem within_extends (σ : Session) (s : Segment) :
    Within σ.Extends (fun _ => True) merge s :=
  within_merge fun _ _ τ h => ⟨h.trans (.embed τ _), fun _ _ => trivial⟩

theorem extends_mergeChildren (row : Row) (children : List Segment) (σ : Session) :
    σ.Extends (mergeChildren row children σ).2.2.2 :=
  (within_mergeChildren (fun c _ => within_extends σ c) row (.refl σ)).1

/-- A merge, also one that fails, takes no name from the package. -/
theorem extends_merge (s : Segment) (σ : Session) : σ.Extends (merge s σ).2.2 :=
  (within_extends σ s σ (.refl σ)).1

end Segment

end DocumentMerge
