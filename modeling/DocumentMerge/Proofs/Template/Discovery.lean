import DocumentMerge.Proofs.Template.Shape

/-!
# Discovery rebuilds the tree

The segments of a text are found by search: the nearest closing marker, outermost regions first,
the first region of every name.  In the text of a template none of this has a choice to make.

* `innerRegions_eq`: one level of discovery as one scan, without positions.
* `values_render`: the regions that the scan finds are the children of the node, in order.
* `parse_render`: so `Segment.parse` gives the segment of every node of the tree, with nothing bound
  and nothing merged.  The induction is on the number of levels that are still allowed.
-/

namespace DocumentMerge

/-! ## One level -/

theorem Region.map_region_locate (position : Nat) (hits : List (Text × Region)) :
    (Region.locate position hits).map Region.Located.region = hits.map Prod.snd := by
  induction hits generalizing position with
  | nil => rfl
  | cons hit hits ih =>
    obtain ⟨gap, region⟩ := hit
    rw [Region.locate]
    simp only [List.map_cons, ih]

/-- One level of discovery is one scan for regions. -/
theorem Segment.innerRegions_eq (scope xml : Text) :
    Segment.innerRegions scope xml =
      ((Region.pattern fun _ => true).values xml).flatMap fun r =>
        if r.name = scope then Segment.innerRegions scope r.inner else [r] := by
  have regions : (Region.all xml).map Region.Located.region
      = (Region.pattern fun _ => true).values xml :=
    Region.map_region_locate 0 _
  rw [Segment.innerRegions, ← regions, List.flatMap_map]
  simp only [List.flatMap_subtype, List.unattach_attach]

/-- Regions with other names than the segment's are not looked through. -/
theorem Segment.flatMap_of_other_names {scope : Text} {regions : List Region}
    (h : ∀ r ∈ regions, r.name ≠ scope) :
    (regions.flatMap fun r => if r.name = scope then Segment.innerRegions scope r.inner else [r])
      = regions := by
  induction regions with
  | nil => rfl
  | cons r rs ih =>
    rw [List.flatMap_cons, if_neg (h r List.mem_cons_self),
      ih fun s mem => h s (List.mem_cons_of_mem _ mem)]
    rfl

theorem Segment.firstOfName_of_nodup {regions : List Region}
    (h : (regions.map Region.name).Nodup) : Segment.firstOfName regions = regions := by
  induction regions with
  | nil => rfl
  | cons r rs ih =>
    rw [List.map_cons, List.nodup_cons] at h
    rw [firstOfName, ih h.2, List.filter_eq_self.2]
    intro s mem
    have differ : s.name ≠ r.name := fun e => h.1 (e ▸ List.mem_map_of_mem mem)
    simpa using differ

open Region (IsName Marked canonical wrap)

namespace Items

variable {σ : Type}

/-- The regions of the children of a node. -/
def regions : Items σ → List Region
  | done => []
  | literal _ rest => rest.regions
  | tag _ rest => rest.regions
  | child name _ inner rest => canonical name inner.render :: rest.regions

/-- The segments of the children of a node that nobody has used yet. -/
def segments : Items σ → List Segment
  | done => []
  | literal _ rest => rest.segments
  | tag _ rest => rest.segments
  | child name _ inner rest =>
    .node (Fragment.ofRegion name (wrap name inner.render)) inner.segments :: rest.segments

/-- The names of the children are among the names of the nodes below. -/
theorem names_regions_sublist (items : Items σ) :
    (items.regions.map Region.name).Sublist items.names := by
  induction items with
  | done => exact .slnil
  | literal text rest ih => exact ih
  | tag key rest ih => exact ih
  | child name note inner rest _ ih =>
    exact (ih.trans (List.sublist_append_right inner.names rest.names)).cons_cons name

/-- A node that may have no children has none. -/
theorem regions_of_height_zero {items : Items σ} (h : items.height ≤ 0) :
    items.regions = [] ∧ items.segments = [] := by
  induction items with
  | done => exact ⟨rfl, rfl⟩
  | literal text rest ih => exact ih h
  | tag key rest ih => exact ih h
  | child name note inner rest _ _ =>
    rw [height] at h
    omega

/-- What no scan for markers of a name finds in the text of items without that name. -/
theorem Plain.skips_closing {items : Items σ} (plain : items.Plain) {n : Text} (name : IsName n)
    (other : n ∉ items.names) : (Region.closingPattern n).Skips items.render :=
  plain.marked.skips_closing plain.isName name other

/-- A scan of the text of a node finds its children. -/
theorem values_render {items : Items σ} (plain : items.Plain) (distinct : items.names.Nodup) :
    (Region.pattern fun _ => true).values items.render = items.regions := by
  have walk {t : Text} (free : '[' ∉ t) : (Region.pattern fun _ => true).Skips t :=
    Pattern.BeginsWith.skips_of_notMem (Region.pattern_beginsWith fun _ => true) free
  induction items with
  | done => exact Pattern.values_nil
  | literal text rest ih =>
    rw [render, Pattern.values_append (walk plain.1.bracket), ih plain.2 distinct]
    rfl
  | tag key rest ih =>
    have free := bracket_notMem_tag plain.1.bracket
    rw [render, Pattern.values_append (walk free), ih plain.2 distinct]
    rfl
  | child name note inner rest _ ih =>
    rw [names, List.nodup_cons, List.mem_append, not_or] at distinct
    have named : IsName name := plain.1.1.isName plain.1.2
    have open_ := plain.2.1.skips_closing named distinct.1.1
    rw [render, Pattern.values_of_match (Region.match?_wrap named open_ rfl rest.render),
      ih plain.2.2 (List.nodup_append.1 distinct.2).2.1]
    rfl

/-- The regions directly inside the text of a node are its children. -/
theorem innerRegions_wrap {items : Items σ} {n : Text} (plain : items.Plain) (name : IsName n)
    (distinct : (n :: items.names).Nodup) :
    Segment.innerRegions n (wrap n items.render) = items.regions := by
  rw [List.nodup_cons] at distinct
  have whole : (Region.pattern fun _ => true).match? (wrap n items.render ++ [])
      = some (canonical n items.render, []) :=
    Region.match?_wrap name (plain.skips_closing name distinct.1) rfl []
  rw [List.append_nil] at whole
  -- the scan finds the node itself, whose inner text is searched in its place
  rw [Segment.innerRegions_eq, Pattern.values_of_match whole, Pattern.values_nil, List.flatMap_cons,
    List.flatMap_nil, List.append_nil]
  rw [if_pos (show (canonical n items.render).name = n from rfl), Segment.innerRegions_eq]
  show ((Region.pattern fun _ => true).values items.render).flatMap _ = _
  rw [values_render plain distinct.2]
  have others : ∀ r ∈ items.regions, r.name ≠ n := by
    intro r mem e
    exact distinct.1 (items.names_regions_sublist.subset (e ▸ List.mem_map_of_mem mem))
  exact Segment.flatMap_of_other_names others

theorem childRegions_wrap {items : Items σ} {n : Text} (plain : items.Plain) (name : IsName n)
    (distinct : (n :: items.names).Nodup) :
    Segment.childRegions n (wrap n items.render) = items.regions := by
  rw [Segment.childRegions, innerRegions_wrap plain name distinct]
  exact Segment.firstOfName_of_nodup (distinct.of_cons.sublist items.names_regions_sublist)

/-! ## All levels -/

/-- The children are built if each of them is. -/
theorem mapM_regions {items : Items σ} {room : Nat} (plain : items.Plain)
    (distinct : items.names.Nodup) (height : items.height ≤ room + 1)
    (each : ∀ {inner : Items σ} {n : Text}, inner.Plain → IsName n → (n :: inner.names).Nodup →
      inner.height ≤ room → Segment.parse n (wrap n inner.render) room
        = .ok (.node (Fragment.ofRegion n (wrap n inner.render)) inner.segments)) :
    items.regions.mapM (fun r => Segment.parse r.name r.outer room) = .ok items.segments := by
  induction items with
  | done => rfl
  | literal text rest ih => exact ih plain.2 distinct height
  | tag key rest ih => exact ih plain.2 distinct height
  | child name note inner rest _ ih =>
    rw [Items.height] at height
    rw [names] at distinct
    have here := each plain.2.1 (plain.1.1.isName plain.1.2)
      (distinct.sublist ((List.sublist_append_left _ _).cons_cons name)) (by omega)
    have later := ih plain.2.2 (List.nodup_append.1 distinct.of_cons).2.1 (by omega)
    rw [regions, List.mapM_cons]
    show (Segment.parse name (wrap name inner.render) room >>= _) = _
    rw [here, later]
    rfl

/-- Discovery gives the segments of all nodes, in the shape of the template. -/
theorem parse_render {items : Items σ} {n : Text} {room : Nat} (plain : items.Plain)
    (name : IsName n) (distinct : (n :: items.names).Nodup) (height : items.height ≤ room) :
    Segment.parse n (wrap n items.render) room
      = .ok (.node (Fragment.ofRegion n (wrap n items.render)) items.segments) := by
  induction room generalizing items n with
  | zero =>
    obtain ⟨regions, segments⟩ := regions_of_height_zero height
    rw [Segment.parse, childRegions_wrap plain name distinct, regions, segments]
  | succ room ih =>
    rw [Segment.parse, childRegions_wrap plain name distinct,
      mapM_regions plain distinct.of_cons height ih]
    rfl

end Items

end DocumentMerge
