import DocumentMerge.Proofs.Bindings.Lookup
import DocumentMerge.Proofs.MergeData.Expansion
import DocumentMerge.Proofs.Segment.Emptied

/-!
# How earlier rows reach a later one

Rows of data are merged into one segment after the other, and a later row should not show what an
earlier one said.  Of the output of earlier rows nothing is left: every merge empties the children,
so a segment that is only filled by data is `Rested` between two rows.  But values stay bound, as
they do for any user of a segment, and a row that does not bind a variable shows the value that it
finds.

So the statement is about two runs.  Two histories of a segment may have left different values; a
row *settles* the difference (`Settles`) if it binds whatever differs before it is used: on the
segment itself by its values and images, on a child that it lists by the first row that is listed,
and on any other child nothing may differ.

* `rested_of_mergeRow`: rows keep a segment rested.
* `settled_rows_agree`: the induction over the data.  A row that settles the difference adds the
  same text to both segments, and afterwards nothing differs any more.
-/

namespace DocumentMerge

open Segment (Action andThen Reachable Sound Quiet Rested)

namespace MergeData

/-! ## Rows keep a segment rested -/

theorem rested_of_mergeRows {σ : Session} (none : σ.working = none) {rows : List MergeData}
    (each : ∀ r ∈ rows, ∀ {s t : Segment}, Sound s → Rested s →
      mergeRow r s σ = (.ok (), t, σ) → Rested t)
    {c d : Segment} (sound : Sound c) (rested : Rested c)
    (done : mergeRows rows c σ = (.ok (), d, σ)) : Rested d := by
  induction rows generalizing c with
  | nil =>
    rw [mergeRows_nil] at done
    cases done
    exact rested
  | cons r rows ih =>
    rw [mergeRows_cons] at done
    obtain ⟨_, e, υ, here, later⟩ := Segment.andThen_eq_ok done
    obtain rfl := (tame_mergeRow r).still_eq here none
    exact ih (fun q mem => each q (List.mem_cons_of_mem _ mem))
      (sound.of_skeleton ((tame_mergeRow r).skeleton_eq here))
      (each r List.mem_cons_self sound rested here) later

/-- After a row nothing waits below the segment, if nothing did before. -/
theorem rested_of_mergeRow {σ : Session} (none : σ.working = none) (r : MergeData) :
    ∀ {s t : Segment}, Sound s → Rested s → mergeRow r s σ = (.ok (), t, σ) → Rested t := by
  induction r using induct with
  | row values images segments ih =>
    rintro ⟨own, cs⟩ t sound rested done
    obtain ⟨-, fills, new, -, rfl⟩ := mergeRow_cases none sound.names done
    refine Segment.rested_merged fun d mem => ?_
    obtain ⟨c, memc, rfl⟩ := List.mem_map.1 mem
    refine rested_of_mergeRows none ?_ (sound.child memc) (rested c memc).rested
      (mergeRows_of_fills none (fills c memc))
    intro q memq
    obtain ⟨p, memp, memq⟩ := exists_of_mem_rowsFor memq
    exact ih p memp q memq

/-! ## What a row settles -/

/-- The variables that a row binds. -/
def keys (values : List (Text × Json.Value)) (images : List (Text × ImageBinding)) : List Text :=
  values.map Prod.fst ++ images.map Prod.fst

/-- Two segments of one shape differ in no binding that a row may show: on the segments themselves
the row binds what differs, so does the first row of a child that the row lists, and a child that it
does not list differs nowhere. -/
inductive Settles (config : Config) : MergeData → Segment → Segment → Prop
  | row {values : List (Text × Json.Value)} {images : List (Text × ImageBinding)}
    {segments : List (Text × List MergeData)} {s t : Segment} :
    (∀ tag, (∀ key ∈ keys values images, tag ≠ config.tag key) →
      s.own.values.bindings.get? tag = t.own.values.bindings.get? tag) →
    (∀ p ∈ s.children.zip t.children, rowsFor p.1.own.name segments = [] →
      p.1.emptied = p.2.emptied) →
    (∀ p ∈ s.children.zip t.children, ∀ r rows, rowsFor p.1.own.name segments = r :: rows →
      Settles config r p.1 p.2) →
    Settles config (.row values images segments) s t

/-- Where nothing differs there is nothing to settle. -/
theorem settles_of_emptied_eq (config : Config) (r : MergeData) :
    ∀ {s t : Segment}, s.emptied = t.emptied → Settles config r s t := by
  induction r using induct with
  | row values images segments ih =>
    intro s t same
    have below : s.children.map Segment.emptied = t.children.map Segment.emptied := by
      rw [← Segment.children_emptied, same, Segment.children_emptied]
    refine .row (fun tag _ => ?_) (fun p mem _ => Segment.eq_of_mem_zip_of_map_eq below p mem) ?_
    · rw [← Segment.bindings_emptied, same, Segment.bindings_emptied]
    · intro p mem r rows listed
      obtain ⟨q, memq, memr⟩ := exists_of_mem_rowsFor (listed ▸ List.mem_cons_self)
      exact ih q memq r memr (Segment.eq_of_mem_zip_of_map_eq below p mem)

/-- Every variable of a row that was bound is among those for which something was stored. -/
theorem exists_stored {values : List (Text × Json.Value)} {images : List (Text × ImageBinding)}
    {disk : Disk} (works : ∀ a ∈ actions values images, ∃ e, a.stored? disk = some e) {key : Text}
    (mem : key ∈ keys values images) :
    ∃ e ∈ (actions values images).filterMap (Action.stored? disk), e.1 = key := by
  rcases List.mem_append.1 mem with mem | mem
  · obtain ⟨⟨k, value⟩, memv, rfl⟩ := List.mem_map.1 mem
    refine ⟨(k, Markup.encodeValue true (valueText value)), List.mem_filterMap.2 ?_, rfl⟩
    exact ⟨.bind k (valueText value) true,
      List.mem_append_left _ (List.mem_map.2 ⟨(k, value), memv, rfl⟩), rfl⟩
  · obtain ⟨⟨k, image⟩, memi, rfl⟩ := List.mem_map.1 mem
    have mema : Action.bindImage k image.path image.placement ∈ actions values images :=
      List.mem_append_right _ (List.mem_map.2 ⟨(k, image), memi, rfl⟩)
    obtain ⟨e, stored⟩ := works _ mema
    refine ⟨e, List.mem_filterMap.2 ⟨_, mema, stored⟩, ?_⟩
    rw [Action.stored?] at stored
    split at stored
    · cases stored
      rfl
    · cases stored

/-- After a row nothing differs in what the row binds, nor in anything else if it settles that. -/
theorem bound_eq {values : List (Text × Json.Value)} {images : List (Text × ImageBinding)}
    {σ : Session} {a b : Bindings}
    (works : ∀ a ∈ actions values images, ∃ e, a.stored? σ.disk = some e)
    (settled : ∀ tag, (∀ key ∈ keys values images, tag ≠ σ.config.tag key) →
      a.get? tag = b.get? tag) : bound values images σ a = bound values images σ b := by
  refine Bindings.ext_get? fun tag => Bindings.get?_foldl_put (fun t other => settled t ?_) tag
  intro key mem
  obtain ⟨e, meme, rfl⟩ := exists_stored works mem
  exact other e meme

/-! ## Two runs -/

/-- A row adds the same to two segments of one shape if it settles the difference between them, and
leaves none. -/
def Agrees (σ : Session) (r : MergeData) : Prop :=
  ∀ {s t s' t' : Segment}, Sound s → s.skeleton = t.skeleton → Rested s → Rested t →
    Settles σ.config r s t → mergeRow r s σ = (.ok (), s', σ) → mergeRow r t σ = (.ok (), t', σ) →
    s'.emptied = t'.emptied ∧
      ∃ text, s'.own.output = s.own.output ++ text ∧ t'.own.output = t.own.output ++ text

/-- So do several rows, if the first one settles the difference. -/
theorem rows_agree {σ : Session} (none : σ.working = none) {rows : List MergeData}
    (agrees : ∀ r ∈ rows, Agrees σ r) {c d c' d' : Segment} (sound : Sound c)
    (shape : c.skeleton = d.skeleton) (restedc : Rested c) (restedd : Rested d)
    (first : ∀ r rest, rows = r :: rest → Settles σ.config r c d)
    (unlisted : rows = [] → c.emptied = d.emptied)
    (donec : mergeRows rows c σ = (.ok (), c', σ)) (doned : mergeRows rows d σ = (.ok (), d', σ)) :
    c'.emptied = d'.emptied ∧
      ∃ text, c'.own.output = c.own.output ++ text ∧ d'.own.output = d.own.output ++ text := by
  induction rows generalizing c d with
  | nil =>
    rw [mergeRows_nil] at donec doned
    cases donec
    cases doned
    exact ⟨unlisted rfl, [], by simp, by simp⟩
  | cons r rows ih =>
    rw [mergeRows_cons] at donec doned
    obtain ⟨_, c₁, υ, herec, laterc⟩ := Segment.andThen_eq_ok donec
    obtain rfl := (tame_mergeRow r).still_eq herec none
    obtain ⟨_, d₁, υ', hered, laterd⟩ := Segment.andThen_eq_ok doned
    obtain rfl := (tame_mergeRow r).still_eq hered none
    obtain ⟨same, text, addedc, addedd⟩ := agrees r List.mem_cons_self sound shape restedc restedd
      (first r rows rfl) herec hered
    have shapec := (tame_mergeRow r).skeleton_eq herec
    have shaped := (tame_mergeRow r).skeleton_eq hered
    have soundd : Sound d := sound.of_skeleton shape.symm
    obtain ⟨same', text', addedc', addedd'⟩ :=
      ih (fun q mem => agrees q (List.mem_cons_of_mem _ mem)) (sound.of_skeleton shapec)
        (by rw [shapec, shaped, shape]) (rested_of_mergeRow none r sound restedc herec)
        (rested_of_mergeRow none r soundd restedd hered)
        (fun q _ _ => settles_of_emptied_eq _ q same) (fun _ => same) laterc laterd
    refine ⟨same', text ++ text', ?_, ?_⟩
    · rw [addedc', addedc, List.append_assoc]
    · rw [addedd', addedd, List.append_assoc]

/-- What the lists of rows make of a child is the same in both runs, and so is what the child then
puts into the row of its parent. -/
theorem filled_agrees {segments : List (Text × List MergeData)} {σ : Session} {c d : Segment}
    (none : σ.working = none) (agrees : ∀ r ∈ rowsFor c.own.name segments, Agrees σ r)
    (sound : Sound c) (shape : c.skeleton = d.skeleton) (quietc : Quiet c) (quietd : Quiet d)
    (listed : ∀ r rows, rowsFor c.own.name segments = r :: rows → Settles σ.config r c d)
    (unlisted : rowsFor c.own.name segments = [] → c.emptied = d.emptied)
    (fillsc : Fills segments σ c) (fillsd : Fills segments σ d) :
    (filled segments σ c).emptied = (filled segments σ d).emptied ∧
      (filled segments σ c).gift = (filled segments σ d).gift := by
  have donec := mergeRows_of_fills none fillsc
  have doned := mergeRows_of_fills none fillsd
  rw [← Segment.name_eq_of_skeleton_eq shape] at doned
  obtain ⟨same, text, addedc, addedd⟩ :=
    rows_agree none agrees sound shape quietc.rested quietd.rested listed unlisted donec doned
  refine ⟨same, ?_⟩
  have sourcec := Segment.source_eq_of_skeleton_eq ((tame_mergeRows _).skeleton_eq donec)
  have sourced := Segment.source_eq_of_skeleton_eq ((tame_mergeRows _).skeleton_eq doned)
  have source := Segment.source_eq_of_skeleton_eq shape
  cases rows : rowsFor c.own.name segments with
  | nil =>
    -- without rows the child gives its own row, with bindings that differ nowhere
    rw [rows, mergeRows_nil] at donec doned
    have samec : c = filled segments σ c := congrArg (fun answer => answer.2.1) donec
    have samed : d = filled segments σ d := congrArg (fun answer => answer.2.1) doned
    rw [← samec, ← samed, quietc.gift_eq, quietd.gift_eq, source,
      Segment.row_eq_of_emptied_eq quietc.rested quietd.rested (unlisted rows)]
  | cons q rest =>
    -- otherwise it gives what waits in it, which is what the rows added
    rw [rows] at donec doned
    rw [Segment.gift, Segment.gift, Segment.settled_of_accumulating (state_of_mergeRows donec),
      Segment.settled_of_accumulating (state_of_mergeRows doned), sourcec, sourced, source,
      addedc, addedd, quietc.output_eq, quietd.output_eq]

/-- Every row agrees on two segments between which it settles the difference. -/
theorem settled_rows_agree {σ : Session} (none : σ.working = none) (r : MergeData) :
    Agrees σ r := by
  induction r using induct with
  | row values images segments ih =>
    rintro ⟨own, cs⟩ ⟨own', ds⟩ s' t' sound shape restedc restedd settles dones donet
    have soundt : Sound (.node own' ds) := sound.of_skeleton shape.symm
    have shapes : cs.map Segment.skeleton = ds.map Segment.skeleton := by
      simpa using congrArg Segment.children shape
    have lengths : cs.length = ds.length := by
      simpa using congrArg List.length shapes
    have name : own.name = own'.name := Segment.name_eq_of_skeleton_eq shape
    have source : own.source = own'.source := Segment.source_eq_of_skeleton_eq shape
    obtain ⟨works, fillsc, new, boundc, rfl⟩ := mergeRow_cases none sound.names dones
    obtain ⟨-, fillsd, new', boundd, rfl⟩ := mergeRow_cases none soundt.names donet
    obtain ⟨tags, unlisted, listed⟩ := settles
    have bindings : new.bindings = new'.bindings := by
      rw [boundc, boundd]
      exact bound_eq works tags
    have child : ∀ p ∈ cs.zip ds,
        (filled segments σ p.1).emptied = (filled segments σ p.2).emptied ∧
          (filled segments σ p.1).gift = (filled segments σ p.2).gift := by
      rintro ⟨c, d⟩ mem
      obtain ⟨memc, memd⟩ := List.of_mem_zip mem
      refine filled_agrees none (fun q memq => ?_) (sound.child memc)
        (Segment.eq_of_mem_zip_of_map_eq shapes (c, d) mem) (restedc c memc) (restedd d memd)
        (listed (c, d) mem) (unlisted (c, d) mem) (fillsc c memc) (fillsd d memd)
      obtain ⟨p, memp, memq⟩ := exists_of_mem_rowsFor memq
      exact ih p memp q memq
    have emptied : (cs.map (filled segments σ)).map Segment.emptied
        = (ds.map (filled segments σ)).map Segment.emptied := by
      rw [List.map_map, List.map_map]
      exact Segment.map_eq_map_of_zip lengths fun p mem => (child p mem).1
    have gifts : (cs.map (filled segments σ)).map Segment.gift
        = (ds.map (filled segments σ)).map Segment.gift := by
      rw [List.map_map, List.map_map]
      exact Segment.map_eq_map_of_zip lengths fun p mem => (child p mem).2
    constructor
    · rw [Segment.emptied_merged, Segment.emptied_merged]
      exact Segment.emptied_eq name source bindings emptied
    · have same : Segment.row (.node { own with values := new } (cs.map (filled segments σ)))
          = Segment.row (.node { own' with values := new' } (ds.map (filled segments σ))) :=
        Segment.row_congr name source bindings gifts
      refine ⟨_, Segment.output_merged _, ?_⟩
      exact (Segment.output_merged _).trans (congrArg (own'.output ++ ·) same.symm)

/-- **How rows influence each other.**  Two histories of rows are merged into one segment of a
template.  Then a row adds the same text after both if it settles what the histories left different
in the bindings.  No output of an earlier row shows up in it.  Where there is no working copy that
could refuse a picture, the row also succeeds after both histories or after neither. -/
theorem text_after_histories {name source : Text} {room : Nat} {s s₁ s₂ t₁ : Segment}
    {σ τ₁ τ₂ υ₁ : Session} {rows₁ rows₂ : List MergeData} {r : MergeData}
    (built : Segment.parse name source room = .ok s)
    (history₁ : mergeRows rows₁ s σ = (.ok (), s₁, τ₁))
    (history₂ : mergeRows rows₂ s σ = (.ok (), s₂, τ₂))
    (settles : Settles σ.config r s₁ s₂) (done₁ : mergeRow r s₁ τ₁ = (.ok (), t₁, υ₁)) :
    ∃ text, t₁.own.output = s₁.own.output ++ text ∧
      (∀ t₂ υ₂, mergeRow r s₂ τ₂ = (.ok (), t₂, υ₂) → t₂.own.output = s₂.own.output ++ text) ∧
      (σ.working = none → ∃ t₂, mergeRow r s₂ τ₂ = (.ok (), t₂, τ₂)) := by
  have quiet := Segment.quiet_of_parse built
  have sound := Segment.sound_of_parse built
  have history {rows : List MergeData} {u : Segment} {τ : Session}
      (done : mergeRows rows s σ = (.ok (), u, τ)) :
      Rested u ∧ u.skeleton = s.skeleton ∧ τ.detached = σ.detached :=
    ⟨rested_of_mergeRows rfl (fun r _ => rested_of_mergeRow rfl r) sound quiet.rested
      ((tame_mergeRows rows).detached done), (tame_mergeRows rows).skeleton_eq done,
      (tame_mergeRows rows).session_eq done⟩
  obtain ⟨rested₁, shape₁, same₁⟩ := history history₁
  obtain ⟨rested₂, shape₂, same₂⟩ := history history₂
  have shape : s₁.skeleton = s₂.skeleton := shape₁.trans shape₂.symm
  have detached₁ := (tame_mergeRow r).detached done₁
  rw [same₁] at detached₁
  -- both runs are compared on the detached session, where the second one succeeds too
  obtain ⟨_, u, detached₂⟩ := (tame_mergeRow r).alike rfl shape detached₁
  have agrees : Agrees σ.detached r := settled_rows_agree rfl r
  obtain ⟨-, text, added₁, added₂⟩ :=
    agrees (sound.of_skeleton shape₁) shape rested₁ rested₂ settles detached₁ detached₂
  refine ⟨text, added₁, fun t₂ υ₂ done₂ => ?_, fun none => ?_⟩
  · have again := (tame_mergeRow r).detached done₂
    rw [same₂, detached₂] at again
    cases again
    exact added₂
  · obtain rfl := (tame_mergeRows rows₁).still_eq history₁ none
    obtain rfl := (tame_mergeRows rows₂).still_eq history₂ none
    obtain ⟨_, t₂, done₂⟩ := (tame_mergeRow r).alike none shape done₁
    exact ⟨t₂, done₂⟩

/-- A row after an earlier one, or as the first one: it binds what the earlier one bound, in the
segment and in the child. -/
theorem text_after_histories_bound :
    let source :=
      "[!-- BEGIN s --]\x7ba\x7d<[!-- BEGIN c --]\x7bx\x7d[!-- END c --]>[!-- END s --]".toList
    let s := Segment.used "s".toList source []
    let cell (x : String) : MergeData := .row [("x".toList, .string x.toList)] [] []
    let line (a : String) (cells : List MergeData) : MergeData :=
      .row [("a".toList, .string a.toList)] [] [("c".toList, cells)]
    let session := Session.alone Disk.empty
    let worn := mergeRows [line "1" [cell "5"]] s session
    let answer := mergeRow (line "2" [cell "6", cell "7"]) worn.2.1 worn.2.2
    worn.2.1.own.output = "1<5>".toList ∧ answer.2.1.own.output = "1<5>2<67>".toList ∧
      ∃ text, answer.2.1.own.output = worn.2.1.own.output ++ text ∧
        (∀ t υ, mergeRow (line "2" [cell "6", cell "7"]) s session = (.ok (), t, υ) →
          t.own.output = s.own.output ++ text) ∧
        (session.working = none →
          ∃ t, mergeRow (line "2" [cell "6", cell "7"]) s session = (.ok (), t, session)) := by
  intro source s cell line session worn answer
  have built : Segment.ofRegion "s".toList source = .ok s :=
    Segment.ofRegion_eq_ok_used (by decide +kernel)
  have history : worn = (.ok (), worn.2.1, worn.2.2) :=
    Segment.eq_ok_of_toOption (by decide +kernel)
  have done : answer = (.ok (), answer.2.1, answer.2.2) :=
    Segment.eq_ok_of_toOption (by decide +kernel)
  have entries : worn.2.1.own.values.bindings.entries = [("\x7ba\x7d".toList, "1".toList)] ∧
      s.own.values.bindings.entries = [] := by decide +kernel
  have below : ∀ p ∈ worn.2.1.children.zip s.children,
      (p.1.own.name = "c".toList ∧ p.1.children.length = 0) ∧
      p.1.own.values.bindings.entries = [("\x7bx\x7d".toList, "5".toList)] ∧
      p.2.own.values.bindings.entries = [] := by decide +kernel
  have bound {tag key value : Text} {a b : Bindings} (ha : a.entries = [(key, value)])
      (hb : b.entries = []) (other : tag ≠ key) : a.get? tag = b.get? tag := by
    simp [Bindings.get?, ha, hb, Keyed.find?, other]
  have settles : Settles session.config (line "2" [cell "6", cell "7"]) worn.2.1 s := by
    refine .row (fun tag other => ?_) (fun p mem none => ?_) fun p mem r rest first => ?_
    · exact bound entries.1 entries.2 (other "a".toList (by decide))
    · rw [(below p mem).1.1, rowsFor_cons_self] at none
      cases none
    · obtain ⟨⟨name, leaf⟩, worn, fresh⟩ := below p mem
      rw [name, rowsFor_cons_self] at first
      cases first
      have leaf : p.1.children.zip p.2.children = [] := by
        rw [List.length_eq_zero_iff.1 leaf, List.zip_nil_left]
      refine .row (fun tag other => ?_) ?_ ?_
      · exact bound worn fresh (other "x".toList (by decide))
      · exact fun q mem => absurd (leaf ▸ mem) List.not_mem_nil
      · exact fun q mem => absurd (leaf ▸ mem) List.not_mem_nil
  have nothing : mergeRows [] s session = (.ok (), s, session) := by
    rw [mergeRows_nil]
    rfl
  exact ⟨by decide +kernel, by decide +kernel,
    text_after_histories built history nothing settles done⟩

/-- A value of an earlier row shows up in a row that does not bind the variable: after the one
history the row without entries adds the earlier value, and without it the tag as it stands in the
text. -/
theorem text_after_histories_unbound :
    let source := "[!-- BEGIN s --]\x7ba\x7d[!-- END s --]".toList
    let s := Segment.used "s".toList source []
    let session := Session.alone Disk.empty
    let worn := mergeRows [.row [("a".toList, .string "1".toList)] [] []] s session
    let after := mergeRow MergeData.empty worn.2.1 worn.2.2
    let alone := mergeRow MergeData.empty s session
    Segment.ofRegion "s".toList source = .ok s ∧ worn.1.toOption = some () ∧
      mergeRows [] s session = (.ok (), s, session) ∧ after.1.toOption = some () ∧
      alone.1.toOption = some () ∧ ¬ ∃ text,
        after.2.1.own.output = worn.2.1.own.output ++ text ∧
          alone.2.1.own.output = s.own.output ++ text := by
  intro source s session worn after alone
  have added : worn.2.1.own.output = "1".toList ∧ after.2.1.own.output = "11".toList ∧
      s.own.output = [] ∧ alone.2.1.own.output = "\x7ba\x7d".toList := by decide +kernel
  refine ⟨Segment.ofRegion_eq_ok_used (by decide +kernel), by decide +kernel, ?_,
    by decide +kernel, by decide +kernel, ?_⟩
  · rw [mergeRows_nil]
    rfl
  · rintro ⟨text, first, second⟩
    obtain ⟨before, grown, fresh, left⟩ := added
    rw [grown, before] at first
    rw [left, fresh] at second
    rw [List.nil_append] at second
    rw [← second] at first
    exact absurd first (by decide)


end MergeData

end DocumentMerge
