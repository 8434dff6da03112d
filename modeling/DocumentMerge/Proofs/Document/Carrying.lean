import DocumentMerge.Proofs.Bindings.Passing
import DocumentMerge.Proofs.Document.Effects
import DocumentMerge.Proofs.Document.Listing

/-!
# Values on their way into the saved content

A value that is bound on a segment is put into a row, the row into the rows of the segments above,
the rows of a declared segment into the content, and when the document is saved its own values are
put into the content.  At each of these steps the text is searched as a whole, and what is found in
the value is replaced or taken away like anything else.

* `Place` and `Document.textAt`: a piece of text waits at a node of a segment, or stands in the
  content.
* `Stands v d steps p`: after a run the piece stands at a place, because a merge put it there, because
  the rows of a segment were put into the content, or because it stood there and was spared.
  `Stands.infix_textAt`: so it does.
* `value_carried_iff`: when the document is saved, the piece stays in the content, whatever the
  document's values are, exactly when the substitution passes over it.
-/

namespace DocumentMerge.Document

open Zip (Held)

/-- Where a piece of text can be in the course of a run. -/
inductive Place where
  /-- In the rows that wait at a node of a segment. -/
  | output (path : List Text)
  | content

/-- The text at a place. -/
def textAt (d : Document) : Place → Text
  | .output path => Segment.outputAt path d.root
  | .content => d.content

/-- A call that takes nothing from the text at a place.  A merge takes what waits below its node, and
the content is searched when a segment is put into it and when the document is saved. -/
def Action.Spares (a : Action) : Place → Prop
  | .output place => ∀ name path, a = .onSegment name path .merge → name :: path <+: place →
    name :: path = place
  | .content => ¬ a.Rewrites

theorem prefix_textAt_act {a : Action} {p : Place} (spares : a.Spares p) (d : Document) :
    d.textAt p <+: (a.act d).2.textAt p := by
  cases p with
  | output place => exact prefix_outputAt_act spares d
  | content =>
    rw [textAt, textAt, content_act spares]

/-- A merge on a node adds its row to what waits there. -/
theorem outputAt_of_merge {name : Text} {path : List Text} {d : Document} {n : Segment}
    (found : Segment.at? (name :: path) d.root = some n)
    (done : ((Action.onSegment name path .merge).act d).1 = .ok ()) :
    ((Action.onSegment name path .merge).act d).2.textAt (.output (name :: path))
      = n.own.output ++ n.row := by
  rcases d.onSegment_cases name (Segment.onPath Segment.merge path) with
    ⟨cause, undeclared, -⟩ | ⟨e, declared, cases⟩
  · rw [declareSegment_of_at? found] at undeclared
    cases undeclared
  · rw [declareSegment_of_at? found] at declared
    cases declared
    rcases called : Segment.onChild name (Segment.onPath Segment.merge path) d.root d.session
      with ⟨r, t, τ⟩
    obtain ⟨left, tree, answer⟩ := cases r t τ called
    obtain rfl := (answer ()).1 done
    rw [textAt, Action.act, Segment.Action.call, left, tree]
    exact Segment.outputAt_of_merge found called

/-- What waits in a segment is put into the content in the place of a region. -/
theorem content_of_mergeSegment {d : Document} {name : Text}
    (done : ((Action.mergeSegment name).act d).1 = .ok ()) :
    ∃ m, Region.find? name d.content = some m ∧ ((Action.mergeSegment name).act d).2.content
      = m.before ++ d.textAt (.output [name]) ++ m.after := by
  rw [Action.act] at done ⊢
  rcases put : d.mergeSegment name with ⟨cause | ⟨⟩, e⟩
  · rw [put] at done
    cases done
  · obtain ⟨s, m, found, region, rfl⟩ := exists_of_mergeSegment put
    have waits : d.textAt (.output [name]) = s.own.output := by
      have child : d.root.child? name = some s := found
      rw [textAt, Segment.outputAt_cons, child]
      rfl
    exact ⟨m, region, by rw [waits]⟩

/-- A piece of text stands at a place after a run. -/
inductive Stands (v : Text) (d : Document) : List Action → Place → Prop
  /-- A merge on a node, which carries the piece into its row. -/
  | merged {steps : List Action} {name : Text} {path : List Text} {s : Segment} :
    Segment.at? (name :: path) (run steps d).root = some s → s.Carries v →
    ((Action.onSegment name path .merge).act (run steps d)).1 = .ok () →
    Stands v d (steps ++ [.onSegment name path .merge]) (.output (name :: path))
  /-- The rows of a segment are put into the content. -/
  | delivered {steps : List Action} {name : Text} : Stands v d steps (.output [name]) →
    ((Action.mergeSegment name).act (run steps d)).1 = .ok () →
    Stands v d (steps ++ [.mergeSegment name]) .content
  /-- A segment is put into the content beside the piece. -/
  | beside {steps : List Action} {name : Text} {m : Match Region} : Stands v d steps .content →
    Region.find? name (run steps d).content = some m → v <:+: m.before ∨ v <:+: m.after →
    Stands v d (steps ++ [.mergeSegment name]) .content
  /-- Any other call. -/
  | spared {steps : List Action} {a : Action} {p : Place} : Stands v d steps p → a.Spares p →
    Stands v d (steps ++ [a]) p

/-- After a run the piece is where it stands. -/
theorem Stands.infix_textAt {v : Text} {d : Document} {steps : List Action} {p : Place}
    (h : Stands v d steps p) (sound : d.Sound) : v <:+: (run steps d).textAt p := by
  induction h with
  | @merged steps name path s found carries done =>
    rw [run_append, run, run, outputAt_of_merge found done]
    have sound := (sound.run steps).at? found
    exact (carries.infix_row sound).trans (List.suffix_append _ _).isInfix
  | @delivered steps name _ done ih =>
    obtain ⟨m, -, content⟩ := content_of_mergeSegment done
    rw [run_append, run, run, textAt, content]
    exact ih.trans (List.infix_append _ _ _)
  | @beside steps name m _ found aside ih =>
    rw [run_append, run, run, textAt]
    cases done : ((Action.mergeSegment name).act (run steps d)).1 with
    | error cause =>
      rw [Action.act, (run steps d).atomic_mergeSegment name cause done]
      exact ih
    | ok u =>
      obtain ⟨m', found', content⟩ := content_of_mergeSegment done
      rw [found] at found'
      cases found'
      rw [content]
      rcases aside with before | after
      · exact before.trans (List.prefix_append _ _).isInfix |>.trans (List.prefix_append _ _).isInfix
      · exact after.trans (List.suffix_append _ _).isInfix
  | @spared steps a p _ spares ih =>
    rw [run_append, run, run]
    exact ih.trans (prefix_textAt_act spares _).isInfix

/-- **Values in the saved content.**  A document is opened, used, and saved in the end, and a piece of
text, such as a value of a segment, stands in the content after the run.  Then it is there, and
wherever it is, it stays between what the text before it and the text behind it become if the
substitution of the document's values passes over it.  This is so exactly when it stays whatever the
bound tags are bound to, and in particular if no bound tag overlaps it. -/
theorem value_carried_iff {disk made : Disk} {template : Text} {config : Config} {d : Document}
    {steps : List Action} {last : SaveCall} {file : File} {after : Document} {v : Text}
    (opened : openAt disk template config = (.ok d, made)) (nonempty : v ≠ [])
    (stands : Stands v d steps .content)
    (saved : last.call (run steps d) = (.ok file, after)) :
    v <:+: (run steps d).content ∧ ∀ x y, (run steps d).content = x ++ v ++ y →
      let b := (run steps d).values.bindings
      (b.Passes v y x → file.text? Part.content = some (b.apply x ++ v ++ b.apply y)) ∧
      (b.Passes v y x ↔ ∀ f, (b.revalued f).apply (run steps d).content
        = (b.revalued f).apply x ++ v ++ (b.revalued f).apply y) ∧
      ((∀ tag ∈ b.tags, Text.Clear tag x v y) → b.Passes v y x) := by
  obtain ⟨values, segments⟩ := fresh_of_openAt opened
  have sound : d.Sound := by
    rw [Sound, segments]
    exact fun s mem => absurd mem List.not_mem_nil
  have noEmpty : (run steps d).values.bindings.get? [] = none := by
    refine get?_nil_run ?_ steps
    rw [values]
    rfl
  refine ⟨stands.infix_textAt sound, fun x y split => ⟨fun passes => ?_, ?_, fun clear => ?_⟩⟩
  · rw [(SaveCall.texts_of_call saved).1, split, passes.apply_eq noEmpty]
  · rw [split]
    exact Bindings.passes_iff noEmpty nonempty
  · exact Bindings.passes_of_clear nonempty clear

/-! ## A value that looks like a tag -/

/-- A disk with a template that has a variable and, behind it, a segment with another one. -/
def form : Disk :=
  let texts := [(Part.content, "\x7bd\x7d[!-- BEGIN s --]\x7bx\x7d[!-- END s --]".toList),
    (Part.styles, []), (Part.meta_, []),
    (Part.manifest, "<manifest:manifest></manifest:manifest>".toList)]
  let members := texts.map fun (name, t) => Zip.Member.mk name .stored (Text.toBytes t)
  { Disk.empty with nodes :=
    (Disk.empty.current ++ ["t".toList], .file (.package members)) :: Disk.empty.nodes }

/-- A number is bound at the document and a value on the segment, which is merged and put into the
content. -/
def fillForm (value : Text) : List Action :=
  [.bind "d".toList "1".toList true, .onSegment "s".toList [] (.bind "x".toList value true),
    .onSegment "s".toList [] .merge, .mergeSegment "s".toList]

/-- A value that looks like a tag, but not like a bound one, is saved as it is. -/
theorem value_carried_iff_unbound_tag :
    let v := "\x7ban unbound variable\x7d".toList
    ∃ d made file after, openAt form "t".toList Config.standard = (.ok d, made) ∧
      SaveCall.toFile.call (run (fillForm v) d) = (.ok file, after) ∧
      file.text? Part.content = some ("1".toList ++ v) := by
  intro v
  have opens : (openAt form "t".toList Config.standard).1.toOption.isSome = true := by
    decide +kernel
  have outcome : ∀ d ∈ (openAt form "t".toList Config.standard).1.toOption,
      (∃ n ∈ Segment.at? ["s".toList] (run ((fillForm v).take 2) d).root,
        n.own.name = "s".toList ∧ n.children.isEmpty = true ∧
        n.own.values.bindings.get? "\x7bx\x7d".toList = some v ∧
        n.own.values.bindings.apply n.own.source
          = "[!-- BEGIN s --]".toList ++ v ++ "[!-- END s --]".toList) ∧
      ((Action.onSegment "s".toList [] .merge).act
        (run ((fillForm v).take 2) d)).1.toOption = some () ∧
      ((Action.mergeSegment "s".toList).act
        (run ((fillForm v).take 3) d)).1.toOption = some () ∧
      (SaveCall.toFile.call (run (fillForm v) d)).1.toOption.isSome = true ∧
      (run (fillForm v) d).content = "\x7bd\x7d".toList ++ v ∧
      (run (fillForm v) d).values.bindings
        = Bindings.empty.put "\x7bd\x7d".toList "1".toList := by
    decide +kernel
  rcases opened : openAt form "t".toList Config.standard with ⟨cause | d, made⟩
  · rw [opened] at opens
    cases opens
  · obtain ⟨⟨n, node, name, childless, bound, filled⟩, merges, puts, saves, content, bindings⟩ :=
      outcome d (by rw [opened]; rfl)
    obtain ⟨file, saves⟩ := exists_eq_ok_of_isSome saves
    have childless : n.children = [] := List.isEmpty_iff.1 childless
    have carries : n.Carries v := by
      have enters : n.Enters v n.children "[!-- BEGIN s --]".toList "[!-- END s --]".toList :=
        .value bound filled
      rw [childless] at enters
      refine ⟨[], _, _, enters, fun w marker => ?_⟩
      rw [name] at marker
      exact .of_framed marker.framed (Nat.lt_of_le_of_lt marker.length_le (by decide)) (by decide)
        (by decide) _ _
    have waits : Stands v d ((fillForm v).take 2 ++ [.onSegment "s".toList [] .merge])
        (.output ["s".toList]) := .merged node carries (eq_ok_of_toOption merges)
    have waits : Stands v d ((fillForm v).take 3) (.output ["s".toList]) := waits
    have stands : Stands v d ((fillForm v).take 3 ++ [.mergeSegment "s".toList]) .content :=
      .delivered waits (eq_ok_of_toOption puts)
    have stands : Stands v d (fillForm v) .content := stands
    have nonempty : v ≠ [] := by decide
    obtain ⟨-, kept⟩ := value_carried_iff opened nonempty stands (Prod.ext saves rfl)
    have split : (run (fillForm v) d).content = "\x7bd\x7d".toList ++ v ++ [] := by
      rw [content, List.append_nil]
    have whole := (kept _ _ split).1
    rw [bindings] at whole
    let b := Bindings.empty.put "\x7bd\x7d".toList "1".toList
    have texts : b.apply "\x7bd\x7d".toList = "1".toList ∧ b.apply [] = [] := by decide +kernel
    have found : b.pattern.match? ("\x7bd\x7d".toList ++ ([] ++ v ++ []))
        = some (("\x7bd\x7d".toList, "1".toList), [] ++ v ++ []) := by decide +kernel
    have free : ∀ u ∈ v.tails, u ≠ [] → b.pattern.match? (u ++ []) = none := by decide +kernel
    have passes : b.Passes v [] ("\x7bd\x7d".toList ++ []) :=
      .tag (e := ("\x7bd\x7d".toList, "1".toList)) found
        (.here fun u behind => free u ((List.mem_tails u v).2 behind))
    rw [List.append_nil] at passes
    refine ⟨d, made, file, _, rfl, Prod.ext saves rfl, ?_⟩
    rw [whole passes, texts.1, texts.2, List.append_nil]

/-- A value that looks like a bound tag stands in the content, and is replaced when the document is
saved. -/
theorem value_replaced :
    let v := "\x7bd\x7d".toList
    ∃ d made n file after, openAt form "t".toList Config.standard = (.ok d, made) ∧
      Segment.at? ["s".toList] (run ((fillForm v).take 2) d).root = some n ∧
      n.own.values.bindings.get? "\x7bx\x7d".toList = some v ∧
      (run ((fillForm v).take 3) d).textAt (.output ["s".toList]) = v ∧
      (run (fillForm v) d).content = "\x7bd\x7d".toList ++ v ∧
      SaveCall.toFile.call (run (fillForm v) d) = (.ok file, after) ∧
      file.text? Part.content = some "11".toList ∧ ¬ v <:+: "11".toList := by
  intro v
  have opens : (openAt form "t".toList Config.standard).1.toOption.isSome = true := by
    decide +kernel
  have outcome : ∀ d ∈ (openAt form "t".toList Config.standard).1.toOption,
      (∃ n ∈ Segment.at? ["s".toList] (run ((fillForm v).take 2) d).root,
        n.own.values.bindings.get? "\x7bx\x7d".toList = some v) ∧
      (run ((fillForm v).take 3) d).textAt (.output ["s".toList]) = v ∧
      (run (fillForm v) d).content = "\x7bd\x7d".toList ++ v ∧
      ∃ file ∈ (SaveCall.toFile.call (run (fillForm v) d)).1.toOption,
        file.text? Part.content = some "11".toList := by
    decide +kernel
  rcases opened : openAt form "t".toList Config.standard with ⟨cause | d, made⟩
  · rw [opened] at opens
    cases opens
  · obtain ⟨⟨n, node, bound⟩, waits, content, file, saves, text⟩ := outcome d (by rw [opened]; rfl)
    refine ⟨d, made, n, file, _, rfl, node, bound, waits, content,
      Prod.ext (eq_ok_of_toOption saves) rfl, text, ?_⟩
    rw [← Text.occursIn_iff]
    decide +kernel

end DocumentMerge.Document
