import DocumentMerge.Package.Manifest
import DocumentMerge.Proofs.Markup.Recovering
import DocumentMerge.Proofs.Markup.Tags
import Mathlib.Data.List.Nodup

/-!
# Entries of a manifest

A manifest is read as markup, and new entries are put into it by text search.  The two ways to look at
it agree where the place that the search finds is one where the reader expects a tag.  The entry of the
metadata, or a root end tag, may also stand in a comment; then what is put behind it becomes a part of
the comment, and the reader does not see it.

* `Passes`: the reader goes from one place to another one and finds some paths.  What it finds does not
  depend on what follows (`Passes.relocate`).
* `pathsFrom_pictureLines`: the lines for new files are read as their paths.
* `slot`: where the search puts them.  `Accessible`: the reader comes to this place.
* `updated_iff_accessible`: the update does what it is for exactly in this case
  (`exists_paths_of_accessible`, `paths_of_not_accessible`).
-/

namespace DocumentMerge.Manifest

open Markup (Reader Event Kind Written)

/-! ## Files that are not listed -/

/-- A manifest with lines for some files. -/
def listing (manifest : Text) : List Text → Text
  | [] => manifest
  | file :: more => insertLines manifest ((file :: more).flatMap pictureLine)

theorem listing_of_ne_nil {manifest : Text} {files : List Text} (nonempty : files ≠ []) :
    listing manifest files = insertLines manifest (files.flatMap pictureLine) := by
  obtain ⟨file, more, rfl⟩ := List.exists_cons_of_ne_nil nonempty
  rfl

/-- Files are listed if the manifest can be read, those that it has not listed yet. -/
theorem addPictures_eq {manifest : Text} {known : List Text} (read : paths manifest = .ok known)
    (files : List Text) :
    addPictures manifest files = .ok (listing manifest (unlisted known files)) := by
  rw [addPictures, read]
  simp only
  cases unlisted known files with
  | nil => rfl
  | cons file more => rfl

theorem exists_of_addPictures {manifest after : Text} {files : List Text}
    (h : addPictures manifest files = .ok after) :
    ∃ known, paths manifest = .ok known ∧ after = listing manifest (unlisted known files) := by
  cases read : paths manifest with
  | error cause =>
    rw [addPictures, read] at h
    cases h
  | ok known =>
    rw [addPictures_eq read] at h
    exact ⟨known, rfl, (Except.ok.inj h).symm⟩

theorem mem_unlisted {known files : List Text} {file : Text} :
    file ∈ unlisted known files ↔ file ∈ files ∧ Part.picture file ∉ known := by
  induction files generalizing known with
  | nil => simp [unlisted]
  | cons first files ih =>
    have inj : Part.picture file = Part.picture first ↔ file = first :=
      ⟨List.append_cancel_left, fun same => by rw [same]⟩
    rw [unlisted]
    split
    · next there =>
      have there : Part.picture first ∈ known := by simpa using there
      rw [ih, List.mem_cons]
      refine ⟨fun ⟨mem, away⟩ => ⟨.inr mem, away⟩, ?_⟩
      rintro ⟨rfl | mem, away⟩
      · exact absurd there away
      · exact ⟨mem, away⟩
    · next away =>
      have away : Part.picture first ∉ known := by simpa using away
      rw [List.mem_cons, ih, List.mem_cons, List.mem_cons, inj]
      by_cases same : file = first
      · subst same
        simp [away]
      · simp [same]

theorem nodup_unlisted (known files : List Text) : (unlisted known files).Nodup := by
  induction files generalizing known with
  | nil => exact List.nodup_nil
  | cons file files ih =>
    rw [unlisted]
    split
    · exact ih known
    · rw [List.nodup_cons]
      refine ⟨fun mem => ?_, ih _⟩
      exact (mem_unlisted.1 mem).2 List.mem_cons_self

/-! ## Reading -/

theorem pathsFrom_of_step {found paths : List Text} {r : Reader} {s : Markup.Step}
    (read : r.step? = .ok (some s)) (listed : eventPaths s.event = .ok paths) :
    pathsFrom found r = pathsFrom (paths.reverse ++ found) s.next := by
  rw [pathsFrom]
  split
  · next failed => rw [read] at failed; cases failed
  · next ended => rw [read] at ended; cases ended
  · next s' read' =>
    rw [read] at read'
    cases read'
    rw [listed]

theorem pathsFrom_nil (found opened : List Text) :
    pathsFrom found ⟨opened, []⟩ = .ok found.reverse := by
  rw [pathsFrom]
  rfl

/-- Running text lists nothing, wherever it is cut. -/
theorem pathsFrom_text {t : Text} (plain : '<' ∉ t) (found opened : List Text) (y : Text) :
    pathsFrom found ⟨opened, t ++ y⟩ = pathsFrom found ⟨opened, y⟩ := by
  have skip (c : Char) (s : Text) (other : c ≠ '<') : pathsFrom found ⟨opened, c :: s⟩
      = pathsFrom found ⟨opened, s.dropWhile fun d => d != '<'⟩ :=
    pathsFrom_of_step (Reader.step?_of_text other opened s) rfl
  have here (s : Text) : pathsFrom found ⟨opened, s.dropWhile fun d => d != '<'⟩
      = pathsFrom found ⟨opened, s⟩ := by
    cases s with
    | nil => rfl
    | cons c s =>
      by_cases bracket : c = '<'
      · rw [List.dropWhile_cons_of_neg (by simpa using bracket)]
      · rw [List.dropWhile_cons_of_pos (by simpa using bracket), skip c s bracket]
  cases t with
  | nil => rfl
  | cons c t =>
    rw [List.mem_cons, not_or] at plain
    have pass : ∀ d ∈ t, (d != '<') = true := fun d mem => by
      simpa using ne_of_mem_of_not_mem mem plain.2
    rw [List.cons_append, skip c _ (Ne.symm plain.1), List.dropWhile_append_of_pos pass, here]

/-- The reader goes from one place to another one, and finds some paths. -/
inductive Passes : Reader → List Text → Reader → Prop
  | stop (r : Reader) : Passes r [] r
  | step {r r' : Reader} {s : Markup.Step} {paths more : List Text} :
    r.step? = .ok (some s) → eventPaths s.event = .ok paths → Passes s.next more r' →
    Passes r (paths ++ more) r'

theorem Passes.pathsFrom_eq {r r' : Reader} {paths : List Text} (h : Passes r paths r')
    (found : List Text) : pathsFrom found r = pathsFrom (paths.reverse ++ found) r' := by
  induction h generalizing found with
  | stop r => rfl
  | step read listed _ ih =>
    rw [pathsFrom_of_step read listed, ih, List.reverse_append, List.append_assoc]

/-- **Reading is local.**  What is read up to some place is read there whatever follows. -/
theorem Passes.relocate {r r' : Reader} {paths : List Text} (h : Passes r paths r') :
    ∃ w, r.rest = w ++ r'.rest ∧ ∀ found y,
      pathsFrom found ⟨r.opened, w ++ y⟩ = pathsFrom (paths.reverse ++ found) ⟨r'.opened, y⟩ := by
  induction h with
  | stop r => exact ⟨[], rfl, fun found y => rfl⟩
  | @step r r' s paths more read listed _ ih =>
    obtain ⟨w, split, reads⟩ := ih
    refine ⟨s.written ++ w, ?_, fun found y => ?_⟩
    · rw [(Reader.rest_eq_append read).1, split, List.append_assoc]
    · have here : pathsFrom found ⟨r.opened, s.written ++ (w ++ y)⟩
          = pathsFrom (paths.reverse ++ found) ⟨s.next.opened, w ++ y⟩ := by
        rcases Reader.step?_cases read with ⟨text, same, plain⟩ | ⟨k, written, means⟩
        · rw [text] at listed
          cases listed
          rw [pathsFrom_text plain, same]
          rfl
        · exact pathsFrom_of_step (Reader.step?_of_written written means _) listed
      rw [List.append_assoc, here, reads, List.reverse_append, List.append_assoc]

/-- A manifest that can be read is passed from the beginning to the end. -/
theorem exists_passes {found all : List Text} {r : Reader} (h : pathsFrom found r = .ok all) :
    ∃ paths opened, all = found.reverse ++ paths ∧ Passes r paths ⟨opened, []⟩ := by
  fun_induction pathsFrom found r with
  | case1 => cases h
  | case2 found r ended =>
    cases h
    refine ⟨[], r.opened, (List.append_nil _).symm, ?_⟩
    have nothing : r.rest = [] := by
      rw [Reader.step?] at ended
      split at ended
      · next empty => exact empty
      · split at ended
        · cases ended
        · split at ended <;> cases ended
    obtain ⟨opened, rest⟩ := r
    cases nothing
    exact .stop _
  | case3 => cases h
  | case4 found r s read paths listed ih =>
    obtain ⟨more, opened, rfl, passes⟩ := ih h
    exact ⟨paths ++ more, opened, by simp, .step read listed passes⟩

/-- What was found before does not matter for what is found. -/
theorem exists_of_pathsFrom {found all : List Text} {r : Reader} (h : pathsFrom found r = .ok all) :
    ∃ last, all = found.reverse ++ last ∧
      ∀ found', pathsFrom found' r = .ok (found'.reverse ++ last) := by
  obtain ⟨last, opened, rfl, passes⟩ := exists_passes h
  refine ⟨last, rfl, fun found' => ?_⟩
  rw [passes.pathsFrom_eq, pathsFrom_nil]
  simp

/-! ## The line of a picture -/

/-- The attribute with the media type of a member. -/
def kindAttribute : Text := "manifest:media-type".toList

theorem kindAttribute_ne_pathAttribute : kindAttribute ≠ pathAttribute := by
  decide

theorem attribute_names {key : Text} (h : key = kindAttribute ∨ key = pathAttribute) :
    key ≠ [] ∧ key.all Markup.isNameChar = true := by
  rcases h with rfl | rfl <;> decide

/-- The attributes of the entry of a picture. -/
def pictureAttributes (file : Text) : List Markup.Attribute :=
  [⟨kindAttribute, Markup.escape (mediaType file)⟩,
    ⟨pathAttribute, Markup.escape (Part.picture file)⟩]

theorem pictureLine_eq (file : Text) : pictureLine file
    = '<' :: (Markup.tagText entryElement (pictureAttributes file) ++ "/>".toList) ++ ['\n'] := by
  have regroup (name key key' value value' : Text) :
      '<' :: (Markup.tagText name [⟨key, value⟩, ⟨key', value'⟩] ++ "/>".toList) ++ ['\n']
        = ('<' :: name ++ ' ' :: key ++ "=\"".toList) ++ value
            ++ ("\" ".toList ++ key' ++ "=\"".toList) ++ value' ++ "\"/>\n".toList := by
    simp [Markup.tagText, Markup.attributeText]
  rw [pictureAttributes, regroup]
  rfl

theorem writable_pictureAttributes (file : Text) : Markup.Writable (pictureAttributes file) := by
  have quote (t : Text) : '"' ∉ Markup.escape t := Markup.notMem_escape (by decide) t
  have distinct : [kindAttribute, pathAttribute].Nodup := by
    simp [kindAttribute_ne_pathAttribute]
  refine ⟨distinct, fun a mem => ?_⟩
  rw [pictureAttributes, List.mem_cons, List.mem_singleton] at mem
  rcases mem with rfl | rfl
  · obtain ⟨nonempty, name⟩ := attribute_names (.inl rfl)
    exact ⟨nonempty, name, quote _⟩
  · obtain ⟨nonempty, name⟩ := attribute_names (.inr rfl)
    exact ⟨nonempty, name, quote _⟩

/-- An entry with quoted attributes lists the values of its path attribute. -/
theorem tagPaths_entry {attributes : List Markup.Attribute} (h : Markup.Writable attributes) :
    tagPaths (Markup.tagText entryElement attributes)
      = (attributes.filterMap fun a =>
          if a.key = pathAttribute then some a.value else none).mapM Markup.unescape := by
  have names : entryElement.all Markup.isNameChar = true := by decide
  rw [tagPaths, if_pos (Markup.tagName_tagText names _), Markup.attributes_tagText names h,
    List.filterMap_map]
  rfl

theorem tagPaths_picture (file : Text) :
    tagPaths (Markup.tagText entryElement (pictureAttributes file)) = .ok [Part.picture file] := by
  have values : ((pictureAttributes file).filterMap fun a =>
      if a.key = pathAttribute then some a.value else none) = [Markup.escape (Part.picture file)] := by
    simp only [pictureAttributes, List.filterMap_cons, List.filterMap_nil,
      if_neg kindAttribute_ne_pathAttribute, ↓reduceIte]
  rw [tagPaths_entry (writable_pictureAttributes file), values, List.mapM_cons,
    Markup.unescape_escape]
  rfl

theorem written_entry {attributes : List Markup.Attribute} (h : Markup.Writable attributes) :
    Written (.empty (Markup.tagText entryElement attributes))
      ('<' :: (Markup.tagText entryElement attributes ++ "/>".toList)) := by
  refine Markup.written_tagText (by decide) (fun c first => ?_) (by decide) h
  cases first
  decide

/-- The lines for some files list their pictures. -/
theorem pathsFrom_pictureLines (files found opened : List Text) (y : Text) :
    pathsFrom found ⟨opened, files.flatMap pictureLine ++ y⟩
      = pathsFrom ((files.map Part.picture).reverse ++ found) ⟨opened, y⟩ := by
  induction files generalizing found with
  | nil => rfl
  | cons file files ih =>
    have read := Reader.step?_of_written
      (written_entry (writable_pictureAttributes file))
      (rfl : Reader.meaning opened (.empty _) = .ok (.empty _, opened))
      (['\n'] ++ (files.flatMap pictureLine ++ y))
    rw [List.flatMap_cons, pictureLine_eq, List.append_assoc, List.append_assoc,
      pathsFrom_of_step read (tagPaths_picture file), pathsFrom_text (by decide), ih]
    simp

/-! ## The place of new entries -/

/-- A place in a manifest: the text before it, what keeps new lines apart from it, and the text
behind it. -/
structure Slot where
  before : Text
  gap : Text
  after : Text
  deriving DecidableEq

/-- The place behind the first occurrence of an entry, or else before the last one of a root end tag, or
else at the end. -/
def slotFor (entry root manifest : Text) : Slot :=
  match Text.cutAt? entry manifest with
  | some (before, after) => ⟨before ++ entry, ['\n'], after⟩
  | none =>
    match Text.cutAtLast? root manifest with
    | some (before, after) => ⟨before, [], root ++ after⟩
    | none => ⟨manifest, [], []⟩

/-- The place for new entries. -/
def slot (manifest : Text) : Slot :=
  slotFor metaEntry rootEnd manifest

theorem slotFor_append (entry root manifest : Text) :
    (slotFor entry root manifest).before ++ (slotFor entry root manifest).after = manifest := by
  rw [slotFor]
  split
  · next found => exact (Text.eq_append_of_cutAt? found).symm
  · split
    · next found =>
      obtain ⟨⟨x, y⟩, cut, same⟩ := Option.map_eq_some_iff.1 found
      cases same
      have whole := congrArg List.reverse (Text.eq_append_of_cutAt? cut)
      simpa using whole.symm
    · exact List.append_nil _

theorem slotFor_cases (entry root manifest : Text) :
    (∃ front, (slotFor entry root manifest).before = front ++ entry ∧
        (slotFor entry root manifest).gap = ['\n']) ∨
      (∃ back, (slotFor entry root manifest).after = root ++ back ∧
        (slotFor entry root manifest).gap = []) ∨
      ((slotFor entry root manifest).after = [] ∧ (slotFor entry root manifest).gap = []) := by
  rw [slotFor]
  split
  · exact .inl ⟨_, rfl, rfl⟩
  · split
    · exact .inr (.inl ⟨_, rfl, rfl⟩)
    · exact .inr (.inr ⟨rfl, rfl⟩)

theorem slot_append (manifest : Text) :
    (slot manifest).before ++ (slot manifest).after = manifest :=
  slotFor_append metaEntry rootEnd manifest

/-- The place stands behind the entry of the metadata, or before a root end tag, or at the end. -/
theorem slot_cases (manifest : Text) :
    (∃ front, (slot manifest).before = front ++ metaEntry ∧ (slot manifest).gap = ['\n']) ∨
      (∃ back, (slot manifest).after = rootEnd ++ back ∧ (slot manifest).gap = []) ∨
      ((slot manifest).after = [] ∧ (slot manifest).gap = []) :=
  slotFor_cases metaEntry rootEnd manifest

theorem gap_slot (manifest : Text) :
    (slot manifest).gap = [] ∨ (slot manifest).gap = ['\n'] := by
  rcases slot_cases manifest with ⟨-, -, gap⟩ | ⟨-, -, gap⟩ | ⟨-, gap⟩
  · exact .inr gap
  · exact .inl gap
  · exact .inl gap

theorem insertLines_eq (manifest lines : Text) :
    insertLines manifest lines
      = (slot manifest).before ++ ((slot manifest).gap ++ lines) ++ (slot manifest).after := by
  rw [insertLines, slot, slotFor]
  cases Text.cutAt? metaEntry manifest with
  | some cut => simp
  | none =>
    cases Text.cutAtLast? rootEnd manifest with
    | some cut => simp
    | none => simp

/-! ## What is put in -/

/-- A line has brackets at its ends only. -/
theorem exists_pictureLine_eq (file : Text) :
    ∃ body, pictureLine file = '<' :: body ++ ['/', '>'] ++ ['\n'] ∧ '<' ∉ body ∧ '>' ∉ body := by
  have regroup (front middle kind path : Text) :
      '<' :: front ++ kind ++ middle ++ path ++ "\"/>\n".toList
        = '<' :: (front ++ kind ++ middle ++ path ++ ['"']) ++ ['/', '>'] ++ ['\n'] := by
    simp
  refine ⟨_, regroup "manifest:file-entry manifest:media-type=\"".toList
    "\" manifest:full-path=\"".toList (Markup.escape (mediaType file))
    (Markup.escape (Part.picture file)), ?_, ?_⟩
  · simp only [List.mem_append, not_or]
    exact ⟨⟨⟨⟨by decide, Markup.notMem_escape (by decide) _⟩, by decide⟩,
      Markup.notMem_escape (by decide) _⟩, by decide⟩
  · simp only [List.mem_append, not_or]
    exact ⟨⟨⟨⟨by decide, Markup.notMem_escape (by decide) _⟩, by decide⟩,
      Markup.notMem_escape (by decide) _⟩, by decide⟩

theorem slashed_pictureLine (file : Text) : Markup.Slashed (pictureLine file) := by
  obtain ⟨body, line, -, plain⟩ := exists_pictureLine_eq file
  rw [line]
  refine (Markup.slashed_end ?_).append (Markup.slashed_of_plain (by decide))
  simpa using plain

theorem balanced_pictureLine (file : Text) : Markup.Balanced (pictureLine file) := by
  obtain ⟨body, line, opens, closes⟩ := exists_pictureLine_eq file
  have parts : '<' :: body ++ ['/', '>'] ++ ['\n'] = '<' :: (body ++ ['/']) ++ ['>'] ++ ['\n'] := by
    simp
  rw [line, parts]
  refine (Markup.balanced_bracket (Markup.balanced_of_plain ?_ ?_)).append
    (Markup.balanced_of_plain (by decide) (by decide))
  · simpa using opens
  · simpa using closes

/-- Lines for files end no piece of markup. -/
theorem harmless_pictureLines {gap : Text} (apart : gap = [] ∨ gap = ['\n']) {files : List Text}
    (nonempty : files ≠ []) : Markup.Harmless (gap ++ files.flatMap pictureLine) where
  begins := by
    obtain ⟨file, files, rfl⟩ := List.exists_cons_of_ne_nil nonempty
    rcases apart with rfl | rfl
    · exact ⟨'<', rfl, .inl rfl⟩
    · exact ⟨'\n', rfl, .inr rfl⟩
  ends := by
    obtain ⟨files, file, rfl⟩ := List.eq_nil_or_concat files |>.resolve_left nonempty
    obtain ⟨body, line, -, -⟩ := exists_pictureLine_eq file
    rw [List.concat_eq_append, List.flatMap_append, List.flatMap_singleton, line,
      ← List.append_assoc, ← List.append_assoc, List.getLast?_concat]
  slashed := by
    have lines : Markup.Slashed (files.flatMap pictureLine) := by
      clear nonempty
      induction files with
      | nil => intro x y split; simp at split
      | cons file files ih => exact (slashed_pictureLine file).append ih
    refine Markup.Slashed.append (fun x y split => ?_) lines
    have mem : '>' ∈ gap := by simp [split]
    rcases apart with rfl | rfl <;> exact absurd mem (by decide)
  balanced := by
    have lines : Markup.Balanced (files.flatMap pictureLine) := by
      clear nonempty
      induction files with
      | nil => exact fun _ _ _ => rfl
      | cons file files ih => exact (balanced_pictureLine file).append ih
    refine (Markup.balanced_of_plain ?_ ?_).append lines
    · rcases apart with rfl | rfl <;> decide
    · rcases apart with rfl | rfl <;> decide

/-! ## Reading the updated manifest -/

/-- The reader begins behind a byte order mark, and so it does in the updated manifest. -/
theorem exists_ofText_eq (manifest : Text) :
    ∃ mark x, (slot manifest).before = mark ++ x ∧
      Reader.ofText manifest = ⟨[], x ++ (slot manifest).after⟩ ∧
      ∀ {files : List Text}, files ≠ [] →
        Reader.ofText (insertLines manifest (files.flatMap pictureLine))
          = ⟨[], x ++ ((slot manifest).gap ++ files.flatMap pictureLine ++ (slot manifest).after)⟩ := by
  have whole := slot_append manifest
  have known := slot_cases manifest
  have begins {files : List Text} (nonempty : files ≠ []) :
      ∃ c z, (slot manifest).gap ++ files.flatMap pictureLine = c :: z ∧ c ≠ '\ufeff' := by
    obtain ⟨c, head, which⟩ := (harmless_pictureLines (gap_slot manifest) nonempty).begins
    obtain ⟨z, same⟩ := List.head?_eq_some_iff.1 head
    exact ⟨c, z, same, by rcases which with rfl | rfl <;> decide⟩
  simp only [insertLines_eq]
  generalize slot manifest = place at whole known begins ⊢
  obtain ⟨before, gap, after⟩ := place
  subst whole
  cases before with
  | nil =>
    refine ⟨[], [], rfl, ?_, fun nonempty => ?_⟩
    · rcases known with ⟨front, none, -⟩ | ⟨back, rfl, -⟩ | ⟨rfl, -⟩
      · exact absurd (List.append_eq_nil_iff.1 none.symm).2 (by decide)
      · exact Reader.ofText_cons (by decide) _
      · rfl
    · obtain ⟨c, z, same, plain⟩ := begins nonempty
      simp only [same]
      exact Reader.ofText_cons plain _
  | cons d before =>
    by_cases mark : d = '\ufeff'
    · subst mark
      refine ⟨['\ufeff'], before, rfl, rfl, fun _ => ?_⟩
      rw [List.append_assoc]
      rfl
    · refine ⟨[], d :: before, rfl, Reader.ofText_cons mark _, fun _ => ?_⟩
      rw [List.append_assoc]
      exact Reader.ofText_cons mark _

/-- The reader comes to the place for new entries between two pieces, or in running text. -/
def Accessible (manifest : Text) : Prop :=
  ∃ first opened t, '<' ∉ t ∧
    Passes (Reader.ofText manifest) first ⟨opened, t ++ (slot manifest).after⟩

/-- New entries at an accessible place are read there. -/
theorem exists_paths_of_accessible {manifest : Text} {known files : List Text}
    (read : paths manifest = .ok known) (h : Accessible manifest) (nonempty : files ≠ []) :
    ∃ first last, known = first ++ last ∧
      paths (insertLines manifest (files.flatMap pictureLine))
        = .ok (first ++ files.map Part.picture ++ last) := by
  obtain ⟨first, opened, t, plain, passes⟩ := h
  obtain ⟨mark, x, -, begins, updated⟩ := exists_ofText_eq manifest
  rw [paths, passes.pathsFrom_eq, pathsFrom_text plain] at read
  obtain ⟨last, rfl, reads⟩ := exists_of_pathsFrom read
  refine ⟨first, last, by simp, ?_⟩
  obtain ⟨w, split, again⟩ := passes.relocate
  rw [begins] at split again
  -- the reader passes the same text in front of the place
  obtain rfl : x = w ++ t :=
    List.append_cancel_right (split.trans (List.append_assoc _ _ _).symm)
  have gapPlain : '<' ∉ (slot manifest).gap := by
    rcases gap_slot manifest with none | feed
    · rw [none]; exact List.not_mem_nil
    · rw [feed]; decide
  rw [paths, updated nonempty, List.append_assoc, List.append_assoc, again, pathsFrom_text plain,
    pathsFrom_text gapPlain, pathsFrom_pictureLines, reads]
  simp

/-! ## A place that the reader does not come to -/

/-- No tag has a bracket within it, as it should be in markup. -/
def PlainTags (manifest : Text) : Prop :=
  ∀ first r s, Passes (Reader.ofText manifest) first r → r.step? = .ok (some s) →
    s.event ≠ .other → '<' ∉ s.written.tail

/-- The reader comes to a place, or it reads a piece in which the place is. -/
theorem Passes.exists_around {r r' : Reader} {x a : Text} {listed : List Text}
    (h : Passes r listed r') (ends : r'.rest = []) (split : r.rest = x ++ a) :
    (∃ first opened, Passes r first ⟨opened, a⟩) ∨
      ∃ first r₁ s u v, Passes r first r₁ ∧ r₁.step? = .ok (some s) ∧ s.written = u ++ v ∧
        u ≠ [] ∧ v ≠ [] ∧ a = v ++ s.next.rest ∧ u <:+ x := by
  induction h generalizing x with
  | stop r =>
    rw [ends] at split
    obtain ⟨rfl, rfl⟩ := List.append_eq_nil_iff.1 split.symm
    obtain ⟨opened, rest⟩ := r
    cases ends
    exact .inl ⟨[], opened, .stop _⟩
  | @step r r' s here more read list _ ih =>
    have whole := (Reader.rest_eq_append read).1
    rw [split, List.append_eq_append_iff] at whole
    rcases whole with ⟨v, written, rest⟩ | ⟨y, rfl, rest⟩
    · by_cases first : x = []
      · subst first
        obtain ⟨opened, left⟩ := r
        cases split
        exact .inl ⟨[], opened, .stop _⟩
      · by_cases last : v = []
        · subst last
          refine .inl ⟨here ++ [], s.next.opened, .step read list ?_⟩
          rw [rest]
          exact .stop _
        · exact .inr ⟨[], r, s, x, v, .stop _, read, written, first, last, rest, List.suffix_rfl⟩
    · rcases ih ends rest with ⟨first, opened, passes⟩ |
        ⟨first, r₁, s', u, v, passes, facts⟩
      · exact .inl ⟨here ++ first, opened, .step read list passes⟩
      · obtain ⟨read', written, begun, open_, behind, suffix⟩ := facts
        exact .inr ⟨here ++ first, r₁, s', u, v, .step read list passes, read', written, begun,
          open_, behind, suffix.trans (List.suffix_append _ _)⟩

/-- The attributes of the entry of the metadata. -/
def metaAttributes : List Markup.Attribute :=
  [⟨pathAttribute, Part.meta_⟩, ⟨kindAttribute, "text/xml".toList⟩]

theorem writable_metaAttributes : Markup.Writable metaAttributes :=
  ⟨by decide, by decide⟩

theorem written_metaEntry :
    Written (.empty (Markup.tagText entryElement metaAttributes)) metaEntry := by
  have text : metaEntry = '<' :: (Markup.tagText entryElement metaAttributes ++ "/>".toList) := by
    decide
  rw [text]
  exact written_entry writable_metaAttributes

/-- If the place is in a piece of markup, then within it. -/
theorem within_of_written {manifest u v rest front : Text} {k : Kind} (written : Written k (u ++ v))
    (begun : u ≠ []) (unfinished : v ≠ []) (behind : (slot manifest).after = v ++ rest)
    (split : (slot manifest).before = front ++ u) : Markup.Within u v := by
  refine ⟨begun, unfinished, ?_⟩
  obtain ⟨c, u, rfl⟩ := List.exists_cons_of_ne_nil begun
  obtain rfl : c = '<' := Option.some.inj written.head?_eq
  rcases slot_cases manifest with ⟨before, same, -⟩ | ⟨back, same, -⟩ | ⟨none, -⟩
  · left
    -- the piece does not begin within the entry, in which there is one bracket
    have longer (x : Text) (whole : x ++ metaEntry = '<' :: u) : x ≠ [] := by
      rintro rfl
      rw [← whole] at written
      exact unfinished (written_metaEntry.eq_nil_of_append written)
    have ends : metaEntry <:+ front ++ '<' :: u := ⟨before, by rw [← split, same]⟩
    rcases List.suffix_or_suffix_of_suffix ends ⟨front, rfl⟩ with ⟨x, whole⟩ | ⟨x, whole⟩
    · obtain ⟨d, x, rfl⟩ := List.exists_cons_of_ne_nil (longer x whole)
      obtain ⟨rfl, rest⟩ := List.cons_eq_cons.1 whole
      refine ⟨?_, ?_⟩
      · rw [List.tail_cons, ← rest]
        exact List.mem_append_right _ (by decide)
      · rw [← whole, List.getLast?_append]
        rfl
    · cases x with
      | nil => exact absurd rfl (longer [] whole.symm)
      | cons d x =>
        have mem : '<' ∈ metaEntry.tail := by
          rw [← whole]
          simp
        exact absurd mem (by decide)
  · right
    obtain ⟨d, v, rfl⟩ := List.exists_cons_of_ne_nil unfinished
    rw [same] at behind
    exact congrArg some (List.cons.inj behind).1.symm
  · rw [none] at behind
    exact absurd (List.append_eq_nil_iff.1 behind.symm).1 unfinished

/-- **Unseen entries.**  If the reader does not come to the place, it does not see the new entries. -/
theorem paths_of_not_accessible {manifest : Text} {known files : List Text}
    (read : paths manifest = .ok known) (plain : PlainTags manifest) (h : ¬ Accessible manifest)
    (nonempty : files ≠ []) :
    paths (insertLines manifest (files.flatMap pictureLine)) = .ok known := by
  obtain ⟨mark, x, before, begins, updated⟩ := exists_ofText_eq manifest
  obtain ⟨all, last, -, whole⟩ := exists_passes read
  rcases whole.exists_around rfl (by rw [begins]) with ⟨first, opened, passes⟩ |
    ⟨first, r, s, u, v, passes, step, parts, begun, unfinished, behind, front, rfl⟩
  · exact absurd ⟨first, opened, [], List.not_mem_nil, passes⟩ h
  · have here : r.rest = u ++ (slot manifest).after := by
      rw [(Reader.rest_eq_append step).1, parts, behind, List.append_assoc]
    rcases Reader.step?_cases step with ⟨-, -, text⟩ | ⟨k, written, means⟩
    · refine absurd ⟨first, r.opened, u, ?_, ?_⟩ h
      · exact fun mem => text (parts ▸ List.mem_append_left v mem)
      · rw [← here]
        exact passes
    · rw [parts] at written
      have parted : (slot manifest).before = mark ++ front ++ u := by
        rw [before, List.append_assoc]
      have within : Markup.Within u v := within_of_written written begun unfinished behind parted
      have silent : s.event = .other := by
        by_contra tag
        have single := plain first r s passes step tag
        rw [parts] at single
        obtain ⟨c, u, rfl⟩ := List.exists_cons_of_ne_nil begun
        rcases within.place with ⟨mem, -⟩ | first
        · exact single (List.mem_append_left v mem)
        · exact single (List.mem_append_right u (List.mem_of_mem_head? first))
      rw [silent] at means
      obtain ⟨rfl, same⟩ := written.eq_other means
      have still := written.insert within (harmless_pictureLines (gap_slot manifest) nonempty)
      obtain ⟨w, split, again⟩ := passes.relocate
      rw [begins] at split again
      rw [here, ← List.append_assoc] at split
      have same_ : front ++ u = w ++ u := List.append_cancel_right split
      have next : s.next = ⟨r.opened, s.next.rest⟩ := by rw [← same]
      have listed : eventPaths s.event = .ok [] := by rw [silent]; rfl
      rw [paths, passes.pathsFrom_eq, pathsFrom_of_step step listed, next] at read
      have text : front ++ u ++ ((slot manifest).gap ++ files.flatMap pictureLine
            ++ (slot manifest).after)
          = w ++ (u ++ ((slot manifest).gap ++ files.flatMap pictureLine) ++ v ++ s.next.rest) := by
        rw [same_, behind]
        simp only [List.append_assoc]
      rw [paths, updated nonempty, text, again,
        pathsFrom_of_step (Reader.step?_of_written still rfl _) rfl]
      exact read

/-! ## The update -/

/-- What an update is for: the pictures of the files are listed besides what was listed before, each
new one once, and the same update does nothing more. -/
structure Updated (known files : List Text) (after : Text) : Prop where
  listed : ∃ all, paths after = .ok all ∧
    (∀ path, path ∈ all ↔ path ∈ known ∨ path ∈ files.map Part.picture) ∧
    ∀ file ∈ files, Part.picture file ∉ known → all.count (Part.picture file) = 1
  settled : addPictures after files = .ok after

theorem unlisted_eq_nil_iff {known files : List Text} :
    unlisted known files = [] ↔ ∀ file ∈ files, Part.picture file ∈ known := by
  rw [List.eq_nil_iff_forall_not_mem]
  refine forall_congr' fun file => ?_
  rw [mem_unlisted, not_and, not_not]

theorem count_picture {file : Text} {known new : List Text} (other : Part.picture file ∉ known)
    (mem : file ∈ new) (distinct : new.Nodup) :
    (known ++ new.map Part.picture).count (Part.picture file) = 1 := by
  have inj : Function.Injective Part.picture := fun _ _ same => List.append_cancel_left same
  rw [List.count_append, List.count_eq_zero_of_not_mem other,
    List.count_eq_one_of_mem (distinct.map inj) (List.mem_map_of_mem mem)]

/-- If all files are listed where the reader sees them, the update does what it is for. -/
theorem updated_of_paths {manifest : Text} {known files first last : List Text}
    (parts : known = first ++ last)
    (read : paths manifest = .ok (first ++ (unlisted known files).map Part.picture ++ last)) :
    Updated known files manifest := by
  have mem (path : Text) : path ∈ first ++ (unlisted known files).map Part.picture ++ last ↔
      path ∈ known ∨ path ∈ files.map Part.picture := by
    rw [List.mem_append, List.mem_append, or_right_comm, parts, ← List.mem_append]
    constructor
    · rintro (old | new)
      · exact .inl old
      · obtain ⟨file, mem, rfl⟩ := List.mem_map.1 new
        exact .inr (List.mem_map_of_mem (mem_unlisted.1 mem).1)
    · rintro (old | new)
      · exact .inl old
      · obtain ⟨file, mem, rfl⟩ := List.mem_map.1 new
        by_cases there : Part.picture file ∈ first ++ last
        · exact .inl there
        · exact .inr (List.mem_map_of_mem (mem_unlisted.2 ⟨mem, there⟩))
  refine ⟨⟨_, read, mem, fun file here other => ?_⟩, ?_⟩
  · have once := count_picture other (mem_unlisted.2 ⟨here, other⟩) (nodup_unlisted known files)
    rw [parts] at once ⊢
    rw [← once]
    refine List.Perm.count_eq ?_ _
    rw [List.append_assoc, List.append_assoc]
    exact List.perm_append_comm.append_left _
  · have none := unlisted_eq_nil_iff.2 fun file here => (mem _).2 (.inr (List.mem_map_of_mem here))
    rw [addPictures_eq read, none, listing]

/-- **The manifest is updated.**  An update of a manifest that can be read never fails.  It keeps the
text around one insertion, which has one line for each file that is not listed, or changes nothing if
there is none.  If the reader comes to the place where the lines are put, the result lists what was
listed before and the pictures of all files, each new one once, and another update changes nothing.  If
no tag has a bracket within it, this is so in no other case: then the place is in a comment, a character
data section, an instruction or a document type. -/
theorem updated_iff_accessible {manifest : Text} {known : List Text}
    (read : paths manifest = .ok known) (files : List Text) :
    ∃ after, addPictures manifest files = .ok after ∧
      (∃ before gap behind, manifest = before ++ behind ∧ (gap = [] ∨ gap = ['\n']) ∧
        after = if unlisted known files = [] then manifest
          else before ++ (gap ++ (unlisted known files).flatMap pictureLine) ++ behind) ∧
      (unlisted known files).Nodup ∧
      (∀ file, file ∈ unlisted known files ↔ file ∈ files ∧ Part.picture file ∉ known) ∧
      (unlisted known files = [] ∨ Accessible manifest → Updated known files after) ∧
      (PlainTags manifest → Updated known files after →
        unlisted known files = [] ∨ Accessible manifest) := by
  refine ⟨_, addPictures_eq read files, ?_, nodup_unlisted known files, fun file => mem_unlisted, ?_⟩
  · refine ⟨_, _, _, (slot_append manifest).symm, gap_slot manifest, ?_⟩
    split
    · next none => rw [none, listing]
    · next new => rw [listing_of_ne_nil new, insertLines_eq]
  · by_cases none : unlisted known files = []
    · refine ⟨fun _ => updated_of_paths (List.append_nil known).symm ?_, fun _ _ => .inl none⟩
      rw [none, listing, read]
      simp
    · rw [listing_of_ne_nil none]
      refine ⟨fun place => ?_, fun plain updated => ?_⟩
      · obtain ⟨first, last, parts, read'⟩ :=
          exists_paths_of_accessible read (place.resolve_left none) none
        exact updated_of_paths parts read'
      · by_contra missed
        rw [not_or] at missed
        have unseen := paths_of_not_accessible read plain missed.2 none
        obtain ⟨all, read', mem, -⟩ := updated.listed
        rw [unseen] at read'
        cases read'
        refine none (unlisted_eq_nil_iff.2 fun file here => ?_)
        exact (mem _).2 (.inr (List.mem_map_of_mem here))

/-! ## Two manifests -/

theorem paths_eq_ok {manifest : Text} {known : List Text}
    (h : (paths manifest).toOption = some known) : paths manifest = .ok known := by
  cases answer : paths manifest with
  | error cause => rw [answer] at h; cases h
  | ok all => rw [answer] at h; cases h; rfl

/-- A manifest with the entry of the metadata. -/
def plainManifest : Text :=
  "<manifest:manifest>".toList ++ metaEntry ++ rootEnd

theorem accessible_plainManifest : Accessible plainManifest := by
  have name : Markup.TagText "manifest:manifest".toList := fun y => rfl
  have opens : Markup.Opens "manifest:manifest".toList := fun c first => by cases first; decide
  have root : Written (.start "manifest:manifest".toList) "<manifest:manifest>".toList :=
    Written.tag name opens
  have place : (slot plainManifest).after = rootEnd := by decide +kernel
  have plain : Markup.unescape Part.meta_ = .ok Part.meta_ := Markup.unescape_escape Part.meta_
  have listed : tagPaths (Markup.tagText entryElement metaAttributes) = .ok [Part.meta_] := by
    rw [tagPaths_entry writable_metaAttributes]
    show [Part.meta_].mapM Markup.unescape = _
    rw [List.mapM_cons, plain]
    rfl
  refine ⟨[] ++ ([Part.meta_] ++ []), ["manifest:manifest".toList], [], List.not_mem_nil, ?_⟩
  rw [place]
  exact .step (Reader.step?_of_written root rfl (metaEntry ++ rootEnd)) rfl
    (.step (Reader.step?_of_written written_metaEntry rfl rootEnd) listed (.stop _))

/-- A file is added that is named twice and has special characters in its name. -/
theorem updated_iff_accessible_special :
    ∃ after, paths plainManifest = .ok [Part.meta_] ∧ Accessible plainManifest ∧
      addPictures plainManifest ["R&D <2>.png".toList, "R&D <2>.png".toList] = .ok after ∧
      Updated [Part.meta_] ["R&D <2>.png".toList, "R&D <2>.png".toList] after := by
  have read : paths plainManifest = .ok [Part.meta_] := paths_eq_ok (by decide +kernel)
  obtain ⟨after, done, -, -, -, updated, -⟩ := updated_iff_accessible read
    ["R&D <2>.png".toList, "R&D <2>.png".toList]
  exact ⟨after, read, accessible_plainManifest, done, updated (.inr accessible_plainManifest)⟩

/-- A manifest in which the entry of the metadata is commented out. -/
def commentedManifest : Text :=
  "<manifest:manifest><!-- ".toList ++ metaEntry ++ " -->".toList ++ rootEnd

/-- The new entry is put into the comment, so it is not listed, and it is put there again. -/
theorem commented_entry_repeated :
    paths commentedManifest = .ok [] ∧ ∃ once twice,
      addPictures commentedManifest ["a.png".toList] = .ok once ∧ paths once = .ok [] ∧
      addPictures once ["a.png".toList] = .ok twice ∧ twice ≠ once := by
  have read : paths commentedManifest = .ok [] := paths_eq_ok (by decide +kernel)
  have again : paths (listing commentedManifest ["a.png".toList]) = .ok [] :=
    paths_eq_ok (by decide +kernel)
  refine ⟨read, _, _, addPictures_eq read _, again, addPictures_eq again _, ?_⟩
  decide +kernel

end DocumentMerge.Manifest
