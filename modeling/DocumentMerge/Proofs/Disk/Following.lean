import DocumentMerge.Disk.Temporary
import DocumentMerge.Proofs.Text.Positions

/-!
# Following paths

A path is followed step by step, and every step must start from a directory.  So disks with the same
directories are `Alike`: a path that leads somewhere leads to the same place in both.  Writing a file
makes such a disk.  What is written under a path is read under it (`read_write`), and a file that has
another place is left alone (`read_elsewhere`).

Two paths that differ only in repeated slashes and steps that stand still lead to the same place,
if both lead anywhere: `read_eq_of_same`.  A path in which a file was found ends in a name that is
short enough for a directory: `byteSize_fileName_le`.
-/

namespace DocumentMerge

namespace Path

theorem steps_ne_nil (p : Text) : steps p ≠ [] := by
  cases p with
  | nil => simp [steps]
  | cons c s =>
    rw [steps]
    split
    · simp
    · split
      · simp
      · simp

/-- There is no slash in a step. -/
theorem slash_notMem_of_mem_steps {p step : Text} (h : step ∈ steps p) : '/' ∉ step := by
  induction p generalizing step with
  | nil =>
    rw [steps, List.mem_singleton] at h
    simp [h]
  | cons c s ih =>
    rw [steps] at h
    split at h
    · rcases List.mem_cons.1 h with rfl | h
      · simp
      · exact ih h
    · next other =>
      split at h
      · next t ts split =>
        rcases List.mem_cons.1 h with rfl | h
        · have free : '/' ∉ t := ih (split ▸ List.mem_cons_self)
          simp [Ne.symm other, free]
        · exact ih (split ▸ List.mem_cons_of_mem _ h)
      · rw [List.mem_singleton] at h
        simp [h, Ne.symm other]

/-- Paths that are the same have the same steps, but for those that stand still. -/
theorem moves_eq_of_same {p q : Text} (h : same p q = true) :
    isAbsolute p = isAbsolute q ∧ (steps p).filter moves = (steps q).filter moves := by
  rw [same, Bool.and_eq_true, beq_iff_eq, beq_iff_eq] at h
  obtain ⟨absolute, parts⟩ := h
  refine ⟨absolute, ?_⟩
  -- a first step that stands still is the only component that does not move
  have kept (p : Text) : (components p).filter moves = (steps p).filter moves := by
    rw [components, List.filter_append, List.filter_filter, List.filter_filter]
    have none : ((steps p).take 1).filter (fun step => moves step && step == here) = [] := by
      rw [List.filter_eq_nil_iff]
      intro step _
      simp [moves]
    simp [none]
  rw [← kept p, ← kept q, parts]

theorem fileName?_eq_of_same {p q : Text} (h : same p q = true) : fileName? p = fileName? q := by
  rw [fileName?, fileName?, (moves_eq_of_same h).2]

/-- A file name is a step that moves and does not go up. -/
theorem mem_steps_of_fileName? {p file : Text} (h : fileName? p = some file) :
    file ∈ steps p ∧ moves file = true ∧ file ≠ up := by
  rw [fileName?] at h
  split at h
  · next name last =>
    split at h
    · cases h
    · next forward =>
      cases h
      have mem := List.mem_of_getLast? last
      exact ⟨(List.mem_filter.1 mem).1, (List.mem_filter.1 mem).2, forward⟩
  · cases h

end Path

namespace Disk

variable {d : Disk}

theorem walk_nil (here : List Text) : d.walk here [] = .ok here := rfl

/-- A way begins in a directory. -/
theorem directory_of_walk {here place : List Text} {step : Text} {steps : List Text}
    (h : d.walk here (step :: steps) = .ok place) : d.node? here = some .directory := by
  rw [walk] at h
  split at h
  · cases h
  · cases h
  · assumption

theorem walk_cons_of_still {here : List Text} {step : Text} {steps : List Text}
    (dir : d.node? here = some .directory) (still : Path.moves step = false) :
    d.walk here (step :: steps) = d.walk here steps := by
  rw [walk, dir]
  simp only [still]
  rfl

/-- All that a step can do which moves. -/
theorem walk_cons_cases {here place : List Text} {step : Text} {steps : List Text}
    (h : d.walk here (step :: steps) = .ok place) (moves : Path.moves step = true) :
    (step = Path.up ∧ d.walk here.dropLast steps = .ok place) ∨
    (step ≠ Path.up ∧ Text.byteSize step ≤ stepLimit ∧
      d.walk (here ++ [step]) steps = .ok place) := by
  rw [walk, directory_of_walk h] at h
  simp only [moves, if_true] at h
  split at h
  · next up => exact .inl ⟨up, h⟩
  · next forward =>
    split at h
    · cases h
    · next short => exact .inr ⟨forward, by omega, h⟩

theorem walk_append (here : List Text) (xs ys : List Text) :
    d.walk here (xs ++ ys) = (d.walk here xs).bind fun place => d.walk place ys := by
  induction xs generalizing here with
  | nil => rfl
  | cons step xs ih =>
    rw [List.cons_append, walk, walk]
    cases d.node? here with
    | none => rfl
    | some node =>
      cases node with
      | file content => rfl
      | directory =>
        simp only [ih]
        split
        · split
          · rfl
          · split
            · rfl
            · rfl
        · rfl

/-- A way to a directory is a way that ends in one. -/
theorem walkToDirectory_eq_ok_iff {here place : List Text} {steps : List Text} :
    d.walkToDirectory here steps = .ok place ↔
      d.walk here steps = .ok place ∧ d.node? place = some .directory := by
  rw [walkToDirectory, walk_append]
  cases d.walk here steps with
  | error cause => simp [Except.bind]
  | ok there =>
    show d.walk there [Path.here] = .ok place ↔ _
    constructor
    · intro h
      have dir := directory_of_walk h
      rw [walk_cons_of_still dir (by decide), walk_nil] at h
      cases h
      exact ⟨rfl, dir⟩
    · rintro ⟨same, dir⟩
      cases same
      rw [walk_cons_of_still dir (by decide), walk_nil]

/-- Steps that stand still can be left out. -/
theorem walk_moves {here place : List Text} {steps : List Text}
    (h : d.walk here steps = .ok place) : d.walk here (steps.filter Path.moves) = .ok place := by
  induction steps generalizing here with
  | nil => exact h
  | cons step steps ih =>
    have dir := directory_of_walk h
    cases moves : Path.moves step with
    | false =>
      rw [walk_cons_of_still dir moves] at h
      rw [List.filter_cons_of_neg (by simp [moves])]
      exact ih h
    | true =>
      rw [List.filter_cons_of_pos moves, walk, dir]
      simp only [moves, if_true]
      rcases walk_cons_cases h moves with ⟨rfl, later⟩ | ⟨forward, short, later⟩
      · rw [if_pos rfl]
        exact ih later
      · rw [if_neg forward, if_neg (by omega)]
        exact ih later

/-- A way has no step that is too long for a name. -/
theorem byteSize_le_of_walk {here place : List Text} {steps : List Text} {step : Text}
    (h : d.walk here steps = .ok place) (mem : step ∈ steps) (moves : Path.moves step = true)
    (forward : step ≠ Path.up) : Text.byteSize step ≤ stepLimit := by
  induction steps generalizing here with
  | nil => exact absurd mem List.not_mem_nil
  | cons first steps ih =>
    have dir := directory_of_walk h
    rcases List.mem_cons.1 mem with rfl | mem
    · rcases walk_cons_cases h moves with ⟨up, -⟩ | ⟨-, short, -⟩
      · exact absurd up forward
      · exact short
    · cases moving : Path.moves first with
      | false =>
        rw [walk_cons_of_still dir moving] at h
        exact ih h mem
      | true =>
        rcases walk_cons_cases h moving with ⟨-, later⟩ | ⟨-, -, later⟩
        · exact ih later mem
        · exact ih later mem

/-! ## Reading -/

/-- A file that was read has a place. -/
theorem exists_place_of_read {path : Text} {content : File} (h : d.read path = .ok content) :
    ∃ place, d.locate path = .ok place ∧ d.node? place = some (.file content) := by
  rw [read] at h
  split at h
  · cases h
  · next place located =>
    refine ⟨place, located, ?_⟩
    split at h
    · next found =>
      cases h
      exact found
    · cases h
    · cases h

/-- Where a file was read from. -/
theorem locate_of_read {path : Text} {content : File} (h : d.read path = .ok content) :
    ∃ place, d.walk (d.start path) (Path.steps path) = .ok place ∧
      d.node? place = some (.file content) := by
  obtain ⟨place, located, found⟩ := exists_place_of_read h
  rw [locate] at located
  split at located
  · cases located
  · exact ⟨place, located, found⟩

/-- Two paths that are the same lead to the same file, if both lead to one. -/
theorem read_eq_of_same {p q : Text} {f g : File} (same : Path.same p q = true)
    (hp : d.read p = .ok f) (hq : d.read q = .ok g) : f = g := by
  obtain ⟨absolute, parts⟩ := Path.moves_eq_of_same same
  obtain ⟨there, wayp, filep⟩ := locate_of_read hp
  obtain ⟨place, wayq, fileq⟩ := locate_of_read hq
  have start : d.start p = d.start q := by rw [start, start, absolute]
  have wayp := walk_moves wayp
  rw [start, parts, walk_moves wayq] at wayp
  cases wayp
  rw [filep] at fileq
  cases fileq
  rfl

/-- A path that leads to a file ends in a name that is short enough for a directory. -/
theorem byteSize_fileName_le {p file : Text} {f : File} (h : d.read p = .ok f)
    (named : Path.fileName? p = some file) : Text.byteSize file ≤ stepLimit := by
  obtain ⟨place, way, -⟩ := locate_of_read h
  obtain ⟨mem, moves, forward⟩ := Path.mem_steps_of_fileName? named
  exact byteSize_le_of_walk way mem moves forward

/-! ## Making new files -/

/-- A shorter name makes a shorter path. -/
theorem byteSize_join_le (directory : Text) {p q : Text} (absolute : Path.isAbsolute p = Path.isAbsolute q)
    (shorter : Text.byteSize p ≤ Text.byteSize q) :
    Text.byteSize (Path.join directory p) ≤ Text.byteSize (Path.join directory q) := by
  rw [Path.join, Path.join, absolute]
  split
  · exact shorter
  · split
    · split
      · rw [Text.byteSize_append, Text.byteSize_append]
        omega
      · rw [Text.byteSize_append, Text.byteSize_append, Text.byteSize_cons, Text.byteSize_cons]
        omega
    · exact shorter

/-- A directory that takes a new file takes one with a shorter name. -/
theorem admits_of_shorter {directory name other : Text} (h : d.admits directory name = .ok ())
    (absolute : Path.isAbsolute other = Path.isAbsolute name)
    (shorter : Text.byteSize other ≤ Text.byteSize name) : d.admits directory other = .ok () := by
  have path := byteSize_join_le (Path.join d.currentPath directory) absolute shorter
  rw [admits] at h ⊢
  split at h
  · cases h
  · next spelled =>
    rw [if_neg spelled]
    split at h
    · cases h
    · rw [if_neg (by omega)]
      exact h

/-! ## Writing -/

/-- The place at which a file can be written: a name in a directory, where no directory is. -/
theorem placeOfFile_cases {path : Text} {place : List Text} (h : d.placeOfFile path = .ok place) :
    ∃ directory name, place = directory ++ [name] ∧ refusal? path = none ∧
      Path.steps path = (Path.steps path).dropLast ++ [name] ∧
      d.walk (d.start path) (Path.steps path).dropLast = .ok directory ∧
      d.node? directory = some .directory ∧ Path.moves name = true ∧ name ≠ Path.up ∧
      Text.byteSize name ≤ stepLimit ∧ d.node? place ≠ some .directory := by
  rw [placeOfFile] at h
  split at h
  · cases h
  · next accepted =>
    simp only at h
    split at h
    · cases h
    · next directory way =>
      split at h
      · cases h
      · next plain =>
        split at h
        · cases h
        · next short =>
          split at h
          · cases h
          · next free =>
            cases h
            simp only [Bool.or_eq_true, decide_eq_true_eq, not_or, Bool.not_eq_true,
              Bool.not_eq_false'] at plain
            obtain ⟨⟨whole, moves⟩, forward⟩ := plain
            have suffix : path.reverse.dropWhile (· == '/') <:+ path.reverse :=
              List.dropWhile_suffix _
            -- a path that keeps its length keeps its slashes
            have written : Text.dropEndWhile (· == '/') path = path := by
              rw [Text.dropEndWhile] at whole ⊢
              rw [suffix.eq_of_length, List.reverse_reverse]
              have := suffix.length_le
              simp only [List.length_reverse] at whole this ⊢
              omega
            rw [written] at way moves forward short free ⊢
            obtain ⟨way, dir⟩ := walkToDirectory_eq_ok_iff.1 way
            have last : (Path.steps path).getLast?.getD []
                = (Path.steps path).getLast (Path.steps_ne_nil path) := by
              rw [List.getLast?_eq_some_getLast (Path.steps_ne_nil path)]
              rfl
            refine ⟨directory, _, rfl, accepted, ?_, way, dir, moves, forward, by omega, ?_⟩
            · rw [last, List.dropLast_concat_getLast]
            · intro dir
              rw [dir] at free
              exact free rfl

/-! ### Disks with the same directories -/

/-- The disks have the same directories, which take new files alike, and the same one is current. -/
structure Alike (d e : Disk) : Prop where
  current : e.current = d.current
  refuses : e.refuses = d.refuses
  directories : ∀ place, e.node? place = some .directory ↔ d.node? place = some .directory

namespace Alike

variable {e : Disk}

theorem refl (d : Disk) : Alike d d :=
  ⟨rfl, rfl, fun _ => Iff.rfl⟩

theorem symm (h : Alike d e) : Alike e d :=
  ⟨h.current.symm, h.refuses.symm, fun place => (h.directories place).symm⟩

/-- A file that is put where no directory is leaves all directories. -/
theorem put {place : List Text} (nonempty : place ≠ []) (free : d.node? place ≠ some .directory)
    (content : File) : Alike d (d.put place (.file content)) := by
  refine ⟨rfl, rfl, fun other => ?_⟩
  rw [node?_put other nonempty]
  by_cases here : other = place
  · rw [if_pos here, here]
    exact ⟨fun dir => (by cases dir), fun dir => absurd dir free⟩
  · rw [if_neg here]

theorem start_eq (h : Alike d e) (path : Text) : e.start path = d.start path := by
  rw [start, start, h.current]

/-- Whoever follows a way needs only its directories. -/
theorem walk (h : Alike d e) {here there : List Text} {steps : List Text}
    (way : d.walk here steps = .ok there) : e.walk here steps = .ok there := by
  induction steps generalizing here with
  | nil => exact way
  | cons step steps ih =>
    have dir := directory_of_walk way
    have dir' := (h.directories here).2 dir
    cases moves : Path.moves step with
    | false =>
      rw [walk_cons_of_still dir moves] at way
      rw [walk_cons_of_still dir' moves]
      exact ih way
    | true =>
      rw [Disk.walk, dir']
      simp only [moves, if_true]
      rcases walk_cons_cases way moves with ⟨rfl, later⟩ | ⟨forward, short, later⟩
      · rw [if_pos rfl]
        exact ih later
      · rw [if_neg forward, if_neg (by omega)]
        exact ih later

/-- A path leads to the same place. -/
theorem locate (h : Alike d e) {path : Text} {place : List Text}
    (located : d.locate path = .ok place) : e.locate path = .ok place := by
  rw [Disk.locate] at located ⊢
  split at located
  · cases located
  · rw [h.start_eq]
    exact h.walk located

/-- A file can be written at the same place. -/
theorem placeOfFile (h : Alike d e) {path : Text} {place : List Text}
    (found : d.placeOfFile path = .ok place) : e.placeOfFile path = .ok place := by
  have same (place : List Text) :
      Node.isDirectory (e.node? place) = Node.isDirectory (d.node? place) := by
    have iff (node : Option Node) : Node.isDirectory node = true ↔ node = some .directory := by
      rcases node with _ | (content | _)
      · simp [Node.isDirectory]
      · simp [Node.isDirectory]
      · simp [Node.isDirectory]
    rw [Bool.eq_iff_iff, iff, iff]
    exact h.directories place
  rw [Disk.placeOfFile] at found ⊢
  split at found
  · cases found
  · simp only at found ⊢
    split at found
    · cases found
    · next directory way =>
      rw [walkToDirectory_eq_ok_iff] at way
      have way' : e.walkToDirectory (e.start path)
          (Path.steps (Text.dropEndWhile (· == '/') path)).dropLast = .ok directory := by
        rw [h.start_eq]
        exact walkToDirectory_eq_ok_iff.2 ⟨h.walk way.1, (h.directories _).2 way.2⟩
      simp only [way', same]
      exact found

theorem accepts_eq (h : Alike d e) (place : List Text) : e.accepts place = d.accepts place := by
  rw [accepts, accepts, h.refuses]

/-- A directory takes the same new files. -/
theorem admits (h : Alike d e) {directory name : Text} (admitted : d.admits directory name = .ok ()) :
    e.admits directory name = .ok () := by
  have path : e.currentPath = d.currentPath := by rw [currentPath, currentPath, h.current]
  rw [Disk.admits] at admitted ⊢
  simp only [path] at admitted ⊢
  split at admitted
  · cases admitted
  · next spelled =>
    rw [if_neg spelled]
    split at admitted
    · cases admitted
    · next short =>
      rw [if_neg short]
      cases way : d.walkToDirectory (d.start directory) (Path.steps directory) with
      | error cause => rw [way] at admitted; cases admitted
      | ok place =>
        rw [way] at admitted
        rw [walkToDirectory_eq_ok_iff] at way
        have way' : e.walkToDirectory (e.start directory) (Path.steps directory) = .ok place := by
          rw [h.start_eq]
          exact walkToDirectory_eq_ok_iff.2 ⟨h.walk way.1, (h.directories _).2 way.2⟩
        rw [way']
        exact (h.accepts_eq place).trans admitted

/-- A new file can be prepared at the same locations. -/
theorem stage (h : Alike d e) {location : Location} (staged : d.stage location = .ok ()) :
    e.stage location = .ok () := by
  cases location with
  | path path => exact h.admits staged
  | temporary file => exact h.admits staged

end Alike

/-! ### What is written -/

/-- A path leads to a place at which there is a file, or a new one can be made. -/
def Takes (d : Disk) (path : Text) (place : List Text) : Prop :=
  d.placeOfFile path = .ok place ∧ (d.node? place = none → d.accepts place.dropLast = .ok ())

/-- A file is written at the place that its path leads to, if that place takes it. -/
theorem write_eq_ok_iff {after : Disk} {path : Text} {content : File} :
    d.write path content = .ok after ↔
      ∃ place, d.Takes path place ∧ after = d.put place (.file content) := by
  rw [write]
  cases found : d.placeOfFile path with
  | error cause => simp [Takes, found]
  | ok place =>
    simp only [Takes, found, Except.ok.injEq, exists_eq_left', and_assoc]
    cases there : d.node? place with
    | some node => simp [eq_comm]
    | none =>
      cases d.accepts place.dropLast with
      | error cause => simp [Except.map]
      | ok taken => simp [Except.map, eq_comm]

/-- A path takes a file whatever temporary files there are. -/
theorem takes_discard {file : Temporary} {path : Text} {place : List Text} :
    (d.discard file).Takes path place ↔ d.Takes path place := by
  have alike : Alike d (d.discard file) := ⟨rfl, rfl, fun _ => Iff.rfl⟩
  exact and_congr_left fun _ => ⟨alike.symm.placeOfFile, alike.placeOfFile⟩

/-- What is written under a path is read under it. -/
theorem read_write {after : Disk} {path : Text} {content : File}
    (h : d.write path content = .ok after) : after.read path = .ok content := by
  obtain ⟨place, ⟨found, -⟩, rfl⟩ := write_eq_ok_iff.1 h
  obtain ⟨directory, name, rfl, accepted, split, way, dir, moves, forward, short, free⟩ :=
    placeOfFile_cases found
  have nonempty : directory ++ [name] ≠ [] := by simp
  have located : (d.put (directory ++ [name]) (.file content)).locate path
      = .ok (directory ++ [name]) := by
    rw [locate, accepted]
    show Disk.walk _ (d.start path) (Path.steps path) = _
    rw [split, walk_append, (Alike.put nonempty free content).walk way]
    show Disk.walk _ directory [name] = _
    have dir' : (d.put (directory ++ [name]) (.file content)).node? directory
        = some .directory := by
      rw [node?_put _ nonempty, if_neg (by simp), dir]
    rw [walk, dir']
    simp only [moves, if_true, if_neg forward]
    rw [if_neg (by omega), walk_nil]
  rw [read, located]
  simp only
  rw [node?_put _ nonempty, if_pos rfl]

/-- Writing a file leaves all directories, and what is at any other place. -/
theorem alike_write {after : Disk} {path : Text} {content : File}
    (h : d.write path content = .ok after) :
    Alike d after ∧ ∀ {other : Text} {place : List Text}, d.locate other = .ok place →
      d.placeOfFile path ≠ .ok place → after.read other = d.read other := by
  obtain ⟨there, ⟨found, -⟩, rfl⟩ := write_eq_ok_iff.1 h
  obtain ⟨directory, name, rfl, -, -, -, -, -, -, -, free⟩ := placeOfFile_cases found
  have nonempty : directory ++ [name] ≠ [] := by simp
  have alike := Alike.put nonempty free content
  refine ⟨alike, fun {other place} located apart => ?_⟩
  rw [read, read, alike.locate located, located]
  simp only
  rw [node?_put place nonempty, if_neg fun same => apart (by rw [same, found])]

/-- Writing under a path leaves the temporary files alone. -/
theorem temporary?_write {after : Disk} {path : Text} {content : File}
    (h : d.write path content = .ok after) (file : Temporary) :
    after.temporary? file = d.temporary? file := by
  obtain ⟨place, -, rfl⟩ := write_eq_ok_iff.1 h
  rfl

end Disk

end DocumentMerge
