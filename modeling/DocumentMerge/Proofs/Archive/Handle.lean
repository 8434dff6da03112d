import DocumentMerge.Proofs.Archive.Cycle
import Mathlib.Data.List.Induction

/-!
# The states of a handle

A handle is opened, used and closed, and it can be opened again.  Calls that come at the wrong time,
or that cannot be done, fail.  Between the calls anybody may change the files on the disk.

* `Call` are the calls on a handle, `Event` these and the changes of the disk, and `course` lets one
  happen after the other.
* `Call.act_cases`: only opening a closed handle, putting into an open one and closing do anything.
  `act_of_error`: a call that fails does nothing, unless it closes the handle.
* `Since` says how an open handle came about: when it was opened, what the package had then, and what
  was put since.  `closed_or_since`: every handle that was closed once is closed or came about so.
-/

namespace DocumentMerge.Archive

open Zip (Held)

/-! ## Calls -/

/-- A call on a handle. -/
inductive Call where
  | openAt (location : Location)
  | isOpen
  | names
  | contains (name : Text)
  | bytes (name : Text)
  | text (name : Text)
  | put (put : Put)
  | close

/-- Makes a call, and says whether it succeeded. -/
def Call.act : Call → Archive × Disk → Except ArchiveError Unit × Archive × Disk
  | .openAt location, (a, disk) =>
    let (result, a) := a.openAt disk location
    (result, a, disk)
  | .isOpen, s => (.ok (), s)
  | .names, s => (s.1.names.map fun _ => (), s)
  | .contains name, s => ((s.1.contains name).map fun _ => (), s)
  | .bytes name, s => ((s.1.bytes name).map fun _ => (), s)
  | .text name, s => ((s.1.text name).map fun _ => (), s)
  | .put p, (a, disk) =>
    let (result, a) := p.act disk a
    (result, a, disk)
  | .close, (a, disk) => a.close disk

/-- All that a call can do that does not close the handle: nothing; open it; or put something. -/
theorem Call.act_cases {c : Call} (stays : c ≠ .close) (a : Archive) (disk : Disk) :
    (c.act (a, disk)).2 = (a, disk) ∨
    (∃ location members, c = .openAt location ∧ a.location = none ∧
      load disk location = .ok members ∧
      c.act (a, disk) = (.ok (), ⟨some location, members, false⟩, disk)) ∨
    ∃ p : Put, c = .put p ∧ a.location.isSome = true ∧
      c.act (a, disk) = (.ok (), a.having p.name (p.content disk), disk) := by
  cases c with
  | openAt location =>
    rw [act]
    rcases a.openAt_cases disk location with ⟨cause, failed⟩ | ⟨members, shut, loaded, done⟩
    · exact .inl (by rw [failed])
    · exact .inr (.inl ⟨location, members, rfl, shut, loaded, by rw [done]⟩)
  | put p =>
    rw [act]
    rcases p.act_cases disk a with ⟨cause, failed⟩ | ⟨opened, done⟩
    · exact .inl (by rw [failed])
    · exact .inr (.inr ⟨p, rfl, opened, by rw [done]⟩)
  | close => exact absurd rfl stays
  | isOpen => exact .inl rfl
  | names => exact .inl rfl
  | contains name => exact .inl rfl
  | bytes name => exact .inl rfl
  | text name => exact .inl rfl

/-- A call that fails leaves the handle and the disk as they were, unless it closes the handle. -/
theorem act_of_error {c : Call} (stays : c ≠ .close) {a : Archive} {disk : Disk}
    {cause : ArchiveError} (h : (c.act (a, disk)).1 = .error cause) :
    (c.act (a, disk)).2 = (a, disk) := by
  rcases Call.act_cases stays a disk with same | ⟨location, members, -, -, -, done⟩ | ⟨p, -, -, done⟩
  · exact same
  · rw [done] at h
    cases h
  · rw [done] at h
    cases h

/-- A handle is closed after closing, or it had been before. -/
theorem close_cases (a : Archive) (disk : Disk) :
    (a.location = none ∧ a.close disk = (.error .notOpen, a, disk)) ∨
      (a.close disk).2.1 = closed := by
  rw [close]
  cases a.location with
  | none => exact .inl ⟨rfl, rfl⟩
  | some location =>
    simp only
    right
    split
    · split
      · rfl
      · rfl
    · rfl

/-! ## Courses -/

/-- What happens to a handle: a call, or a change of the disk by others. -/
inductive Event where
  | call (c : Call)
  | outside (disk : Disk)

/-- Lets something happen. -/
def Event.happen : Event → Archive × Disk → Archive × Disk
  | .call c, s => (c.act s).2
  | .outside disk, (a, _) => (a, disk)

/-- Lets one thing happen after the other. -/
def course (events : List Event) (s : Archive × Disk) : Archive × Disk :=
  events.foldl (fun s e => e.happen s) s

theorem course_concat (events : List Event) (e : Event) (s : Archive × Disk) :
    course (events ++ [e]) s = e.happen (course events s) := by
  rw [course, List.foldl_append]
  rfl

/-- A handle that is not open has no members and is not changed. -/
def Tidy (a : Archive) : Prop :=
  a.location = none → a = closed

theorem Tidy.happen {s : Archive × Disk} (h : s.1.Tidy) (e : Event) : (e.happen s).1.Tidy := by
  obtain ⟨a, disk⟩ := s
  cases e with
  | outside changed => exact h
  | call c =>
    by_cases closes : c = .close
    · subst closes
      rcases close_cases a disk with ⟨shut, failed⟩ | done
      · show Tidy (a.close disk).2.1
        rw [failed]
        exact h
      · exact fun _ => done
    · rw [Event.happen]
      rcases Call.act_cases closes a disk with
        same | ⟨location, members, -, -, -, done⟩ | ⟨p, -, opened, done⟩
      · rw [same]
        exact h
      · rw [done]
        exact fun shut => by cases shut
      · rw [done]
        intro shut
        rw [show a.location = none from shut] at opened
        cases opened

theorem Tidy.course {s : Archive × Disk} (h : s.1.Tidy) (events : List Event) :
    (course events s).1.Tidy := by
  induction events generalizing s with
  | nil => exact h
  | cons e events ih => exact ih (h.happen e)

/-- How an open handle came about: the handle was closed, the package was opened, and since then it
was not closed and some content was put. -/
structure Since (start : Archive × Disk) (events : List Event) (a : Archive) (location : Location)
    (members : List Held) : Prop where
  split : ∃ before after, events = before ++ .call (.openAt location) :: after ∧
    .call .close ∉ after ∧ (Archive.course before start).1 = closed ∧
    load (Archive.course before start).2 location = .ok members
  put : ∃ puts, a = havingAll ⟨some location, members, false⟩ puts

namespace Since

variable {start : Archive × Disk} {events : List Event} {a : Archive} {location : Location}
  {members : List Held}

theorem location_eq (h : Since start events a location members) : a.location = some location := by
  obtain ⟨puts, rfl⟩ := h.put
  exact location_havingAll _ puts

/-- Nothing was put into a handle that is not changed. -/
theorem held_of_clean (h : Since start events a location members) (clean : a.dirty = false) :
    a.held = members := by
  obtain ⟨puts, rfl⟩ := h.put
  rw [dirty_havingAll, Bool.false_or] at clean
  have none : puts = [] := by simpa using clean
  rw [none]
  rfl

theorem nodup (h : Since start events a location members)
    (distinct : (members.map Held.name).Nodup) : (a.held.map Held.name).Nodup := by
  obtain ⟨puts, rfl⟩ := h.put
  rw [held_havingAll]
  exact nodup_putAll distinct puts

theorem concat (h : Since start events a location members) {e : Event} (stays : e ≠ .call .close)
    {b : Archive} (put : b = a ∨ ∃ name data, b = a.having name data) :
    Since start (events ++ [e]) b location members := by
  obtain ⟨⟨before, after, rfl, open_, shut, loaded⟩, puts, rfl⟩ := h
  constructor
  · refine ⟨before, after ++ [e], by simp, ?_, shut, loaded⟩
    intro mem
    rcases List.mem_append.1 mem with mem | mem
    · exact open_ mem
    · exact stays (List.mem_singleton.1 mem).symm
  · rcases put with rfl | ⟨name, data, rfl⟩
    · exact ⟨puts, rfl⟩
    · exact ⟨puts ++ [(name, data)], by rw [havingAll_append]; rfl⟩

end Since

/-- **The states of a handle.**  A handle that was closed at first is closed at any later time, or it
was opened and not closed since. -/
theorem closed_or_since (disk : Disk) (events : List Event) :
    (course events (closed, disk)).1 = closed ∨ ∃ location members,
      Since (closed, disk) events (course events (closed, disk)).1 location members := by
  induction events using List.reverseRecOn with
  | nil => exact .inl rfl
  | append_singleton events e ih =>
    rw [course_concat]
    rcases before : course events (closed, disk) with ⟨a, there⟩
    rw [before] at ih
    cases e with
    | outside changed =>
      exact ih.imp_right fun ⟨location, members, since⟩ =>
        ⟨location, members, since.concat (fun same => by cases same) (.inl rfl)⟩
    | call c =>
      by_cases closes : c = .close
      · subst closes
        left
        rcases close_cases a there with ⟨shut, failed⟩ | done
        · show (a.close there).2.1 = closed
          rw [failed]
          rcases ih with same | ⟨location, members, since⟩
          · exact same
          · rw [since.location_eq] at shut
            cases shut
        · exact done
      · have stays : Event.call c ≠ .call .close := fun same => closes (Event.call.inj same)
        rw [Event.happen]
        rcases Call.act_cases closes a there with
          same | ⟨location, members, rfl, shut, loaded, done⟩ | ⟨p, -, opened, done⟩
        · rw [same]
          exact ih.imp_right fun ⟨location, members, since⟩ =>
            ⟨location, members, since.concat stays (.inl rfl)⟩
        · rw [done]
          -- a closed handle is opened, and nothing has been put yet
          have fresh : a = closed := by
            rcases ih with same | ⟨earlier, old, since⟩
            · exact same
            · rw [since.location_eq] at shut
              cases shut
          refine .inr ⟨location, members, ⟨events, [], rfl, List.not_mem_nil, ?_, ?_⟩, [], rfl⟩
          · rw [before]
            exact fresh
          · rw [before]
            exact loaded
        · rw [done]
          rcases ih with same | ⟨location, members, since⟩
          · rw [show a = closed from same] at opened
            cases opened
          · exact .inr ⟨location, members, since.concat stays (.inr ⟨_, _, rfl⟩)⟩

end DocumentMerge.Archive
