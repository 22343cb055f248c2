import FuseAdf.Adffs.Changes
import FuseAdf.Adffs.Covering
import FuseAdf.Adffs.Serving

/-!
# The files that the callbacks open

No callback keeps a file open.  Over a library that records its calls, each callback adds calls that
keep to the discipline of `FileEvent.next`, and since a recording library does the same as the library
under it, this is a property of every run.
-/

namespace FuseAdf

open Adfimage GuardedRun

/-- The file is opened. -/
def FileEvent.opens (number : ℕ) : FileEvent → Bool
  | .opened other _ => decide (other = number)
  | _ => false

/-- The file is the one that is open. -/
def holds (number : ℕ) (state : HandleState) : ℕ :=
  if state.2.map Prod.fst = some number then 1 else 0

/-- Files are opened in the order of their numbers. -/
theorem FileEvent.opens_next {state after : HandleState} {event : FileEvent}
    (h : event.next state = some after) (number : ℕ) :
    state.1 ≤ after.1 ∧
      (if event.opens number then 1 else 0) =
        if state.1 ≤ number ∧ number < after.1 then 1 else 0 := by
  unfold FileEvent.next at h
  split at h <;> simp_all [FileEvent.opens] <;> grind

theorem FileEvent.closed_next {state after : HandleState} {event : FileEvent}
    (h : event.next state = some after) (number : ℕ) :
    holds number state + (if event.opens number then 1 else 0) =
      (if event = .closed number then 1 else 0) + holds number after := by
  unfold FileEvent.next at h
  split at h <;> simp_all [FileEvent.opens, holds] <;> grind

/-- The calls lead from one state of the discipline to another. -/
def Keeps (state : HandleState) (events : List FileEvent) (after : HandleState) : Prop :=
  events.foldlM FileEvent.next state = some after

theorem keeps_cons {state after : HandleState} {event : FileEvent} {events : List FileEvent} :
    Keeps state (event :: events) after ↔
      ∃ between, event.next state = some between ∧ Keeps between events after := by
  rw [Keeps, List.foldlM_cons]
  exact Option.bind_eq_some_iff

theorem Keeps.append {state between after : HandleState} {events events' : List FileEvent}
    (h : Keeps state events between) (h' : Keeps between events' after) :
    Keeps state (events ++ events') after := by
  rw [Keeps, List.foldlM_append, show events.foldlM FileEvent.next state = some between from h]
  exact h'

/-- The files opened on the way are those whose numbers were given out, each of them once. -/
theorem Keeps.opens {state after : HandleState} {events : List FileEvent}
    (h : Keeps state events after) (number : ℕ) :
    state.1 ≤ after.1 ∧
      events.countP (·.opens number) = if state.1 ≤ number ∧ number < after.1 then 1 else 0 := by
  induction events generalizing state with
  | nil =>
    obtain rfl : state = after := Option.some.inj h
    simp
  | cons event events ih =>
    obtain ⟨between, hnext, hrest⟩ := keeps_cons.mp h
    obtain ⟨hle, hcount⟩ := FileEvent.opens_next hnext number
    obtain ⟨hle', hcount'⟩ := ih hrest
    rw [List.countP_cons, hcount, hcount']
    grind

/-- A file is closed when it was opened, unless it is the one that is still open. -/
theorem Keeps.closed {state after : HandleState} {events : List FileEvent}
    (h : Keeps state events after) (number : ℕ) :
    holds number state + events.countP (·.opens number) =
      events.count (.closed number) + holds number after := by
  induction events generalizing state with
  | nil =>
    obtain rfl : state = after := Option.some.inj h
    simp
  | cons event events ih =>
    obtain ⟨between, hnext, hrest⟩ := keeps_cons.mp h
    have hone := FileEvent.closed_next hnext number
    have hrest := ih hrest
    rw [List.countP_cons, List.count_cons]
    simp only [beq_iff_eq]
    omega

variable {Image File : Type}

/-- In an orderly record every file has been opened once and closed once. -/
theorem Orderly.count {seen : Watched Image} (h : Orderly seen) (number : ℕ) :
    seen.events.countP (·.opens number) = (if number < seen.files then 1 else 0) ∧
      seen.events.count (.closed number) = if number < seen.files then 1 else 0 := by
  have hopens := (Keeps.opens h number).2
  have hclosed := Keeps.closed h number
  simp [holds] at hopens hclosed
  exact ⟨hopens, hclosed ▸ hopens⟩

/-- What a callback adds to the record keeps to the discipline; one that writes nothing only looks into
files. -/
def Watched.Extended (writes : Bool) (seen after : Watched Image) : Prop :=
  ∃ events, after.events = seen.events ++ events ∧
    Keeps (seen.files, none) events (after.files, none) ∧
    (writes = false → ∀ event ∈ events, event.reads)

theorem Watched.Extended.refl (writes : Bool) (seen : Watched Image) : seen.Extended writes seen :=
  ⟨[], by simp, rfl, by simp⟩

variable {L : Adflib Image File} {writes : Bool}

theorem extended_watchChange (seen : Watched Image) (result : Image × RetCode)
    (hwrites : writes = true) : seen.Extended writes (watchChange seen result).1 :=
  ⟨[.changed], rfl, rfl, by simp [hwrites]⟩

theorem watchOpen_none {seen : Watched Image} {mode : AdfFileMode} {result : Image × Option File}
    (h : (watchOpen seen mode result).2 = none) :
    (watchOpen seen mode result).1.events = seen.events ∧
      (watchOpen seen mode result).1.files = seen.files := by
  rcases result with ⟨image, _ | file⟩
  · exact ⟨rfl, rfl⟩
  · cases h

theorem watchOpen_some {seen : Watched Image} {mode : AdfFileMode} {result : Image × Option File}
    {file : Numbered File} (h : (watchOpen seen mode result).2 = some file) :
    (watchOpen seen mode result).1.events = seen.events ++ [.opened seen.files mode] ∧
      (watchOpen seen mode result).1.files = seen.files + 1 ∧ file.number = seen.files := by
  rcases result with ⟨image, _ | found⟩
  · cases h
  · obtain rfl := Option.some.inj h
    exact ⟨rfl, rfl, rfl⟩

/-- The calls of the work, of which the last closes the file. -/
theorem FileWork.events {mode : AdfFileMode} (work : FileWork mode) (seen : Watched Image)
    (file : Numbered File) :
    ∃ events, (work.run L.watched seen file).events = seen.events ++ events ∧
      (work.run L.watched seen file).files = seen.files ∧
      (∀ files, Keeps (files, some (file.number, mode)) events (files, none)) ∧
      (mode = .read → ∀ event ∈ events, event.reads) := by
  cases work with
  | look =>
    refine ⟨[.closed file.number], rfl, rfl, fun files ↦ ?_, by simp [FileEvent.reads]⟩
    simp [Keeps, FileEvent.next]
  | read size offset =>
    by_cases hseek : (L.adfFileSeek seen.image file.file (offset.setWidth 32)).2.2 = adfRcOk
    · refine ⟨[.seek file.number, .read file.number, .closed file.number], ?_, ?_, fun files ↦ ?_,
        by simp [FileEvent.reads]⟩
      · simp [FileWork.run, imageAfterRead, Adflib.watched, watchUse, hseek, Watched.after]
      · simp [FileWork.run, imageAfterRead, Adflib.watched, watchUse, hseek, Watched.after]
      · simp [Keeps, FileEvent.next]
    · refine ⟨[.seek file.number, .closed file.number], ?_, ?_, fun files ↦ ?_,
        by simp [FileEvent.reads]⟩
      · simp [FileWork.run, imageAfterRead, Adflib.watched, watchUse, hseek, Watched.after]
      · simp [FileWork.run, imageAfterRead, Adflib.watched, watchUse, hseek, Watched.after]
      · simp [Keeps, FileEvent.next]
  | write buffer size offset =>
    by_cases hseek : (L.adfFileSeek seen.image file.file (offset.setWidth 32)).2.2 = adfRcOk
    · refine ⟨[.seek file.number, .write file.number, .closed file.number], ?_, ?_, fun files ↦ ?_,
        by simp⟩
      · simp [FileWork.run, imageAfterWrite, Adflib.watched, watchUse, hseek, Watched.after]
      · simp [FileWork.run, imageAfterWrite, Adflib.watched, watchUse, hseek, Watched.after]
      · simp [Keeps, FileEvent.next]
    · refine ⟨[.seek file.number, .closed file.number], ?_, ?_, fun files ↦ ?_, by simp⟩
      · simp [FileWork.run, imageAfterWrite, Adflib.watched, watchUse, hseek, Watched.after]
      · simp [FileWork.run, imageAfterWrite, Adflib.watched, watchUse, hseek, Watched.after]
      · simp [Keeps, FileEvent.next]
  | truncate newSize =>
    refine ⟨[.truncate file.number, .closed file.number], ?_, ?_, fun files ↦ ?_, by simp⟩
    · simp [FileWork.run, Adflib.watched, watchUse, Watched.after]
    · simp [FileWork.run, Adflib.watched, watchUse, Watched.after]
    · simp [Keeps, FileEvent.next]

/-- Whatever a callback does to the image, it leaves no file open. -/
theorem Change.extended {seen after : Watched Image} (h : Change L.watched writes seen after) :
    seen.Extended writes after := by
  cases h with
  | none => exact .refl writes seen
  | refused dir name mode hmode hopen =>
    obtain ⟨hevents, hfiles⟩ := watchOpen_none hopen
    refine ⟨[], by rw [List.append_nil]; exact hevents, ?_, by simp⟩
    exact congrArg (fun files ↦ some (files, Option.none)) hfiles.symm
  | worked dir name hmode work file hopen =>
    rename_i mode
    obtain ⟨hopened, hcounted, hnumber⟩ := watchOpen_some hopen
    obtain ⟨events, hevents, hfiles, hkeeps, hreads⟩ := work.events (L := L)
      (L.watched.adfFileOpen seen dir name mode).1 file
    refine ⟨.opened seen.files mode :: events, ?_, ?_, fun hwrites ↦ ?_⟩
    · rw [hevents]
      exact (congrArg (· ++ events) hopened).trans (by simp)
    · rw [hfiles, show (L.watched.adfFileOpen seen dir name mode).1.files = seen.files + 1 from hcounted]
      exact keeps_cons.mpr ⟨_, by simp [FileEvent.next], hnumber ▸ hkeeps _⟩
    · have hread : mode = .read := by
        cases mode with
        | read => rfl
        | write => exact absurd (hmode rfl) (by simp [hwrites])
      subst hread
      simpa [FileEvent.reads] using hreads rfl
  | access sector block access hwrites hread => exact extended_watchChange seen _ hwrites
  | createDir parent name hwrites => exact extended_watchChange seen _ hwrites
  | createFile parent name hwrites => exact extended_watchChange seen _ hwrites
  | removeEntry parent name hwrites => exact extended_watchChange seen _ hwrites
  | renameEntry oldParent oldName newParent newName hwrites =>
    exact extended_watchChange seen _ hwrites

theorem Orderly.extended {seen after : Watched Image} (h : Orderly seen)
    (hextended : seen.Extended writes after) : Orderly after := by
  obtain ⟨events, hevents, hkeeps, -⟩ := hextended
  rw [Orderly, hevents]
  exact Keeps.append h hkeeps

/-! ## A run of callbacks -/

/-- The handle when the record begins. -/
def Adfimage.watch (adfimage : Adfimage Image) : Adfimage (Watched Image) :=
  adfimage.through Watched.start

theorem watch_through (adfimage : Adfimage Image) :
    adfimage.watch.through Watched.image = adfimage := rfl

variable (L) (env : Env)

/-- The recording library gives the same replies, and leaves the same handle but for the record. -/
theorem returns_watched {before after : Adfimage Image} {seen : Adfimage (Watched Image)}
    {exchange : Callback × Reply} (hseen : seen.through Watched.image = before)
    (h : Callback.Returns L env before exchange after) :
    ∃ last, Callback.Returns L.watched env seen exchange last ∧
      last.through Watched.image = after := by
  obtain ⟨fuel, hrun⟩ := h
  rw [← hseen, run_through (watched_covers L)] at hrun
  obtain ⟨⟨reply, last⟩, hlast, hresult⟩ := Option.map_eq_some_iff.mp hrun
  obtain ⟨rfl, rfl⟩ := Prod.mk.inj hresult
  exact ⟨last, ⟨fuel, hlast⟩, rfl⟩

/-- Over any run, with any paths and any replies of the library: every file that was opened has been
closed, once and before the next one was opened; and callbacks that write nothing only look into
files. -/
theorem files_closed (start last : Adfimage Image) (exchanges : List (Callback × Reply))
    (hrun : Run (Callback.Returns L env) (fun _ _ ↦ True) start exchanges last) :
    ∃ seen : Adfimage (Watched Image),
      Run (Callback.Returns L.watched env) (fun _ _ ↦ True) start.watch exchanges seen ∧
      seen.through Watched.image = last ∧ Orderly seen.vol.image ∧
      (∀ number, seen.vol.image.events.countP (·.opens number) =
          (if number < seen.vol.image.files then 1 else 0) ∧
        seen.vol.image.events.count (.closed number) =
          if number < seen.vol.image.files then 1 else 0) ∧
      ((∀ exchange ∈ exchanges, exchange.1.writes = false) →
        ∀ event ∈ seen.vol.image.events, event.reads) := by
  induction hrun with
  | nil =>
    exact ⟨start.watch, .nil _, rfl, rfl, Orderly.count rfl, fun _ _ hevent ↦ nomatch hevent⟩
  | @snoc middle last exchanges exchange _ _ hreturns ih =>
    obtain ⟨seen, hrun, hmiddle, horderly, -, hreads⟩ := ih
    obtain ⟨after, hafter, hlast⟩ := returns_watched L env hmiddle hreturns
    have hextended : seen.vol.image.Extended exchange.1.writes after.vol.image := by
      obtain ⟨fuel, hcallback⟩ := hafter
      exact (change_of_run hcallback).extended
    have horderly := horderly.extended hextended
    refine ⟨after, hrun.snoc trivial hafter, hlast, horderly, horderly.count, fun hquiet ↦ ?_⟩
    obtain ⟨events, hevents, -, hnew⟩ := hextended
    rw [hevents]
    intro event hevent
    rcases List.mem_append.mp hevent with hold | hlate
    · exact hreads (fun earlier hmem ↦ hquiet earlier (List.mem_append_left _ hmem)) event hold
    · exact hnew (hquiet exchange (by simp)) event hlate

theorem files_closed_read :
    ∃ seen : Adfimage (Watched RamDisk),
      seen.through Watched.image = (adfimageRead RamDisk.lib RamDisk.mounted "/foo".toList 2 1).2.2 ∧
      Orderly seen.vol.image ∧ ∀ event ∈ seen.vol.image.events, event.reads := by
  obtain ⟨seen, -, hlast, horderly, -, hreads⟩ := files_closed RamDisk.lib default RamDisk.mounted
    (adfimageRead RamDisk.lib RamDisk.mounted "/foo".toList 2 1).2.2
    [(.read "/foo".toList 2 1, { Reply.status 2 with bytes := [79, 79] })]
    (.single trivial ⟨0, by rfl⟩)
  exact ⟨seen, hlast, horderly, hreads (by simp [Callback.writes])⟩

end FuseAdf
