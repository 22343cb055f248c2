import FuseAdf.Adffs.Serving
import FuseAdf.Adffs.Transfer
import FuseAdf.Adflib.Storage

/-!
# The content of a file over a run

For its users a file is the paths that lead to it and a sequence of bytes.  `FileCell.Step` says what a
callback with its reply means for such an object, without directories, handles or positions.  Whatever
callbacks come in between, a file that is there and is not itself removed goes through a run as a cell
does; so what is read is what was written.
-/

namespace FuseAdf

open Adfimage GuardedRun NameWalk

/-- A file: the paths that lead to it and its bytes. -/
@[ext]
structure FileCell where
  paths : CStr → Prop
  bytes : List UInt8

/-- A reply tells how many bytes have been moved, as a signed number; or there was no file to work
with, and none have. -/
def Reports (ret : ℤ) (count : BitVec 32) : Prop :=
  ret = count.toInt ∨ ret = -eNoEnt ∧ count = 0

theorem Reports.toNat_le {ret : ℤ} {count : BitVec 32} (h : Reports ret count) :
    ret.toNat ≤ count.toNat := by
  rcases h with rfl | ⟨rfl, -⟩
  · rw [BitVec.toInt_eq_toNat_cond]
    split_ifs <;> omega
  · simp [eNoEnt]

/-- What a callback and the reply to it mean for a file.  Numbers go to the library with their low
halves.  A write behind the end of the bytes fills the gap with zeros. -/
def FileCell.Step (before : FileCell) (exchange : Callback × Reply) (after : FileCell) : Prop :=
  match exchange.1 with
  | .read path size offset =>
      after = before ∧ (before.paths path →
        exchange.2.bytes <+: before.bytes.drop (offset.setWidth 32).toNat ∧
        ∃ count : BitVec 32, Reports exchange.2.ret count ∧
          exchange.2.bytes.length = count.toNat ∧ count.toNat ≤ (size.setWidth 32).toNat)
  | .write path buffer size offset =>
      after.paths = before.paths ∧
      (before.paths path → ∃ count : BitVec 32, Reports exchange.2.ret count ∧
        count.toNat ≤ (size.setWidth 32).toNat ∧
        after.bytes = Adflib.overwrite before.bytes (offset.setWidth 32).toNat
          (buffer.take count.toNat)) ∧
      (¬ before.paths path → after.bytes = before.bytes)
  | .truncate path newSize =>
      after.paths = before.paths ∧
      (before.paths path → exchange.2.ret = 0 →
        after.bytes = before.bytes.takeD (newSize.setWidth 32).toNat 0) ∧
      (¬ before.paths path ∨ exchange.2.ret ≠ 0 → after.bytes = before.bytes)
  | .mkdir _ => after.bytes = before.bytes ∧ ∀ path, before.paths path → after.paths path
  | .unlink _ | .rmdir _ | .rename _ _ => after.bytes = before.bytes
  | _ => after = before

variable {Image File : Type} {L : Adflib Image File} {files : L.Files}
  (storage : Adflib.Storage files) (mount : Mount) (sector : Sector)

/-- The file at the end of the names. -/
def Mount.fileAt (image : Image) (names : List CStr) : Option Sector :=
  (mount.dirAt L image names.dropLast).bind fun dir ↦ storage.locate image dir (entryName names)

/-- The file with this header, as it is found in an image. -/
def cellAt (image : Image) : FileCell where
  paths path := mount.fileAt storage image (pathNames path) = some sector
  bytes := files.stored image sector

instance (image : Image) (path : CStr) : Decidable ((cellAt storage mount sector image).paths path) :=
  inferInstanceAs (Decidable (mount.fileAt storage image (pathNames path) = some sector))

/-- The buffer of a write holds what it says, and the file itself is not removed. -/
def Callback.Spares (image : Image) : Callback → Prop
  | .write _ buffer size _ => size.toNat ≤ buffer.length
  | .unlink path | .rmdir path => mount.fileAt storage image (pathNames path) ≠ some sector
  | _ => True

/-- The image is sound and some name leads to the file. -/
structure Present (image : Image) : Prop where
  sound : storage.Sound image
  located : Adflib.Located storage.locate image sector

variable {storage mount sector} {image image' : Image} {own : Option Sector} {names : List CStr}

theorem dirAt_of_sameDirs (h : L.SameDirs image image') (names : List CStr) :
    mount.dirAt L image' names = mount.dirAt L image names := by
  rw [Mount.dirAt, Mount.dirAt,
    show L.adfChangeDir image' = L.adfChangeDir image from funext fun dir ↦ funext (h dir)]

theorem Present.keep (h : Present storage sector image) (hsound : storage.Sound image')
    (hkeeps : Adflib.KeepsAt files storage.locate sector own image image') :
    Present storage sector image' :=
  ⟨hsound, h.located.keep hkeeps.locate_iff⟩

theorem fileAt_iff (h : Adflib.KeepsAt files storage.locate sector own image image')
    (names : List CStr) :
    mount.fileAt storage image' names = some sector ↔
      mount.fileAt storage image names = some sector := by
  rw [Mount.fileAt, Mount.fileAt, dirAt_of_sameDirs h.sameDirs]
  cases mount.dirAt L image names.dropLast with
  | none => rfl
  | some dir => exact h.locate_iff dir _

theorem paths_of_keeps (h : Adflib.KeepsAt files storage.locate sector own image image') :
    (cellAt storage mount sector image').paths = (cellAt storage mount sector image).paths :=
  funext fun path ↦ propext (fileAt_iff h (pathNames path))

theorem cell_of_keeps (h : Adflib.KeepsAt files storage.locate sector own image image')
    (hother : own ≠ some sector) :
    cellAt storage mount sector image' = cellAt storage mount sector image :=
  FileCell.ext (paths_of_keeps h) (h.stored_eq hother)

/-- A file whose bytes are the same is the same. -/
theorem cell_of_stored {header : Sector}
    (h : Adflib.KeepsAt files storage.locate sector (some header) image image')
    (hstored : files.stored image' header = files.stored image header) :
    cellAt storage mount sector image' = cellAt storage mount sector image := by
  by_cases hsame : header = sector
  · subst hsame
    exact FileCell.ext (paths_of_keeps h) hstored
  · exact cell_of_keeps h fun hsome ↦ hsame (Option.some.inj hsome)

/-- Either no file is opened, or one that is this file exactly if the names lead there. -/
theorem withFile_opens (hpresent : Present storage sector image) (names : List CStr) {α : Type}
    (mode : AdfFileMode) (failure : α) (use : Image → File → α × Image) :
    ((mount.withFile L image names mode failure use).1 = failure ∧
      storage.Sound (mount.withFile L image names mode failure use).2 ∧
      Adflib.KeepsAt files storage.locate sector none image
        (mount.withFile L image names mode failure use).2) ∨
    ∃ opened file, mount.withFile L image names mode failure use = use opened file ∧
      storage.Sound opened ∧ Adflib.KeepsAt files storage.locate sector none image opened ∧
      (mount.fileAt storage image names = some sector ↔ files.header file = sector) ∧
      files.bytes opened file = files.stored image (files.header file) := by
  rw [Mount.withFile]
  cases hdir : mount.dirAt L image names.dropLast with
  | none => exact Or.inl ⟨rfl, hpresent.sound, Adflib.Keeps.refl.keepsAt⟩
  | some dir =>
    obtain ⟨hsound, hdirs, hkept⟩ := storage.fileOpen image dir (entryName names) mode hpresent.sound
    have hkeeps := (hkept sector hpresent.located).keepsAt hdirs
    have hfound := storage.open_locate image dir (entryName names) mode
    have hbytes := files.open_bytes image dir (entryName names) mode
    dsimp only
    generalize L.adfFileOpen image dir (entryName names) mode = result at hsound hkeeps hfound hbytes ⊢
    rcases result with ⟨opened, _ | file⟩
    · exact Or.inl ⟨rfl, hsound, hkeeps⟩
    · refine Or.inr ⟨opened, file, rfl, hsound, hkeeps, ?_, hbytes file rfl⟩
      rw [Mount.fileAt, hdir, Option.bind_some, ← hkeeps.locate_iff, hfound file hpresent.sound rfl,
        Option.some_inj]

/-- The bytes of a file are back in its place when it is closed. -/
theorem keeps_close {between : Image} {file file' : File} (hsound : storage.Sound between)
    (hkeeps : Adflib.KeepsAt files storage.locate sector (some (files.header file)) image between)
    (hheader : files.header file' = files.header file) :
    storage.Sound (L.adfFileClose between file') ∧
      Adflib.KeepsAt files storage.locate sector (some (files.header file)) image
        (L.adfFileClose between file') ∧
      files.stored (L.adfFileClose between file') (files.header file) = files.bytes between file' := by
  obtain ⟨hclosed, hclose⟩ := storage.fileClose between file' hsound
  rw [hheader] at hclose
  exact ⟨hclosed, hkeeps.trans hclose.keepsAt, hheader ▸ files.close_stored between file'⟩

/-- What an accepted position leaves. -/
theorem keeps_seek {opened : Image} (hsound : storage.Sound opened)
    (hkeeps : Adflib.KeepsAt files storage.locate sector none image opened) (file : File)
    (offset : BitVec 32) :
    storage.Sound (L.adfFileSeek opened file offset).1 ∧
      Adflib.KeepsAt files storage.locate sector (some (files.header file)) image
        (L.adfFileSeek opened file offset).1 := by
  obtain ⟨hsound, hseek⟩ := storage.fileSeek opened file offset hsound
  exact ⟨hsound, hkeeps.weaken.trans hseek.keepsAt⟩

theorem read_cell (hpresent : Present storage sector image) (names : List CStr) (size offset : BitVec 64) :
    Present storage sector (mount.read L image names size offset).2 ∧
      cellAt storage mount sector (mount.read L image names size offset).2 =
        cellAt storage mount sector image ∧
      (mount.fileAt storage image names = some sector →
        (mount.read L image names size offset).1.2 <+:
          (files.stored image sector).drop (offset.setWidth 32).toNat ∧
        ∃ count, Reports (mount.read L image names size offset).1.1 count ∧
          (mount.read L image names size offset).1.2.length = count.toNat ∧
          count.toNat ≤ (size.setWidth 32).toNat) := by
  rw [Mount.read]
  rcases withFile_opens hpresent names .read (-eNoEnt, []) _ with
    ⟨hfailure, hsound, hkeeps⟩ | ⟨opened, file, hresult, hopened, hkeeps, hat, hbytes⟩
  · refine ⟨hpresent.keep hsound hkeeps, cell_of_keeps hkeeps (by simp), fun _ ↦ ?_⟩
    rw [hfailure]
    exact ⟨List.nil_prefix, 0, Or.inr ⟨rfl, rfl⟩, rfl, Nat.zero_le _⟩
  · rw [hresult]
    obtain ⟨hmoved, hmove⟩ := keeps_seek hopened hkeeps file (offset.setWidth 32)
    have hheader := files.seek_header opened file (offset.setWidth 32)
    have hseek := files.seek_bytes opened file (offset.setWidth 32)
    have hposition := files.seek_position opened file (offset.setWidth 32)
    rcases hmovedTo : L.adfFileSeek opened file (offset.setWidth 32) with ⟨between, moved, rc⟩
    rw [hmovedTo] at hmoved hmove hheader hseek hposition
    by_cases hrc : rc = adfRcOk
    · obtain ⟨hdone, hread⟩ := storage.fileRead between moved (size.setWidth 32) hmoved
      have hheader' := files.read_header between moved (size.setWidth 32)
      have hkept := files.read_bytes between moved (size.setWidth 32)
      have hcount := files.read_count between moved (size.setWidth 32)
      have houtput := files.read_output between moved (size.setWidth 32)
      have hlength := files.read_length between moved (size.setWidth 32)
      simp only [if_pos hrc]
      generalize L.adfFileRead between moved (size.setWidth 32) = done at *
      rcases done with ⟨later, done, count, buffer⟩
      rw [hheader] at hread
      obtain ⟨hclosed, hclose, hstored⟩ :=
        keeps_close hdone (hmove.trans hread.keepsAt) (hheader'.trans hheader)
      refine ⟨hpresent.keep hclosed hclose, cell_of_stored hclose ?_, fun hhere ↦ ⟨?_, ?_⟩⟩
      · rw [hstored, hkept, hseek, hbytes]
      · rw [houtput, hseek, hposition hrc, hbytes, hat.mp hhere]
        exact List.take_prefix _ _
      · exact ⟨count, Or.inl rfl, hlength, hcount⟩
    · simp only [if_neg hrc]
      obtain ⟨hclosed, hclose, hstored⟩ := keeps_close hmoved hmove hheader
      refine ⟨hpresent.keep hclosed hclose, cell_of_stored hclose ?_, fun _ ↦ ?_⟩
      · rw [hstored, hseek, hbytes]
      · exact ⟨List.nil_prefix, 0, Or.inl rfl, rfl, Nat.zero_le _⟩

/-- A file that has other bytes is still found by the same paths, and no other file has changed. -/
theorem cell_of_changed {header : Sector} {bytes : List UInt8}
    (h : Adflib.KeepsAt files storage.locate sector (some header) image image')
    (hat : mount.fileAt storage image names = some sector ↔ header = sector)
    (hstored : files.stored image' header = bytes) :
    (cellAt storage mount sector image').paths = (cellAt storage mount sector image).paths ∧
      (mount.fileAt storage image names = some sector → files.stored image' sector = bytes) ∧
      (mount.fileAt storage image names ≠ some sector →
        files.stored image' sector = files.stored image sector) := by
  refine ⟨paths_of_keeps h, fun hhere ↦ ?_, fun hother ↦ ?_⟩
  · rw [← hat.mp hhere, hstored]
  · exact h.stored_eq fun hsome ↦ hother (hat.mpr (Option.some.inj hsome))

theorem write_cell (hpresent : Present storage sector image) (names : List CStr) {buffer : List UInt8}
    {size : BitVec 64} (offset : BitVec 64) (hbuffer : size.toNat ≤ buffer.length) :
    Present storage sector (mount.write L image names buffer size offset).2 ∧
      (cellAt storage mount sector (mount.write L image names buffer size offset).2).paths =
        (cellAt storage mount sector image).paths ∧
      (mount.fileAt storage image names = some sector →
        ∃ count, Reports (mount.write L image names buffer size offset).1 count ∧
          count.toNat ≤ (size.setWidth 32).toNat ∧
          files.stored (mount.write L image names buffer size offset).2 sector =
            Adflib.overwrite (files.stored image sector) (offset.setWidth 32).toNat
              (buffer.take count.toNat)) ∧
      (mount.fileAt storage image names ≠ some sector →
        files.stored (mount.write L image names buffer size offset).2 sector =
          files.stored image sector) := by
  have hlow := (toNat_low_le size).trans hbuffer
  rw [Mount.write]
  rcases withFile_opens hpresent names .write (-eNoEnt) _ with
    ⟨hfailure, hsound, hkeeps⟩ | ⟨opened, file, hresult, hopened, hkeeps, hat, hbytes⟩
  · have hcell : cellAt storage mount sector _ = cellAt storage mount sector image :=
      cell_of_keeps hkeeps (by simp)
    have hstored := congrArg FileCell.bytes hcell
    refine ⟨hpresent.keep hsound hkeeps, congrArg FileCell.paths hcell, fun _ ↦ ?_, fun _ ↦ hstored⟩
    refine ⟨0, Or.inr ⟨hfailure, rfl⟩, Nat.zero_le _, hstored.trans ?_⟩
    simp [cellAt]
  · rw [hresult]
    obtain ⟨hmoved, hmove⟩ := keeps_seek hopened hkeeps file (offset.setWidth 32)
    have hheader := files.seek_header opened file (offset.setWidth 32)
    have hseek := files.seek_bytes opened file (offset.setWidth 32)
    have hposition := files.seek_position opened file (offset.setWidth 32)
    rcases hmovedTo : L.adfFileSeek opened file (offset.setWidth 32) with ⟨between, moved, rc⟩
    rw [hmovedTo] at hmoved hmove hheader hseek hposition
    by_cases hrc : rc = adfRcOk
    · obtain ⟨hdone, hwrite⟩ := storage.fileWrite between moved (size.setWidth 32) buffer hmoved
      have hheader' := files.write_header between moved (size.setWidth 32) buffer
      have hcount := files.write_count between moved (size.setWidth 32) buffer
      have hwritten := files.write_bytes between moved (size.setWidth 32) buffer hlow
      simp only [if_pos hrc]
      generalize L.adfFileWrite between moved (size.setWidth 32) buffer = done at *
      rcases done with ⟨later, done, count⟩
      rw [hheader] at hwrite
      obtain ⟨hclosed, hclose, hstored⟩ :=
        keeps_close hdone (hmove.trans hwrite.keepsAt) (hheader'.trans hheader)
      obtain ⟨hpaths, hhere, hother⟩ := cell_of_changed hclose hat hstored
      refine ⟨hpresent.keep hclosed hclose, hpaths, fun hfile ↦ ?_, hother⟩
      refine ⟨count, Or.inl rfl, hcount, ?_⟩
      rw [hhere hfile, hwritten, hseek, hposition hrc, hbytes, hat.mp hfile]
    · simp only [if_neg hrc]
      obtain ⟨hclosed, hclose, hstored⟩ := keeps_close hmoved hmove hheader
      obtain ⟨hpaths, hhere, hother⟩ := cell_of_changed hclose hat hstored
      refine ⟨hpresent.keep hclosed hclose, hpaths, fun hfile ↦ ?_, hother⟩
      refine ⟨0, Or.inl rfl, Nat.zero_le _, ?_⟩
      rw [hhere hfile, hseek, hbytes, hat.mp hfile]
      simp

theorem truncate_cell (hpresent : Present storage sector image) (names : List CStr) (newSize : BitVec 64) :
    Present storage sector (mount.truncate L image names newSize).2 ∧
      (cellAt storage mount sector (mount.truncate L image names newSize).2).paths =
        (cellAt storage mount sector image).paths ∧
      (mount.fileAt storage image names = some sector →
        (mount.truncate L image names newSize).1 = 0 →
        files.stored (mount.truncate L image names newSize).2 sector =
          (files.stored image sector).takeD (newSize.setWidth 32).toNat 0) ∧
      (mount.fileAt storage image names ≠ some sector ∨
          (mount.truncate L image names newSize).1 ≠ 0 →
        files.stored (mount.truncate L image names newSize).2 sector =
          files.stored image sector) := by
  rw [Mount.truncate]
  rcases withFile_opens hpresent names .write (-1) _ with
    ⟨hfailure, hsound, hkeeps⟩ | ⟨opened, file, hresult, hopened, hkeeps, hat, hbytes⟩
  · have hcell : cellAt storage mount sector _ = cellAt storage mount sector image :=
      cell_of_keeps hkeeps (by simp)
    refine ⟨hpresent.keep hsound hkeeps, congrArg FileCell.paths hcell, fun _ hzero ↦ ?_,
      fun _ ↦ congrArg FileCell.bytes hcell⟩
    rw [hfailure] at hzero
    exact absurd hzero (by decide)
  · rw [hresult]
    obtain ⟨hcut, htruncate⟩ := storage.fileTruncate opened file (newSize.setWidth 32) hopened
    have hheader := files.truncate_header opened file (newSize.setWidth 32)
    have hdone := files.truncate_bytes opened file (newSize.setWidth 32)
    have hfailed := files.truncate_fail opened file (newSize.setWidth 32)
    rcases hcutTo : L.adfFileTruncate opened file (newSize.setWidth 32) with ⟨later, cut, rc⟩
    rw [hcutTo] at hcut htruncate hheader hdone hfailed
    obtain ⟨hclosed, hclose, hstored⟩ :=
      keeps_close hcut (hkeeps.weaken.trans htruncate.keepsAt) hheader
    obtain ⟨hpaths, hhere, hother⟩ := cell_of_changed hclose hat hstored
    refine ⟨hpresent.keep hclosed hclose, hpaths, fun hfile hzero ↦ ?_, fun hrefused ↦ ?_⟩
    · have hrc : rc = adfRcOk := by
        by_contra hrc
        simp [hrc] at hzero
      rw [hhere hfile, hdone hrc, hbytes, hat.mp hfile]
    · by_cases hfile : mount.fileAt storage image names = some sector
      · have hrc : rc ≠ adfRcOk := by
          intro hrc
          exact hrefused.elim (absurd hfile) fun hne ↦ hne (if_pos hrc)
        rw [hhere hfile, hfailed hrc, hbytes, hat.mp hfile]
      · exact hother hfile

theorem open_cell (hpresent : Present storage sector image) (names : List CStr) :
    Present storage sector (mount.open L image names).2 ∧
      cellAt storage mount sector (mount.open L image names).2 =
        cellAt storage mount sector image := by
  rw [Mount.open]
  rcases withFile_opens hpresent names .read (-1) _ with
    ⟨-, hsound, hkeeps⟩ | ⟨opened, file, hresult, hopened, hkeeps, -, hbytes⟩
  · exact ⟨hpresent.keep hsound hkeeps, cell_of_keeps hkeeps (by simp)⟩
  · obtain ⟨hclosed, hclose, hstored⟩ := keeps_close hopened hkeeps.weaken (refl (files.header file))
    rw [hresult]
    exact ⟨hpresent.keep hclosed hclose, cell_of_stored hclose (hstored.trans hbytes)⟩

/-- The size of a file is read from its open header. -/
theorem statIn_cell (hpresent : Present storage sector image) (names : List CStr) (dir : Sector)
    (dentry : AdfimageDentry) :
    Present storage sector (mount.statIn L image names dir dentry).2 ∧
      cellAt storage mount sector (mount.statIn L image names dir dentry).2 =
        cellAt storage mount sector image := by
  obtain ⟨hsound, hdirs, hkept⟩ := storage.fileOpen image dir (entryName names) .read hpresent.sound
  have hkeeps := (hkept sector hpresent.located).keepsAt hdirs
  have hbytes := files.open_bytes image dir (entryName names) .read
  unfold Mount.statIn
  cases dentry.type with
  | file | linkfile =>
    dsimp only
    generalize L.adfFileOpen image dir (entryName names) .read = result at hsound hkeeps hbytes ⊢
    rcases result with ⟨opened, _ | file⟩
    · exact ⟨hpresent.keep hsound hkeeps, cell_of_keeps hkeeps (by simp)⟩
    · obtain ⟨hclosed, hclose, hstored⟩ :=
        keeps_close hsound hkeeps.weaken (refl (files.header file))
      exact ⟨hpresent.keep hclosed hclose, cell_of_stored hclose (hstored.trans (hbytes file rfl))⟩
  | directory | linkdir | softlink | unknown | none => exact ⟨hpresent, rfl⟩

theorem getattr_cell (env : Env) (hpresent : Present storage sector image) (names : List CStr)
    (here : Sector) :
    Present storage sector (mount.getattr L env image names here).2 ∧
      cellAt storage mount sector (mount.getattr L env image names here).2 =
        cellAt storage mount sector image := by
  rw [Mount.getattr]
  split_ifs
  · exact ⟨hpresent, rfl⟩
  · cases mount.dirAt L image names.dropLast with
    | none => exact ⟨hpresent, rfl⟩
    | some dir =>
      dsimp only
      generalize dentryOf _ = dentry
      have hstat : Present storage sector (mount.statIn L image names dir dentry).2 ∧
          cellAt storage mount sector (mount.statIn L image names dir dentry).2 =
            cellAt storage mount sector image := statIn_cell hpresent names dir dentry
      generalize mount.statIn L image names dir dentry = result at hstat ⊢
      rcases result with ⟨_ | statbuf, after⟩ <;> exact hstat

theorem chmod_cell (hpresent : Present storage sector image) (names : List CStr) (mode : BitVec 32) :
    Present storage sector (mount.chmod L image names mode).2 ∧
      cellAt storage mount sector (mount.chmod L image names mode).2 =
        cellAt storage mount sector image := by
  rw [Mount.chmod]
  dsimp only
  split_ifs
  · exact ⟨hpresent, rfl⟩
  · cases hread : L.adfReadEntryBlock image (mount.dentryNear L image names).adflibEntry.sector with
    | none => exact ⟨hpresent, rfl⟩
    | some block =>
      obtain ⟨hsound, hkeeps⟩ := storage.changeAccess image _ block
        (setpermAccess L (chmodPerms mode) block.access) hpresent.sound hread
      exact ⟨hpresent.keep hsound hkeeps.keepsAt, cell_of_keeps hkeeps.keepsAt (by simp)⟩

/-- An entry is created or removed somewhere. -/
theorem changeEntry_cases (image : Image) (names : List CStr)
    (call : Image → Sector → CStr → Image × RetCode) (result : RetCode → ℤ) :
    (mount.changeEntry L image names call result).2 = image ∨
      ∃ dir, mount.dirAt L image names.dropLast = some dir ∧
        (mount.changeEntry L image names call result).2 = (call image dir (entryName names)).1 := by
  rw [Mount.changeEntry]
  cases hdir : mount.dirAt L image names.dropLast with
  | none => exact Or.inl rfl
  | some dir => exact Or.inr ⟨dir, rfl, rfl⟩

theorem create_cell (hpresent : Present storage sector image) (names : List CStr)
    (result : RetCode → ℤ) :
    Present storage sector (mount.changeEntry L image names L.adfCreateFile result).2 ∧
      cellAt storage mount sector (mount.changeEntry L image names L.adfCreateFile result).2 =
        cellAt storage mount sector image := by
  rcases changeEntry_cases image names L.adfCreateFile result with hsame | ⟨dir, -, hcreated⟩
  · rw [hsame]
    exact ⟨hpresent, rfl⟩
  · obtain ⟨hsound, hdirs, hkept⟩ := storage.createFile image dir (entryName names) hpresent.sound
    have hkeeps := (hkept sector hpresent.located).keepsAt hdirs
    rw [hcreated]
    exact ⟨hpresent.keep hsound hkeeps, cell_of_keeps hkeeps (by simp)⟩

/-- Where names lead to directories as before, a path to the file is one to it also afterwards. -/
theorem paths_of_monotone
    (hdirs : ∀ dir name next, L.adfChangeDir image dir name = some next →
      L.adfChangeDir image' dir name = some next)
    (h : Adflib.KeepsFile files storage.locate sector image image') {path : CStr}
    (hpath : (cellAt storage mount sector image).paths path) :
    (cellAt storage mount sector image').paths path := by
  obtain ⟨dir, hdir, hname⟩ := Option.bind_eq_some_iff.mp hpath
  exact Option.bind_eq_some_iff.mpr ⟨dir, walk_mono hdirs hdir, (h.1 dir _).mpr hname⟩

theorem mkdir_cell (hpresent : Present storage sector image) (names : List CStr)
    (result : RetCode → ℤ) :
    Present storage sector (mount.changeEntry L image names L.adfCreateDir result).2 ∧
      files.stored (mount.changeEntry L image names L.adfCreateDir result).2 sector =
        files.stored image sector ∧
      ∀ path, (cellAt storage mount sector image).paths path →
        (cellAt storage mount sector
          (mount.changeEntry L image names L.adfCreateDir result).2).paths path := by
  rcases changeEntry_cases image names L.adfCreateDir result with hsame | ⟨dir, -, hcreated⟩
  · rw [hsame]
    exact ⟨hpresent, rfl, fun path hpath ↦ hpath⟩
  · obtain ⟨hsound, hdirs, hkept⟩ := storage.createDir image dir (entryName names) hpresent.sound
    have hfile := hkept sector hpresent.located
    rw [hcreated]
    exact ⟨⟨hsound, hpresent.located.keep hfile.1⟩, hfile.2,
      fun path hpath ↦ paths_of_monotone hdirs hfile hpath⟩

theorem remove_cell (hpresent : Present storage sector image) (names : List CStr)
    (result : RetCode → ℤ) (hother : mount.fileAt storage image names ≠ some sector) :
    Present storage sector (mount.changeEntry L image names L.adfRemoveEntry result).2 ∧
      files.stored (mount.changeEntry L image names L.adfRemoveEntry result).2 sector =
        files.stored image sector := by
  rcases changeEntry_cases image names L.adfRemoveEntry result with hsame | ⟨dir, hdir, hremoved⟩
  · rw [hsame]
    exact ⟨hpresent, rfl⟩
  · obtain ⟨hsound, hkept⟩ := storage.removeEntry image dir (entryName names) hpresent.sound
    rw [Mount.fileAt, hdir] at hother
    obtain ⟨hlocated, hstored⟩ := hkept sector hpresent.located hother
    rw [hremoved]
    exact ⟨⟨hsound, hlocated⟩, hstored⟩

theorem rename_cell (hpresent : Present storage sector image) (srcNames dstNames : List CStr) :
    Present storage sector (mount.rename L image srcNames dstNames).2 ∧
      files.stored (mount.rename L image srcNames dstNames).2 sector =
        files.stored image sector := by
  rw [Mount.rename]
  dsimp only
  cases (checkParent (mount.dentryNear L image srcNames.dropLast)).or
      (checkParent (mount.dentryNear L image dstNames.dropLast)) with
  | some error => exact ⟨hpresent, rfl⟩
  | none =>
    dsimp only
    by_cases hlow : parentSector (mount.dentryNear L image srcNames.dropLast) < 2 ∨
        parentSector (mount.dentryNear L image dstNames.dropLast) < 2
    · rw [if_pos hlow]
      exact ⟨hpresent, rfl⟩
    · rw [if_neg hlow]
      obtain ⟨hsound, hkept⟩ := storage.renameEntry image
        (parentSector (mount.dentryNear L image srcNames.dropLast)) (entryName srcNames)
        (parentSector (mount.dentryNear L image dstNames.dropLast)) (entryName dstNames)
        hpresent.sound
      obtain ⟨hlocated, hstored⟩ := hkept sector hpresent.located
      exact ⟨⟨hsound, hlocated⟩, hstored⟩

/-! ## Runs -/

variable {env : Env}

theorem step_of_some {here : Reply × Image} {reply : Reply}
    (h : some here = some (reply, image')) : here.1 = reply ∧ here.2 = image' :=
  Prod.mk.inj (Option.some.inj h)

/-- An answer of the server is a step of the cell. -/
theorem serve_cell {here : Sector} {callback : Callback} {reply : Reply}
    (hpresent : Present storage sector image)
    (hspares : callback.Spares storage mount sector image)
    (h : callback.serve L env mount here image = some (reply, image')) :
    Present storage sector image' ∧
      FileCell.Step (cellAt storage mount sector image) (callback, reply)
        (cellAt storage mount sector image') := by
  cases callback with
  | getattr path =>
    obtain ⟨-, rfl⟩ := step_of_some h
    exact getattr_cell env hpresent (pathNames path) here
  | readlink path buf len =>
    obtain ⟨-, rfl⟩ := step_of_some h
    exact ⟨hpresent, rfl⟩
  | mkdir path =>
    obtain ⟨-, rfl⟩ := step_of_some h
    exact mkdir_cell hpresent (pathNames path) id
  | unlink path =>
    obtain ⟨-, rfl⟩ := step_of_some h
    exact remove_cell hpresent (pathNames path) id hspares
  | rmdir path =>
    obtain ⟨-, rfl⟩ := step_of_some h
    exact remove_cell hpresent (pathNames path) id hspares
  | rename srcPath dstPath =>
    rw [Callback.serve] at h
    split_ifs at h
    obtain ⟨-, rfl⟩ := step_of_some h
    exact rename_cell hpresent (pathNames srcPath) (pathNames dstPath)
  | chmod path mode =>
    obtain ⟨-, rfl⟩ := step_of_some h
    exact chmod_cell hpresent (pathNames path) mode
  | truncate path newSize =>
    obtain ⟨rfl, rfl⟩ := step_of_some h
    exact truncate_cell hpresent (pathNames path) newSize
  | «open» path =>
    obtain ⟨-, rfl⟩ := step_of_some h
    exact open_cell hpresent (pathNames path)
  | read path size offset =>
    obtain ⟨rfl, rfl⟩ := step_of_some h
    exact read_cell hpresent (pathNames path) size offset
  | write path buffer size offset =>
    obtain ⟨rfl, rfl⟩ := step_of_some h
    exact write_cell hpresent (pathNames path) offset hspares
  | readdir path filler =>
    obtain ⟨-, rfl⟩ := step_of_some h
    exact ⟨hpresent, rfl⟩
  | create path =>
    obtain ⟨-, rfl⟩ := step_of_some h
    exact create_cell hpresent (pathNames path) fun rc ↦ if rc = adfRcOk then 0 else -1
  | chown path =>
    obtain ⟨-, rfl⟩ := step_of_some h
    exact ⟨hpresent, rfl⟩
  | statfs path =>
    obtain ⟨-, rfl⟩ := step_of_some h
    exact ⟨hpresent, rfl⟩
  | utimens path =>
    obtain ⟨-, rfl⟩ := step_of_some h
    exact ⟨hpresent, rfl⟩

variable (storage) (sector) (env)

/-- What may be asked for in a run: paths inside of the mount point, and not that the file goes away. -/
def SparesFile (adfimage : Adfimage Image) (exchange : Callback × Reply) : Prop :=
  exchange.1.FromFuse ∧ exchange.1.Spares storage adfimage.mount sector adfimage.vol.image

theorem cells_of_run {start last : Adfimage Image} {exchanges : List (Callback × Reply)}
    (hpresent : Present storage sector start.vol.image)
    (hrun : Run (Callback.Returns L env) (SparesFile storage sector) start exchanges last) :
    Run FileCell.Step (fun _ _ ↦ True) (cellAt storage start.mount sector start.vol.image) exchanges
      (cellAt storage start.mount sector last.vol.image) := by
  obtain ⟨cell, hcells, -, -, rfl⟩ : ∃ cell,
      Run FileCell.Step (fun _ _ ↦ True) (cellAt storage start.mount sector start.vol.image)
        exchanges cell ∧ Present storage sector last.vol.image ∧ last.mount = start.mount ∧
        cell = cellAt storage start.mount sector last.vol.image := by
    apply hrun.simulate (fun adfimage cell ↦ Present storage sector adfimage.vol.image ∧
      adfimage.mount = start.mount ∧ cell = cellAt storage start.mount sector adfimage.vol.image) _
      ⟨hpresent, rfl, rfl⟩
    rintro before _ ⟨callback, reply⟩ after ⟨hpresent, hmount, rfl⟩ ⟨hfuse, hspares⟩ hreturns
    obtain ⟨⟨here, hserve⟩, hafter⟩ := hreturns.serves hfuse
    rw [hmount] at hserve hspares
    obtain ⟨hpresent, hstep⟩ := serve_cell hpresent hspares hserve
    exact ⟨trivial, _, hstep, hpresent, hafter.trans hmount, rfl⟩
  exact hcells

/-- Whatever else is done to the volume on paths inside of the mount point, a file goes through a run as
if it were alone. -/
theorem file_is_cell (start last : Adfimage Image) (exchanges : List (Callback × Reply))
    (hpresent : Present storage sector start.vol.image)
    (hrun : Run (Callback.Returns L env) (SparesFile storage sector) start exchanges last) :
    Run FileCell.Step (fun _ _ ↦ True) (cellAt storage start.mount sector start.vol.image) exchanges
      (cellAt storage start.mount sector last.vol.image) :=
  cells_of_run storage sector env hpresent hrun

theorem file_is_cell_foo :
    Run FileCell.Step (fun _ _ ↦ True)
      (cellAt RamDisk.storage RamDisk.mounted.mount 883 RamDisk.sample)
      [(.write "/foo".toList [88, 89] 2 1, .status 2), (.create "/new".toList, .status 0)]
      (cellAt RamDisk.storage RamDisk.mounted.mount 883
        (adfimageCreate RamDisk.lib
          (adfimageWrite RamDisk.lib RamDisk.mounted "/foo".toList [88, 89] 2 1).2
          "/new".toList).2.vol.image) :=
  file_is_cell RamDisk.storage 883 default RamDisk.mounted _ _
    ⟨RamDisk.sound_sample, 880, "foo".toList, by decide +kernel⟩
    (.cons ⟨⟨by decide, by decide, by decide⟩, Nat.le_refl 2⟩ ⟨0, rfl⟩
      (.single ⟨⟨by decide, by decide, by decide⟩, trivial⟩ ⟨0, rfl⟩))

/-! ## Reading what was written -/

/-- A part of the bytes that were written over others. -/
theorem take_drop_overwrite {old new : List UInt8} {position start count : ℕ}
    (hstart : position ≤ start) (hend : start + count ≤ position + new.length) :
    ((Adflib.overwrite old position new).drop start).take count =
      (new.drop (start - position)).take count := by
  obtain ⟨skipped, rfl⟩ := Nat.exists_eq_add_of_le hstart
  rw [Nat.add_sub_cancel_left, Adflib.overwrite]
  split_ifs with hnew
  · rw [hnew, List.length_nil] at hend
    obtain rfl : count = 0 := by omega
    rw [List.take_zero, List.take_zero]
  · rw [List.append_assoc, List.drop_append, List.takeD_length,
      List.drop_of_length_le (by rw [List.takeD_length]; omega), List.nil_append,
      Nat.add_sub_cancel_left, List.drop_append_of_le_length (by omega),
      List.take_append_of_le_length (by rw [List.length_drop]; omega)]

/-- The callback neither changes names nor the bytes of the file with these paths. -/
def Callback.Leaves (paths : CStr → Prop) : Callback → Prop
  | .write path _ _ _ | .truncate path _ => ¬ paths path
  | .mkdir _ | .unlink _ | .rmdir _ | .rename _ _ => False
  | _ => True

theorem FileCell.Step.eq_of_leaves {before after : FileCell} {exchange : Callback × Reply}
    (h : before.Step exchange after) (hleaves : exchange.1.Leaves before.paths) : after = before := by
  rcases exchange with ⟨callback, reply⟩
  cases callback with
  | write path buffer size offset => exact FileCell.ext h.1 (h.2.2 hleaves)
  | truncate path newSize => exact FileCell.ext h.1 (h.2.2 (Or.inl hleaves))
  | mkdir path | unlink path | rmdir path => exact absurd hleaves id
  | rename srcPath dstPath => exact absurd hleaves id
  | read path size offset => exact h.1
  | getattr path | readlink path buf len | chmod path mode | chown path | «open» path | statfs path
  | readdir path filler | create path | utimens path => exact h

theorem FileCell.eq_of_leaves {before after : FileCell} {exchanges : List (Callback × Reply)}
    (hrun : Run FileCell.Step (fun _ _ ↦ True) before exchanges after)
    (hleaves : ∀ exchange ∈ exchanges, exchange.1.Leaves before.paths) : after = before := by
  induction hrun with
  | nil => rfl
  | snoc _ _ hstep ih =>
    have hsame := ih fun exchange hmem ↦ hleaves exchange (List.mem_append_left _ hmem)
    rw [hsame] at hstep
    exact hstep.eq_of_leaves (hleaves _ (by simp))

/-- What is read in the part of a file that was written last is what was written there. -/
theorem FileCell.read_back {before written after : FileCell} {path path' : CStr}
    {buffer : List UInt8} {size size' offset offset' : BitVec 64} {wrote got : Reply}
    (hwrite : before.Step (.write path buffer size offset, wrote) written)
    (hread : written.Step (.read path' size' offset', got) after)
    (hpath : before.paths path) (hpath' : before.paths path') (hbuffer : size.toNat ≤ buffer.length)
    (hstart : (offset.setWidth 32).toNat ≤ (offset'.setWidth 32).toNat)
    (hend : (offset'.setWidth 32).toNat + got.bytes.length ≤
      (offset.setWidth 32).toNat + wrote.ret.toNat) :
    got.bytes = (buffer.drop ((offset'.setWidth 32).toNat - (offset.setWidth 32).toNat)).take
      got.bytes.length := by
  obtain ⟨hpaths, hwritten, -⟩ := hwrite
  obtain ⟨count, hreports, hcount, hbytes⟩ := hwritten hpath
  obtain ⟨-, hgot⟩ := hread
  obtain ⟨hfront, -⟩ := hgot (hpaths ▸ hpath')
  have hreported : wrote.ret.toNat ≤ count.toNat := hreports.toNat_le
  have hlow := (toNat_low_le size).trans hbuffer
  have hlength : (buffer.take count.toNat).length = count.toNat := by
    rw [List.length_take]
    omega
  rw [hbytes] at hfront
  calc
    got.bytes = ((Adflib.overwrite before.bytes (offset.setWidth 32).toNat
        (buffer.take count.toNat)).drop (offset'.setWidth 32).toNat).take got.bytes.length :=
      List.prefix_iff_eq_take.mp hfront
    _ = ((buffer.take count.toNat).drop
        ((offset'.setWidth 32).toNat - (offset.setWidth 32).toNat)).take got.bytes.length :=
      take_drop_overwrite hstart (by omega)
    _ = _ := by
      rw [List.drop_take, List.take_take]
      congr 1
      omega

/-- Between a write and a read of the same file, anything may be done on paths inside of the mount point
but changing names and writing to this file; then the bytes that were written are read, as far as the
read stays within what the write reported.  A write may begin behind the end of the file.  Offsets are
taken as their low halves, and the buffer of a write holds at least the bytes that it is to write. -/
theorem read_after_write (start last : Adfimage Image) (path path' : CStr) (buffer : List UInt8)
    (size size' offset offset' : BitVec 64) (wrote got : Reply)
    (exchanges : List (Callback × Reply)) (hpresent : Present storage sector start.vol.image)
    (hpath : (cellAt storage start.mount sector start.vol.image).paths path)
    (hpath' : (cellAt storage start.mount sector start.vol.image).paths path')
    (hrun : Run (Callback.Returns L env) (SparesFile storage sector) start
      ((.write path buffer size offset, wrote) ::
        (exchanges ++ [(.read path' size' offset', got)])) last)
    (hleaves : ∀ exchange ∈ exchanges,
      exchange.1.Leaves (cellAt storage start.mount sector start.vol.image).paths)
    (hstart : (offset.setWidth 32).toNat ≤ (offset'.setWidth 32).toNat)
    (hend : (offset'.setWidth 32).toNat + got.bytes.length ≤
      (offset.setWidth 32).toNat + wrote.ret.toNat) :
    got.bytes = (buffer.drop ((offset'.setWidth 32).toNat - (offset.setWidth 32).toNat)).take
      got.bytes.length := by
  have hcells := cells_of_run storage sector env hpresent hrun
  have hbuffer : size.toNat ≤ buffer.length := by
    rw [← List.singleton_append] at hrun
    obtain ⟨middle, hfirst, -⟩ := hrun.split
    exact hfirst.of_single.1.2
  rw [← List.singleton_append] at hcells
  obtain ⟨written, hwrite, hrest⟩ := hcells.split
  obtain ⟨later, hquiet, hread⟩ := hrest.split
  obtain ⟨-, hwrite⟩ := hwrite.of_single
  obtain ⟨-, hread⟩ := hread.of_single
  rw [← hwrite.1] at hleaves
  rw [FileCell.eq_of_leaves hquiet hleaves] at hread
  exact FileCell.read_back hwrite hread hpath hpath' hbuffer hstart hend

theorem read_after_write_foo :
    (adfimageRead RamDisk.lib
      (adfimageWrite RamDisk.lib
        (adfimageCreate RamDisk.lib
          (adfimageWrite RamDisk.lib RamDisk.mounted "/foo".toList [88, 89, 79] 3 0).2
          "/new".toList).2
        "/Plot/map".toList [1] 1 0).2
      "/foo".toList 2 1).2.1 = ([88, 89, 79].drop 1).take 2 := by
  have hother : ¬ (cellAt RamDisk.storage RamDisk.mounted.mount 883 RamDisk.sample).paths
      "/Plot/map".toList := by
    decide +kernel
  refine read_after_write RamDisk.storage 883 default RamDisk.mounted _ "/foo".toList "/foo".toList
    [88, 89, 79] 3 2 0 1 (.status 3) { Reply.status 2 with bytes := [89, 79] }
    [(.create "/new".toList, .status 0), (.write "/Plot/map".toList [1] 1 0, .status 1)]
    ⟨RamDisk.sound_sample, 880, "foo".toList, by decide +kernel⟩ (by decide +kernel)
    (by decide +kernel)
    (.cons ⟨⟨by decide, by decide, by decide⟩, Nat.le_refl 3⟩ ⟨0, rfl⟩
      (.cons ⟨⟨by decide, by decide, by decide⟩, trivial⟩ ⟨0, rfl⟩
        (.cons ⟨⟨by decide, by decide, by decide⟩, Nat.le_refl 1⟩ ⟨0, rfl⟩
          (.single ⟨⟨by decide, by decide, by decide⟩, trivial⟩ ⟨0, rfl⟩))))
    ?_ (by decide) (by decide)
  intro exchange hexchange
  rcases List.mem_cons.mp hexchange with rfl | hexchange
  · exact trivial
  · obtain rfl := List.mem_singleton.mp hexchange
    exact hother

end FuseAdf
