import FuseAdf.Adffs.Callbacks
import FuseAdf.Adfimage.Lookup
import FuseAdf.Adflib.RamDisk
import Mathlib.Data.BitVec

/-!
# 64-bit positions in a 32-bit interface

FUSE passes positions and sizes of 64 bits, ADFlib takes 32 bits, and the conversion keeps the low
half without a check.  A transfer is exact when both numbers fit.  Beyond that it is exact only
where the call with the low halves moves nothing, because the file cannot be opened, the library
refuses the position or the size, or there is no byte to move there.
-/

namespace FuseAdf

open Adfimage NameWalk

variable {Image File : Type} (L : Adflib Image File)

/-- The number can be passed to ADFlib. -/
def Fits (number : BitVec 64) : Prop := number.toNat < 2 ^ 32

instance (number : BitVec 64) : Decidable (Fits number) :=
  inferInstanceAs (Decidable (number.toNat < 2 ^ 32))

/-- The file that the common beginning of the file operations opens, and the handle then. -/
def openedFile (adfimage : Adfimage Image) (path : CStr) (mode : AdfFileMode) :
    Option (File × Adfimage Image) :=
  match openInParent L adfimage path mode with
  | .noDir _ => none
  | .noFile _ => none
  | .opened file _ adfimage => some (file, adfimage)

/-- Every file that the operation opens has the bytes that it had before. -/
def Unchanged {L : Adflib Image File} (files : L.Files) (before : Adfimage Image) (path : CStr)
    (mode : AdfFileMode) (after : Adfimage Image) : Prop :=
  ∀ opened ∈ openedFile L before path mode,
    files.stored after.vol.image (files.header opened.1) =
      files.stored before.vol.image (files.header opened.1)

/-- What reading must do: bytes that are reported are those at the position asked for and not more
than asked for, and numbers that do not fit give none. -/
def ReadExact {L : Adflib Image File} (files : L.Files) (adfimage : Adfimage Image) (path : CStr)
    (size offset : BitVec 64) : Prop :=
  let (ret, bytes, after) := adfimageRead L adfimage path size offset
  (0 < ret → ∃ opened ∈ openedFile L adfimage path .read,
    ret ≤ size.toNat ∧ (bytes.length : ℤ) = ret ∧
      bytes = ((files.stored adfimage.vol.image (files.header opened.1)).drop
        offset.toNat).take ret.toNat) ∧
  (¬ (Fits offset ∧ Fits size) → ret ≤ 0 ∧ Unchanged files adfimage path .read after)

/-- What writing must do: the bytes that are reported were written at the position asked for, and
numbers that do not fit leave the file as it was. -/
def WriteExact {L : Adflib Image File} (files : L.Files) (adfimage : Adfimage Image) (path : CStr)
    (buffer : List UInt8) (size offset : BitVec 64) : Prop :=
  let (ret, after) := adfimageWrite L adfimage path buffer size offset
  (0 < ret → ∃ opened ∈ openedFile L adfimage path .write,
    ret ≤ size.toNat ∧ files.stored after.vol.image (files.header opened.1) =
      Adflib.overwrite (files.stored adfimage.vol.image (files.header opened.1)) offset.toNat
        (buffer.take ret.toNat)) ∧
  (¬ (Fits offset ∧ Fits size) → ret ≤ 0 ∧ Unchanged files adfimage path .write after)

/-- What truncating must do: on success the file has the size asked for, and a size that does not
fit is an error and leaves the file as it was. -/
def TruncateExact {L : Adflib Image File} (files : L.Files) (adfimage : Adfimage Image)
    (path : CStr) (newSize : BitVec 64) : Prop :=
  let (ret, after) := adffsTruncate L adfimage path newSize
  (ret = 0 → ∃ opened ∈ openedFile L adfimage path .write,
    files.stored after.vol.image (files.header opened.1) =
      (files.stored adfimage.vol.image (files.header opened.1)).takeD newSize.toNat 0) ∧
  (¬ Fits newSize → ret ≠ 0 ∧ Unchanged files adfimage path .write after)

/-- The position to which `offset` is cut off is accepted and bytes can be read there. -/
def ReadsLow (adfimage : Adfimage Image) (path : CStr) (size offset : BitVec 64) : Prop :=
  ∃ opened ∈ openedFile L adfimage path .read,
    let (image, file, rc) :=
      L.adfFileSeek opened.2.vol.image opened.1 (offset.setWidth 32)
    rc = adfRcOk ∧ 0 < (L.adfFileRead image file (size.setWidth 32)).2.2.1.toInt

/-- The position to which `offset` is cut off is accepted, and bytes are written there, which is
reported or can be seen in the file. -/
def WritesLow {L : Adflib Image File} (files : L.Files) (adfimage : Adfimage Image) (path : CStr)
    (buffer : List UInt8) (size offset : BitVec 64) : Prop :=
  ∃ opened ∈ openedFile L adfimage path .write,
    let (image, file, rc) :=
      L.adfFileSeek opened.2.vol.image opened.1 (offset.setWidth 32)
    rc = adfRcOk ∧
      let (image', written, count) := L.adfFileWrite image file (size.setWidth 32) buffer
      0 < count.toInt ∨ files.bytes image' written ≠ files.bytes image file

/-- The size to which `newSize` is cut off is accepted. -/
def TruncatesLow (adfimage : Adfimage Image) (path : CStr) (newSize : BitVec 64) : Prop :=
  ∃ opened ∈ openedFile L adfimage path .write,
    (L.adfFileTruncate opened.2.vol.image opened.1 (newSize.setWidth 32)).2.2 = adfRcOk

theorem toNat_low_of_fits {number : BitVec 64} (h : Fits number) :
    (number.setWidth 32).toNat = number.toNat := by
  rw [BitVec.toNat_setWidth, Nat.mod_eq_of_lt h]

theorem toNat_low_le (number : BitVec 64) : (number.setWidth 32).toNat ≤ number.toNat := by
  rw [BitVec.toNat_setWidth]
  exact Nat.mod_le _ _

/-- A positive number of bytes is the same with and without a sign. -/
theorem toInt_of_pos {count : BitVec 32} (h : 0 < count.toInt) : count.toInt = count.toNat := by
  rw [BitVec.toInt_eq_toNat_cond] at h ⊢
  split_ifs at h ⊢
  · rfl
  · have := count.isLt
    omega

theorem openedFile_eq_none_iff (adfimage : Adfimage Image) (path : CStr) (mode : AdfFileMode) :
    openedFile L adfimage path mode = none ↔
      ∀ file cwd after, openInParent L adfimage path mode ≠ .opened file cwd after := by
  rw [openedFile]
  cases openInParent L adfimage path mode <;> simp

theorem openInParent_of_openedFile {adfimage after : Adfimage Image} {path : CStr}
    {mode : AdfFileMode} {file : File} (h : openedFile L adfimage path mode = some (file, after)) :
    ∃ cwd, openInParent L adfimage path mode = .opened file cwd after := by
  rw [openedFile] at h
  cases hopen : openInParent L adfimage path mode with
  | noDir after' => simp [hopen] at h
  | noFile after' => simp [hopen] at h
  | opened file' cwd after' =>
    rw [hopen] at h
    simp only [Option.some.injEq, Prod.mk.injEq] at h
    exact ⟨cwd, by rw [h.1, h.2]⟩

/-- An opened file has the bytes that the volume stores for it. -/
theorem bytes_of_openedFile {L : Adflib Image File} (files : L.Files)
    {adfimage after : Adfimage Image} {path : CStr} {mode : AdfFileMode} {file : File}
    (h : openedFile L adfimage path mode = some (file, after)) :
    files.bytes after.vol.image file =
      files.stored adfimage.vol.image (files.header file) := by
  obtain ⟨cwd, hopen⟩ := openInParent_of_openedFile L h
  have hcur := chdir_curDirPtr L adfimage (dirname_ne_nil path)
  rw [openInParent_eq] at hopen
  cases hdir : namedDir L adfimage (dirname path) with
  | none => simp [hdir] at hopen
  | some dir =>
    rw [lastDir_of_namedDir L hdir] at hcur
    cases hfile : (L.adfFileOpen adfimage.vol.image dir (basename path) mode).2 with
    | none => simp [hdir, hfile] at hopen
    | some file' =>
      simp only [hdir, hfile, ParentOpen.opened.injEq] at hopen
      obtain ⟨rfl, -, rfl⟩ := hopen
      simp only [afterOpen, setImage_image, chdir_image, hcur]
      exact files.open_bytes _ _ _ _ _ hfile

/-- What an open file's handle shows is what the volume stores once the file is closed. -/
theorem stored_after_close {L : Adflib Image File} (files : L.Files) (image : Image)
    {file file' : File} (hheader : files.header file' = files.header file) :
    files.stored (L.adfFileClose image file') (files.header file) = files.bytes image file' := by
  rw [← hheader]
  exact files.close_stored image file'

section Read

variable {L} (files : L.Files) {adfimage after : Adfimage Image} {path : CStr} {file : File}
  {size offset : BitVec 64}

theorem read_of_not_opened (h : openedFile L adfimage path .read = none) :
    (adfimageRead L adfimage path size offset).1 = -eNoEnt := by
  have hopen := (openedFile_eq_none_iff L adfimage path .read).mp h
  rw [adfimageRead]
  cases hparent : openInParent L adfimage path .read with
  | noDir => rfl
  | noFile => rfl
  | opened file cwd after => exact absurd hparent (hopen file cwd after)

/-- What is reported from an opened file: what the library reads after an accepted seek. -/
theorem read_of_opened (size offset : BitVec 64)
    (h : openedFile L adfimage path .read = some (file, after)) :
    let (image, moved, rc) := L.adfFileSeek after.vol.image file (offset.setWidth 32)
    let (_, _, count, bytes) := L.adfFileRead image moved (size.setWidth 32)
    (adfimageRead L adfimage path size offset).1 = (if rc = adfRcOk then count.toInt else 0) ∧
      (adfimageRead L adfimage path size offset).2.1 = if rc = adfRcOk then bytes else [] := by
  obtain ⟨cwd, hopen⟩ := openInParent_of_openedFile L h
  simp only [adfimageRead, hopen]
  split_ifs with hseek
  · exact ⟨rfl, rfl⟩
  · exact ⟨rfl, rfl⟩

/-- Bytes are reported exactly when the call with the low halves reads some. -/
theorem read_pos_iff : 0 < (adfimageRead L adfimage path size offset).1 ↔
    ReadsLow L adfimage path size offset := by
  unfold ReadsLow
  cases hopened : openedFile L adfimage path .read with
  | none => simp [read_of_not_opened hopened, eNoEnt]
  | some opened =>
    obtain ⟨hret, -⟩ := read_of_opened size offset hopened
    simp only [hret, Option.mem_def, Option.some.injEq, exists_eq_left']
    split_ifs with hseek
    · simp [hseek]
    · simp [hseek]

include files

/-- Reading changes no file that it opens. -/
theorem unchanged_read : Unchanged files adfimage path .read
    (adfimageRead L adfimage path size offset).2.2 := by
  rintro ⟨file, after⟩ hopened
  obtain ⟨cwd, hopen⟩ := openInParent_of_openedFile L hopened
  have hbytes := bytes_of_openedFile files hopened
  rw [adfimageRead, hopen]
  simp only [leaveParent_image, setImage_image]
  rw [← hbytes]
  split_ifs with hseek
  · rw [stored_after_close files, files.read_bytes, files.seek_bytes]
    rw [files.read_header, files.seek_header]
  · rw [stored_after_close files _ (files.seek_header _ _ _), files.seek_bytes]

/-- Where the numbers fit, the bytes are those at the position asked for. -/
theorem read_at_of_fits (hoffset : Fits offset) (hsize : Fits size)
    (hlow : ReadsLow L adfimage path size offset) :
    ∃ opened ∈ openedFile L adfimage path .read,
      (adfimageRead L adfimage path size offset).1 ≤ size.toNat ∧
      ((adfimageRead L adfimage path size offset).2.1.length : ℤ) =
        (adfimageRead L adfimage path size offset).1 ∧
      (adfimageRead L adfimage path size offset).2.1 =
        ((files.stored adfimage.vol.image (files.header opened.1)).drop offset.toNat).take
          (adfimageRead L adfimage path size offset).1.toNat := by
  obtain ⟨⟨file, after⟩, hopened, hseek, hcount⟩ := hlow
  obtain ⟨hret, hout⟩ := read_of_opened size offset hopened
  rw [if_pos hseek] at hret hout
  rw [toInt_of_pos hcount] at hret
  refine ⟨(file, after), hopened, ?_, ?_, ?_⟩
  · rw [hret, ← toNat_low_of_fits hsize]
    exact_mod_cast files.read_count _ _ _
  · rw [hret, hout, files.read_length]
  · rw [hret, hout, files.read_output, files.seek_bytes, files.seek_position _ _ _ hseek,
      toNat_low_of_fits hoffset, bytes_of_openedFile files hopened, Int.toNat_natCast]

/-- Reading is exact exactly when the numbers fit or the call with their low halves reads
nothing. -/
theorem readExact_iff : ReadExact files adfimage path size offset ↔
    (Fits offset ∧ Fits size) ∨ ¬ ReadsLow L adfimage path size offset := by
  have hpos : 0 < (adfimageRead L adfimage path size offset).1 ↔
      ReadsLow L adfimage path size offset := read_pos_iff
  constructor
  · intro hexact
    by_contra! hno
    exact absurd (hpos.mpr hno.2) (Int.not_lt.mpr (hexact.2 fun h ↦ hno.1 h.1 h.2).1)
  · rintro (⟨hoffset, hsize⟩ | hnone)
    · exact ⟨fun h ↦ read_at_of_fits files hoffset hsize (hpos.mp h),
        fun h ↦ absurd ⟨hoffset, hsize⟩ h⟩
    · have hret := Int.not_lt.mp fun h ↦ hnone (hpos.mp h)
      exact ⟨fun h ↦ absurd h (Int.not_lt.mpr hret), fun _ ↦ ⟨hret, unchanged_read files⟩⟩

end Read

section Write

variable {L} (files : L.Files) {adfimage after : Adfimage Image} {path : CStr} {file : File}
  {buffer : List UInt8} {size offset : BitVec 64}

theorem write_of_not_opened (h : openedFile L adfimage path .write = none) :
    (adfimageWrite L adfimage path buffer size offset).1 = -eNoEnt := by
  have hopen := (openedFile_eq_none_iff L adfimage path .write).mp h
  rw [adfimageWrite]
  cases hparent : openInParent L adfimage path .write with
  | noDir => rfl
  | noFile => rfl
  | opened file cwd after => exact absurd hparent (hopen file cwd after)

/-- What is reported from an opened file, and the image that is left. -/
theorem write_of_opened (buffer : List UInt8) (size offset : BitVec 64)
    (h : openedFile L adfimage path .write = some (file, after)) :
    let (image, moved, rc) := L.adfFileSeek after.vol.image file (offset.setWidth 32)
    let (image', written, count) := L.adfFileWrite image moved (size.setWidth 32) buffer
    (adfimageWrite L adfimage path buffer size offset).1 =
        (if rc = adfRcOk then count.toInt else 0) ∧
      (adfimageWrite L adfimage path buffer size offset).2.vol.image =
        if rc = adfRcOk then L.adfFileClose image' written else L.adfFileClose image moved := by
  obtain ⟨cwd, hopen⟩ := openInParent_of_openedFile L h
  simp only [adfimageWrite, hopen, leaveParent_image, setImage_image]
  split_ifs with hseek
  · exact ⟨rfl, rfl⟩
  · exact ⟨rfl, rfl⟩

include files

/-- A write with the low halves shows in the reply or in the file. -/
theorem writesLow_iff : WritesLow files adfimage path buffer size offset ↔
    0 < (adfimageWrite L adfimage path buffer size offset).1 ∨
      ¬ Unchanged files adfimage path .write
        (adfimageWrite L adfimage path buffer size offset).2 := by
  unfold WritesLow Unchanged
  cases hopened : openedFile L adfimage path .write with
  | none => simp [write_of_not_opened hopened, eNoEnt]
  | some opened =>
    obtain ⟨file, after⟩ := opened
    obtain ⟨hret, himage⟩ := write_of_opened buffer size offset hopened
    have hbytes := bytes_of_openedFile files hopened
    simp only [hret, himage, Option.mem_def, Option.some.injEq, exists_eq_left', forall_eq']
    split_ifs with hseek
    · rw [stored_after_close files, ← hbytes, files.seek_bytes]
      · simp [hseek]
      · rw [files.write_header, files.seek_header]
    · rw [stored_after_close files _ (files.seek_header _ _ _), files.seek_bytes, hbytes]
      simp [hseek]

/-- Where the numbers fit, the bytes are written at the position asked for. -/
theorem write_at_of_fits (hbuffer : size.toNat ≤ buffer.length) (hoffset : Fits offset)
    (hsize : Fits size) (hpos : 0 < (adfimageWrite L adfimage path buffer size offset).1) :
    ∃ opened ∈ openedFile L adfimage path .write,
      (adfimageWrite L adfimage path buffer size offset).1 ≤ size.toNat ∧
      files.stored (adfimageWrite L adfimage path buffer size offset).2.vol.image
          (files.header opened.1) =
        Adflib.overwrite (files.stored adfimage.vol.image (files.header opened.1)) offset.toNat
          (buffer.take (adfimageWrite L adfimage path buffer size offset).1.toNat) := by
  cases hopened : openedFile L adfimage path .write with
  | none =>
    rw [write_of_not_opened hopened] at hpos
    exact absurd hpos (by decide)
  | some opened =>
    obtain ⟨file, after⟩ := opened
    have hlow := (toNat_low_le size).trans hbuffer
    obtain ⟨hret, himage⟩ := write_of_opened buffer size offset hopened
    have hseek : (L.adfFileSeek after.vol.image file (offset.setWidth 32)).2.2 = adfRcOk := by
      by_contra hrefused
      rw [hret, if_neg hrefused] at hpos
      exact Int.lt_irrefl 0 hpos
    rw [if_pos hseek] at hret himage
    rw [toInt_of_pos (hret ▸ hpos)] at hret
    refine ⟨(file, after), rfl, ?_, ?_⟩
    · rw [hret, ← toNat_low_of_fits hsize]
      exact_mod_cast files.write_count _ _ _ _
    · rw [himage, stored_after_close files, files.write_bytes _ _ _ _ hlow, files.seek_bytes,
        files.seek_position _ _ _ hseek, toNat_low_of_fits hoffset,
        bytes_of_openedFile files hopened, hret, Int.toNat_natCast]
      rw [files.write_header, files.seek_header]

/-- Writing is exact exactly when the numbers fit or the call with their low halves writes
nothing. -/
theorem writeExact_iff (hbuffer : size.toNat ≤ buffer.length) :
    WriteExact files adfimage path buffer size offset ↔
      (Fits offset ∧ Fits size) ∨ ¬ WritesLow files adfimage path buffer size offset := by
  rw [writesLow_iff, not_or, not_not, Int.not_lt]
  constructor
  · intro hexact
    by_cases hfits : Fits offset ∧ Fits size
    · exact Or.inl hfits
    · exact Or.inr (hexact.2 hfits)
  · rintro (⟨hoffset, hsize⟩ | ⟨hret, hsame⟩)
    · exact ⟨fun hpos ↦ write_at_of_fits files hbuffer hoffset hsize hpos,
        fun hno ↦ absurd ⟨hoffset, hsize⟩ hno⟩
    · exact ⟨fun hpos ↦ absurd hpos (Int.not_lt.mpr hret), fun _ ↦ ⟨hret, hsame⟩⟩

end Write

section Truncate

variable {L} (files : L.Files) {adfimage after : Adfimage Image} {path : CStr} {file : File}
  {newSize : BitVec 64}

theorem truncate_of_not_opened (h : openedFile L adfimage path .write = none) :
    (adffsTruncate L adfimage path newSize).1 = -1 := by
  have hopen := (openedFile_eq_none_iff L adfimage path .write).mp h
  rw [adffsTruncate, adfimageFileTruncate, adfimageFileOpen]
  cases hparent : openInParent L adfimage path .write with
  | noDir => rfl
  | noFile => rfl
  | opened file cwd after => exact absurd hparent (hopen file cwd after)

/-- What is returned for an opened file, and the image that is left. -/
theorem truncate_of_opened (newSize : BitVec 64)
    (h : openedFile L adfimage path .write = some (file, after)) :
    let (image, cut, rc) := L.adfFileTruncate after.vol.image file (newSize.setWidth 32)
    (adffsTruncate L adfimage path newSize).1 = (if rc = adfRcOk then 0 else -1) ∧
      (adffsTruncate L adfimage path newSize).2.vol.image = L.adfFileClose image cut := by
  obtain ⟨cwd, hopen⟩ := openInParent_of_openedFile L h
  simp only [adffsTruncate, adfimageFileTruncate, adfimageFileOpen, hopen, adfimageFileClose,
    leaveParent_image, setImage_image]
  by_cases hrc : (L.adfFileTruncate after.vol.image file (newSize.setWidth 32)).2.2 = adfRcOk
  · simp [hrc]
  · simp [hrc]

/-- Success is reported exactly when the library accepts the low half of the size. -/
theorem truncate_zero_iff : (adffsTruncate L adfimage path newSize).1 = 0 ↔
    TruncatesLow L adfimage path newSize := by
  unfold TruncatesLow
  cases hopened : openedFile L adfimage path .write with
  | none => simp [truncate_of_not_opened hopened]
  | some opened =>
    obtain ⟨hret, -⟩ := truncate_of_opened newSize hopened
    simp only [hret, Option.mem_def, Option.some.injEq, exists_eq_left']
    split_ifs with hrc <;> simp [hrc]

include files

/-- A refused size leaves the bytes of the file. -/
theorem unchanged_truncate (hnone : ¬ TruncatesLow L adfimage path newSize) :
    Unchanged files adfimage path .write (adffsTruncate L adfimage path newSize).2 := by
  rintro ⟨file, after⟩ hopened
  obtain ⟨-, himage⟩ := truncate_of_opened newSize hopened
  have hrefused : (L.adfFileTruncate after.vol.image file (newSize.setWidth 32)).2.2 ≠ adfRcOk :=
    fun hrc ↦ hnone ⟨(file, after), hopened, hrc⟩
  dsimp only
  rw [himage, stored_after_close files _ (files.truncate_header _ _ _),
    files.truncate_fail _ _ _ hrefused, bytes_of_openedFile files hopened]

/-- A size that fits is the size of the file afterwards. -/
theorem truncate_at_of_fits (hsize : Fits newSize) (hlow : TruncatesLow L adfimage path newSize) :
    ∃ opened ∈ openedFile L adfimage path .write,
      files.stored (adffsTruncate L adfimage path newSize).2.vol.image (files.header opened.1) =
        (files.stored adfimage.vol.image (files.header opened.1)).takeD newSize.toNat 0 := by
  obtain ⟨⟨file, after⟩, hopened, hrc⟩ := hlow
  obtain ⟨-, himage⟩ := truncate_of_opened newSize hopened
  refine ⟨(file, after), hopened, ?_⟩
  rw [himage, stored_after_close files _ (files.truncate_header _ _ _),
    files.truncate_bytes _ _ _ hrc, toNat_low_of_fits hsize, bytes_of_openedFile files hopened]

/-- Truncating is exact exactly when the size fits or its low half is refused. -/
theorem truncateExact_iff : TruncateExact files adfimage path newSize ↔
    Fits newSize ∨ ¬ TruncatesLow L adfimage path newSize := by
  have hzero : (adffsTruncate L adfimage path newSize).1 = 0 ↔
      TruncatesLow L adfimage path newSize := truncate_zero_iff
  constructor
  · intro hexact
    by_contra! hno
    exact (hexact.2 hno.1).1 (hzero.mpr hno.2)
  · rintro (hsize | hnone)
    · exact ⟨fun h ↦ truncate_at_of_fits files hsize (hzero.mp h), fun h ↦ absurd hsize h⟩
    · have hret := fun h ↦ hnone (hzero.mp h)
      exact ⟨fun h ↦ absurd h hret, fun _ ↦ ⟨hret, unchanged_truncate files hnone⟩⟩

end Truncate

/-- A position or size is silently cut off exactly where it does not fit and the library accepts
its low half and moves something there. -/
theorem transfer_exact_iff (files : L.Files) (adfimage : Adfimage Image) (path : CStr)
    (buffer : List UInt8) (size offset newSize : BitVec 64)
    (hbuffer : size.toNat ≤ buffer.length) :
    (ReadExact files adfimage path size offset ↔
      (Fits offset ∧ Fits size) ∨ ¬ ReadsLow L adfimage path size offset) ∧
    (WriteExact files adfimage path buffer size offset ↔
      (Fits offset ∧ Fits size) ∨ ¬ WritesLow files adfimage path buffer size offset) ∧
    (TruncateExact files adfimage path newSize ↔
      Fits newSize ∨ ¬ TruncatesLow L adfimage path newSize) :=
  ⟨readExact_iff files, writeExact_iff files hbuffer, truncateExact_iff files⟩

/-- Reading and writing two bytes of `foo` and cutting it off behind them are exact, and so is a write
behind its end. -/
theorem transfer_exact_foo :
    (2#64).toNat ≤ [1, 2].length ∧
      ReadExact RamDisk.files RamDisk.mounted "/foo".toList 2 1 ∧
      WriteExact RamDisk.files RamDisk.mounted "/foo".toList [1, 2] 2 1 ∧
      TruncateExact RamDisk.files RamDisk.mounted "/foo".toList 2 ∧
      WriteExact RamDisk.files RamDisk.mounted "/foo".toList [1, 2] 2 100 := by
  obtain ⟨hread, hwrite, htruncate⟩ := transfer_exact_iff RamDisk.lib RamDisk.files RamDisk.mounted
    "/foo".toList [1, 2] 2 1 2 (by decide)
  obtain ⟨-, hbehind, -⟩ := transfer_exact_iff RamDisk.lib RamDisk.files RamDisk.mounted
    "/foo".toList [1, 2] 2 100 2 (by decide)
  exact ⟨by decide, hread.mpr (Or.inl ⟨by decide, by decide⟩),
    hwrite.mpr (Or.inl ⟨by decide, by decide⟩), htruncate.mpr (Or.inl (by decide)),
    hbehind.mpr (Or.inl ⟨by decide, by decide⟩)⟩

/-- At position 2³² reading gives the start of `foo`, writing overwrites it, and truncating to that
size empties the file, each reporting success. -/
theorem transfer_not_exact_foo :
    ¬ ReadExact RamDisk.files RamDisk.mounted "/foo".toList 2 (2 ^ 32) ∧
      ¬ WriteExact RamDisk.files RamDisk.mounted "/foo".toList [1, 2] 2 (2 ^ 32) ∧
      ¬ TruncateExact RamDisk.files RamDisk.mounted "/foo".toList (2 ^ 32) := by
  refine ⟨fun h ↦ ?_, fun h ↦ ?_, fun h ↦ ?_⟩
  · exact absurd (h.2 (by decide)).1 (by decide)
  · exact absurd (h.2 (by decide)).1 (by decide)
  · exact absurd (h.2 (by decide)).1 (by decide)

end FuseAdf
