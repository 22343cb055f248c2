import FuseAdf.Adfimage.ChdirWalk

/-!
# Going back to the working directory

Eight operations save the string `cwd`, enter the directory part of their path, and change to the
saved string before they return.  Two of their ways out leave the last step out: an empty listing
and a file that cannot be opened.  On all others the state is restored, provided that `cwd` is the
string that `append_dir` would write for it.
-/

namespace FuseAdf

open Adfimage NameWalk

variable {Image File : Type} (L : Adflib Image File)

/-- The operations that go through the directory part of a path and back. -/
inductive PathOperation
  | getdentry
  | setperm (perms : BitVec 32)
  | countDirEntries
  | fileOpen (mode : AdfFileMode)
  | fileTruncate (newSize : BitVec 64)
  | read (size offset : BitVec 64)
  | write (buffer : List UInt8) (size offset : BitVec 64)
  | readlink (buffer : CStr) (lenMax : ℕ)
deriving DecidableEq, Repr

/-- The state that an operation leaves. -/
def PathOperation.run (adfimage : Adfimage Image) (path : CStr) : PathOperation → Adfimage Image
  | getdentry => (adfimageGetdentry L adfimage path).2
  | setperm perms => (adfimageSetperm L adfimage path perms).2
  | countDirEntries => (adfimageCountDirEntries L adfimage path).2
  | fileOpen mode => (adfimageFileOpen L adfimage path mode).2
  | fileTruncate newSize => (adfimageFileTruncate L adfimage path newSize).2
  | read size offset => (adfimageRead L adfimage path size offset).2.2
  | write buffer size offset => (adfimageWrite L adfimage path buffer size offset).2
  | readlink buffer lenMax => (adfimageReadlink L adfimage path buffer lenMax).2.2

/-- The string is what `append_dir` writes for its components, and not that of a directory whose
name is a single dot. -/
def Recorded (cwd : CStr) : Prop := joinPieces ['/'] (chdirPieces cwd) = cwd

/-- The directory part of the path leads to the current directory, by its string. -/
def EntersCwd (adfimage : Adfimage Image) (path : CStr) : Prop :=
  joinPieces (startCwd adfimage (dirname path)) (chdirPieces (dirname path)) = adfimage.cwd

/-- The operation returns from the directory of its path without going back: the listing is empty,
or the file cannot be opened. -/
def PathOperation.LeavesEarly (image : Image) (dir : Sector) (path : CStr) : PathOperation → Prop
  | getdentry => L.adfGetDirEnt image dir = []
  | setperm _ => L.adfGetDirEnt image dir = []
  | fileOpen mode => (L.adfFileOpen image dir (basename path) mode).2 = none
  | fileTruncate _ => (L.adfFileOpen image dir (basename path) .write).2 = none
  | read _ _ => (L.adfFileOpen image dir (basename path) .read).2 = none
  | write _ _ _ => (L.adfFileOpen image dir (basename path) .write).2 = none
  | countDirEntries => False
  | readlink _ _ => False

/-- The root is looked up without a change of directory. -/
def PathOperation.LooksUpRoot (path : CStr) : PathOperation → Prop
  | getdentry => path = ['/']
  | setperm _ => path = ['/']
  | _ => False

/-- The condition for the operation to leave the working directory as it was. -/
def PathOperation.Restores (adfimage : Adfimage Image) (dir : Sector) (path : CStr)
    (operation : PathOperation) : Prop :=
  operation.LooksUpRoot path ∨
    (¬ operation.LeavesEarly L adfimage.vol.image dir path ∧ Recorded adfimage.cwd) ∨
    (operation.LeavesEarly L adfimage.vol.image dir path ∧ EntersCwd adfimage path)

variable {L}

theorem look_of_sameDirs {adfimage elsewhere : Adfimage Image}
    (h : L.SameDirs adfimage.vol.image elsewhere.vol.image) :
    look L elsewhere = look L adfimage := by
  funext dir name
  exact h dir name

/-- The string tells whether a change of directory has moved anything. -/
theorem unmoved_enter_iff {adfimage : Adfimage Image} (hnames : NamesCurDir L adfimage)
    {path : CStr} {dir : Sector} (hdir : namedDir L adfimage (dirname path) = some dir) :
    Unmoved adfimage (adfimageChdir L adfimage (dirname path)).2 ↔ EntersCwd adfimage path := by
  have hwalk : walk (look L adfimage) (startDir adfimage (dirname path))
      (chdirPieces (dirname path)) = some dir := by
    rw [← chdirStart_curDirPtr]
    exact hdir
  have hafter := hnames.chdir (dirname_ne_nil path)
  have hcwd : (adfimageChdir L adfimage (dirname path)).2.cwd =
      joinPieces (startCwd adfimage (dirname path)) (chdirPieces (dirname path)) := by
    rw [adfimageChdir_eq L adfimage (dirname_ne_nil path), arrive_chdirStart_cwd,
      walked_of_walk hwalk]
  constructor
  · intro h
    exact hcwd.symm.trans h.1
  · intro h
    have hsame := hcwd.trans h
    refine ⟨hsame, ?_⟩
    rw [NamesCurDir, hsame, chdir_rootBlock, look, chdir_image] at hafter
    exact Option.some.inj (hafter.symm.trans hnames)

/-- From any directory of an image with the same directories, changing to the saved string restores
the state exactly if the string is as `append_dir` writes it. -/
theorem unmoved_restore_iff {adfimage elsewhere : Adfimage Image} (hnames : NamesCurDir L adfimage)
    (habs : adfimage.cwd.head? = some '/') (hlook : look L elsewhere = look L adfimage)
    (hroot : elsewhere.vol.rootBlock = adfimage.vol.rootBlock) :
    Unmoved adfimage (adfimageChdir L elsewhere adfimage.cwd).2 ↔ Recorded adfimage.cwd := by
  have hne : adfimage.cwd ≠ [] := by
    intro hnil
    simp [hnil] at habs
  have hstart : startDir elsewhere adfimage.cwd = adfimage.vol.rootBlock := by
    rw [startDir, if_pos habs, hroot]
  have hpieces : chdirPieces adfimage.cwd = components adfimage.cwd ∨
      chdirPieces adfimage.cwd = [] := by
    by_cases hdot : pathstrGetRelative adfimage.cwd = ['.']
    · exact Or.inr (if_pos (Or.inr hdot))
    · exact Or.inl (chdirPieces_eq_components hdot)
  obtain ⟨target, htarget⟩ : ∃ target,
      walk (look L elsewhere) adfimage.vol.rootBlock (chdirPieces adfimage.cwd) = some target := by
    rw [hlook]
    rcases hpieces with h | h
    · exact ⟨_, h ▸ show walk _ _ (components adfimage.cwd) = _ from hnames⟩
    · exact ⟨adfimage.vol.rootBlock, by rw [h]; rfl⟩
  have hcwd : (adfimageChdir L elsewhere adfimage.cwd).2.cwd =
      joinPieces ['/'] (chdirPieces adfimage.cwd) := by
    rw [adfimageChdir_eq L elsewhere hne, arrive_chdirStart_cwd, hstart, walked_of_walk htarget,
      startCwd, if_pos habs]
  constructor
  · intro h
    exact hcwd.symm.trans h.1
  · intro h
    refine ⟨hcwd.trans h, ?_⟩
    have hnames' := areDirNames_chdirPieces adfimage.cwd
    have hcomponents : components adfimage.cwd = chdirPieces adfimage.cwd := by
      calc
        components adfimage.cwd =
            components ((chdirPieces adfimage.cwd).foldl joinDir ['/']) := by
          rw [foldl_joinDir hnames'.slash (Or.inl hnames'.head), h]
        _ = chdirPieces adfimage.cwd := components_cwdOf hnames'
    rw [chdir_curDirPtr L elsewhere hne, lastDir, chdirStart_curDirPtr, hstart, hlook,
      ← hcomponents]
    exact reach_of_walk hnames

/-! ## The operations -/

section Operations

variable {adfimage : Adfimage Image} {path : CStr} {dir : Sector}

theorem unmoved_getdentry_iff (hnames : NamesCurDir L adfimage)
    (habs : adfimage.cwd.head? = some '/') (hdir : namedDir L adfimage (dirname path) = some dir) :
    Unmoved adfimage (adfimageGetdentry L adfimage path).2 ↔
      PathOperation.getdentry.Restores L adfimage dir path := by
  unfold PathOperation.Restores PathOperation.LooksUpRoot PathOperation.LeavesEarly
  rcases eq_or_ne path ['/'] with rfl | hpath
  · exact ⟨fun _ ↦ Or.inl rfl, fun _ ↦ ⟨rfl, rfl⟩⟩
  · rw [getdentry_eq L adfimage hpath, lastDir_of_namedDir L hdir]
    by_cases hempty : L.adfGetDirEnt adfimage.vol.image dir = []
    · simp only [hpath, hempty, if_true, not_true_eq_false, false_and, true_and, false_or]
      exact unmoved_enter_iff hnames hdir
    · simp only [hpath, hempty, if_false, not_false_eq_true, false_and, true_and, false_or, or_false]
      apply unmoved_restore_iff hnames habs
      · rw [look, chdir_image]
        rfl
      · exact chdir_rootBlock L adfimage (dirname path)

/-- Writing the access word back moves nothing. -/
theorem setperm_unmoved (adfimage : Adfimage Image) (path : CStr) (perms : BitVec 32) :
    Unmoved (adfimageGetdentry L adfimage path).2 (adfimageSetperm L adfimage path perms).2 := by
  unfold adfimageSetperm
  dsimp only
  split_ifs
  · exact ⟨rfl, rfl⟩
  · split
    · exact ⟨rfl, rfl⟩
    · exact ⟨rfl, rfl⟩

theorem unmoved_congr {before middle after : Adfimage Image} (h : Unmoved middle after) :
    Unmoved before after ↔ Unmoved before middle := by
  rw [Unmoved, Unmoved, h.1, h.2]

theorem unmoved_countDirEntries_iff (hnames : NamesCurDir L adfimage)
    (habs : adfimage.cwd.head? = some '/') (dirpath : CStr) :
    Unmoved adfimage (adfimageCountDirEntries L adfimage dirpath).2 ↔ Recorded adfimage.cwd := by
  apply unmoved_restore_iff hnames habs
  · rw [look, chdir_image]
    rfl
  · exact chdir_rootBlock L adfimage dirpath

/-- The way out of the file operations that have opened their file. -/
theorem unmoved_leaveParent_iff (hnames : NamesCurDir L adfimage)
    (habs : adfimage.cwd.head? = some '/') {inside : Adfimage Image}
    (hsame : L.SameDirs adfimage.vol.image inside.vol.image)
    (hroot : inside.vol.rootBlock = adfimage.vol.rootBlock) :
    Unmoved adfimage (leaveParent L inside (some adfimage.cwd)) ↔ Recorded adfimage.cwd :=
  unmoved_restore_iff hnames habs (look_of_sameDirs hsame) hroot

/-- A file that cannot be opened: the state is that of the change of directory. -/
theorem unmoved_noFile_iff (hnames : NamesCurDir L adfimage)
    (hdir : namedDir L adfimage (dirname path) = some dir) (name : CStr) (mode : AdfFileMode) :
    Unmoved adfimage (afterOpen L (adfimageChdir L adfimage (dirname path)).2 name mode) ↔
      EntersCwd adfimage path := by
  have hopen : Unmoved (adfimageChdir L adfimage (dirname path)).2
      (afterOpen L (adfimageChdir L adfimage (dirname path)).2 name mode) := ⟨rfl, rfl⟩
  rw [unmoved_congr hopen]
  exact unmoved_enter_iff hnames hdir

theorem sameDirs_afterOpen (hL : L.Directories) (adfimage : Adfimage Image) (path name : CStr)
    (mode : AdfFileMode) :
    L.SameDirs adfimage.vol.image
      (afterOpen L (adfimageChdir L adfimage path).2 name mode).vol.image := by
  have hsame := hL.fileOpen (adfimageChdir L adfimage path).2.vol.image
    (adfimageChdir L adfimage path).2.vol.curDirPtr name mode
  rw [chdir_image] at hsame
  rw [afterOpen, setImage_image, chdir_image]
  exact hsame

/-- Whatever is done to an open file, as long as it moves no directory. -/
theorem unmoved_afterFile_iff (hL : L.Directories) (hnames : NamesCurDir L adfimage)
    (habs : adfimage.cwd.head? = some '/') (hdir : namedDir L adfimage (dirname path) = some dir)
    {mode : AdfFileMode} {after : Image → File → Image}
    (hafter : ∀ image file, L.SameDirs image (after image file)) :
    Unmoved adfimage (afterFile L adfimage path mode after) ↔
      (PathOperation.fileOpen mode).Restores L adfimage dir path := by
  unfold PathOperation.Restores PathOperation.LooksUpRoot PathOperation.LeavesEarly
  rw [afterFile, openInParent_eq, hdir]
  dsimp only
  cases hopen : (L.adfFileOpen adfimage.vol.image dir (basename path) mode).2 with
  | none => simpa using unmoved_noFile_iff hnames hdir (basename path) mode
  | some file =>
    have hstart := sameDirs_afterOpen hL adfimage (dirname path) (basename path) mode
    have hsame := sameDirs_trans hstart (hafter _ file)
    refine (unmoved_leaveParent_iff hnames habs hsame ?_).trans (by simp)
    exact chdir_rootBlock L adfimage (dirname path)

/-- Truncating does not move the directory that opening the file has left. -/
theorem fileTruncate_unmoved (adfimage : Adfimage Image) (path : CStr) (newSize : BitVec 64) :
    Unmoved (adfimageFileOpen L adfimage path .write).2
      (adfimageFileTruncate L adfimage path newSize).2 := by
  rw [adfimageFileTruncate]
  rcases adfimageFileOpen L adfimage path .write with ⟨file, after⟩
  cases file <;> exact ⟨rfl, rfl⟩

/-- Looking at the blocks of an entry changes nothing but the list of calls. -/
theorem readlinkEntry_vol (adfimage : Adfimage Image) (entryname buffer : CStr) (lenMax : ℕ) :
    (readlinkEntry L adfimage entryname buffer lenMax).2.2.vol = adfimage.vol := by
  unfold readlinkEntry
  cases L.adfReadEntryBlock adfimage.vol.image adfimage.vol.curDirPtr with
  | none => rfl
  | some parent =>
    dsimp only
    cases L.adfNameToEntryBlk adfimage.vol.image parent.hashTable entryname with
    | none => rfl
    | some entry =>
      dsimp only
      split_ifs
      · rfl
      · split <;> rfl

theorem unmoved_readlink_iff (hnames : NamesCurDir L adfimage)
    (habs : adfimage.cwd.head? = some '/') (hdir : namedDir L adfimage (dirname path) = some dir)
    (buffer : CStr) (lenMax : ℕ) :
    Unmoved adfimage (adfimageReadlink L adfimage path buffer lenMax).2.2 ↔
      Recorded adfimage.cwd := by
  have hvol := readlinkEntry_vol (L := L) (adfimageChdir L adfimage (dirname path)).2
    (basename path) buffer lenMax
  rw [readlink_eq, hdir]
  apply unmoved_leaveParent_iff hnames habs
  · rw [hvol, chdir_image]
    exact sameDirs_refl adfimage.vol.image
  · rw [hvol]
    exact chdir_rootBlock L adfimage (dirname path)

end Operations

/-- Whatever becomes of an operation whose directory part can be entered, it leaves the working
directory as it was exactly if it does not return early and the string is as `append_dir` writes it,
or if it returns early from the current directory itself. -/
theorem unmoved_iff_restores (hL : L.Directories) (adfimage : Adfimage Image) (path : CStr)
    (dir : Sector) (operation : PathOperation) (hnames : NamesCurDir L adfimage)
    (habs : adfimage.cwd.head? = some '/')
    (hdir : namedDir L adfimage (dirname path) = some dir) :
    Unmoved adfimage (operation.run L adfimage path) ↔
      operation.Restores L adfimage dir path := by
  cases operation with
  | getdentry => exact unmoved_getdentry_iff hnames habs hdir
  | setperm perms =>
    rw [PathOperation.run, unmoved_congr (setperm_unmoved adfimage path perms)]
    exact unmoved_getdentry_iff hnames habs hdir
  | countDirEntries =>
    refine (unmoved_countDirEntries_iff hnames habs path).trans ?_
    simp [PathOperation.Restores, PathOperation.LooksUpRoot, PathOperation.LeavesEarly]
  | fileOpen mode =>
    rw [PathOperation.run, fileOpen_snd]
    exact unmoved_afterFile_iff hL hnames habs hdir fun image _ ↦ sameDirs_refl image
  | fileTruncate newSize =>
    rw [PathOperation.run, unmoved_congr (fileTruncate_unmoved adfimage path newSize), fileOpen_snd]
    exact unmoved_afterFile_iff hL hnames habs hdir fun image _ ↦ sameDirs_refl image
  | read size offset =>
    rw [PathOperation.run, read_snd]
    exact unmoved_afterFile_iff hL hnames habs hdir (sameDirs_afterRead hL size offset)
  | write buffer size offset =>
    rw [PathOperation.run, write_snd]
    exact unmoved_afterFile_iff hL hnames habs hdir (sameDirs_afterWrite hL buffer size offset)
  | readlink buffer lenMax =>
    refine (unmoved_readlink_iff hnames habs hdir buffer lenMax).trans ?_
    simp [PathOperation.Restores, PathOperation.LooksUpRoot, PathOperation.LeavesEarly]

theorem unmoved_iff_restores_map :
    Unmoved RamDisk.mounted
      (PathOperation.getdentry.run RamDisk.lib RamDisk.mounted "/Plot/map".toList) := by
  apply (unmoved_iff_restores RamDisk.directories RamDisk.mounted "/Plot/map".toList 882 .getdentry
    (by decide) rfl (by decide)).mpr
  have hlisted : RamDisk.sample.getDirEnt 882 ≠ [] := by decide
  exact Or.inr (Or.inl ⟨hlisted, rfl⟩)

/-- Reading a file that does not exist in `Plot` leaves the volume in `Plot`. -/
theorem not_unmoved_read_plot :
    ¬ ∀ (adfimage : Adfimage RamDisk) (path : CStr) (dir : Sector) (operation : PathOperation),
      NamesCurDir RamDisk.lib adfimage → adfimage.cwd.head? = some '/' →
      namedDir RamDisk.lib adfimage (dirname path) = some dir →
      Unmoved adfimage (operation.run RamDisk.lib adfimage path) := by
  intro h
  have hread := (h RamDisk.mounted "/Plot/none".toList 882 (.read 1 0) (by decide) rfl (by decide)).1
  revert hread
  decide

end FuseAdf
