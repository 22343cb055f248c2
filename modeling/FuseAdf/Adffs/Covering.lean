import FuseAdf.Adffs.Lookup
import FuseAdf.Adfimage.Resolution
import FuseAdf.Adflib.Watched

/-!
# The callbacks over a library that covers another

If one library does what another does, the callbacks over the first do what they do over the second:
the same reply, the same handle but for the image, the same number of passes of every loop.  There is
one equation for each function, in the order of adfimage.c and adffs.c.
-/

namespace FuseAdf

open Adfimage NameWalk

variable {Image Image' File File' : Type}

/-- The handle with its image looked at through a function. -/
def Adfimage.through (image : Image' → Image) (adfimage : Adfimage Image') : Adfimage Image where
  vol :=
    { image := image adfimage.vol.image
      rootBlock := adfimage.vol.rootBlock
      curDirPtr := adfimage.vol.curDirPtr
      readOnly := adfimage.vol.readOnly
      datablockSize := adfimage.vol.datablockSize
      firstBlock := adfimage.vol.firstBlock
      lastBlock := adfimage.vol.lastBlock }
  cwd := adfimage.cwd
  stBlksize := adfimage.stBlksize
  calls := adfimage.calls

variable {L' : Adflib Image' File'} {L : Adflib Image File} {image : Image' → Image}
  {file : File' → File} (h : L'.Covers L image file) (adfimage : Adfimage Image')

section Through

variable (image)

@[simp] theorem through_image : (adfimage.through image).vol.image = image adfimage.vol.image := rfl

@[simp] theorem through_curDirPtr :
    (adfimage.through image).vol.curDirPtr = adfimage.vol.curDirPtr := rfl

@[simp] theorem through_rootBlock :
    (adfimage.through image).vol.rootBlock = adfimage.vol.rootBlock := rfl

@[simp] theorem through_cwd : (adfimage.through image).cwd = adfimage.cwd := rfl

theorem through_setImage (next : Image') :
    (adfimage.setImage next).through image = (adfimage.through image).setImage (image next) := rfl

theorem through_record (call : AdfCall) :
    (adfimage.record call).through image = (adfimage.through image).record call := rfl

theorem through_adfToRootDir :
    adfimage.adfToRootDir.through image = (adfimage.through image).adfToRootDir := rfl

theorem chdirStart_through (path : CStr) :
    chdirStart (adfimage.through image) path = (chdirStart adfimage path).through image := by
  unfold chdirStart
  split_ifs <;> rfl

end Through

include h

theorem look_through : look L (adfimage.through image) = look L' adfimage := by
  funext dir name
  exact h.changeDir adfimage.vol.image dir name

theorem chdir_through (path : CStr) :
    adfimageChdir L (adfimage.through image) path =
      (adfimageChdir L' adfimage path).map id (Adfimage.through image) := by
  rcases eq_or_ne path [] with rfl | hne
  · rfl
  · rw [adfimageChdir_eq L _ hne, adfimageChdir_eq L' _ hne, namedDir, namedDir, arrive, arrive,
      chdirStart_through, look_through h, look_through h]
    rfl

theorem namedDir_through (path : CStr) :
    namedDir L (adfimage.through image) path = namedDir L' adfimage path := by
  rw [namedDir, namedDir, look_through h, chdirStart_through]
  rfl

theorem lastDir_through (path : CStr) :
    lastDir L (adfimage.through image) path = lastDir L' adfimage path := by
  rw [lastDir, lastDir, look_through h, chdirStart_through]
  rfl

theorem leaveParent_through (cwd : Option CStr) :
    leaveParent L (adfimage.through image) cwd = (leaveParent L' adfimage cwd).through image := by
  cases cwd with
  | none => rfl
  | some cwd => exact congrArg Prod.snd (chdir_through h adfimage cwd)

theorem countCwdEntries_through :
    adfimageCountCwdEntries L (adfimage.through image) = adfimageCountCwdEntries L' adfimage := by
  rw [adfimageCountCwdEntries, adfimageCountCwdEntries, through_image, h.getDirEnt]
  rfl

theorem countDirEntries_through (dirpath : CStr) :
    adfimageCountDirEntries L (adfimage.through image) dirpath =
      (adfimageCountDirEntries L' adfimage dirpath).map id (Adfimage.through image) := by
  simp only [adfimageCountDirEntries, chdir_through h, Prod.map_snd, countCwdEntries_through h,
    through_cwd]
  rfl

theorem rootDentry_through :
    adfimageGetRootDentry L (adfimage.through image) = adfimageGetRootDentry L' adfimage := by
  rw [adfimageGetRootDentry, adfimageGetRootDentry, through_image, h.readRootBlock]
  simp only [h.entBlock2Entry, through_rootBlock]

theorem entryAt_through (path : CStr) :
    entryAt L (adfimage.through image) path = entryAt L' adfimage path := by
  rw [entryAt, entryAt, lastDir_through h, through_image, h.getDirEnt]

theorem getdentry_through (path : CStr) :
    adfimageGetdentry L (adfimage.through image) path =
      (adfimageGetdentry L' adfimage path).map id (Adfimage.through image) := by
  rcases eq_or_ne path ['/'] with rfl | hne
  · rw [getdentry_root, getdentry_root, rootDentry_through h]
    rfl
  · rw [getdentry_eq L _ hne, getdentry_eq L' _ hne, entryAt_through h, lastDir_through h,
      chdir_through h, through_image, h.getDirEnt, Prod.map_snd, chdir_through h, Prod.map_snd]
    split_ifs <;> rfl

theorem dentryAt_through (path : CStr) :
    dentryAt L (adfimage.through image) path = dentryAt L' adfimage path := by
  rw [dentryAt, dentryAt, rootDentry_through h, entryAt_through h]

theorem getperm_through (dentry : AdfimageDentry) :
    adfimageGetperm L dentry = adfimageGetperm L' dentry := by
  rw [adfimageGetperm, adfimageGetperm, h.accHasR, h.accHasW, h.accHasE]

theorem setpermAccess_through (perms access : BitVec 32) :
    setpermAccess L perms access = setpermAccess L' perms access := by
  rw [setpermAccess, setpermAccess, h.accMaskR, h.accMaskW, h.accMaskE]

theorem setperm_through (path : CStr) (perms : BitVec 32) :
    adfimageSetperm L (adfimage.through image) path perms =
      (adfimageSetperm L' adfimage path perms).map id (Adfimage.through image) := by
  rw [setperm_eq, setperm_eq, getdentry_through h, dentryAt_through h, through_image]
  simp only [h.readEntryBlock, h.writeEntryBlock, setpermAccess_through h]
  split_ifs
  · cases L'.adfReadEntryBlock adfimage.vol.image (dentryAt L' adfimage path).adflibEntry.sector <;>
    rfl
  · rfl

theorem afterOpen_through (name : CStr) (mode : AdfFileMode) :
    afterOpen L (adfimage.through image) name mode = (afterOpen L' adfimage name mode).through image := by
  rw [afterOpen, afterOpen, through_image, through_curDirPtr, h.fileOpen]
  rfl

/-- The three ends of the common beginning of the file operations. -/
theorem openInParent_through (path : CStr) (mode : AdfFileMode) :
    openInParent L (adfimage.through image) path mode =
      match openInParent L' adfimage path mode with
      | .noDir after => .noDir (after.through image)
      | .noFile after => .noFile (after.through image)
      | .opened handle cwd after => .opened (file handle) cwd (after.through image) := by
  rw [openInParent_eq, openInParent_eq, namedDir_through h, chdir_through h]
  cases namedDir L' adfimage (dirname path) with
  | none => rfl
  | some dir =>
    dsimp only
    rw [through_image, h.fileOpen, Prod.map_snd, Prod.map_snd, afterOpen_through h]
    cases (L'.adfFileOpen adfimage.vol.image dir (basename path) mode).2 <;> rfl

theorem fileOpen_through (path : CStr) (mode : AdfFileMode) :
    adfimageFileOpen L (adfimage.through image) path mode =
      (adfimageFileOpen L' adfimage path mode).map (Option.map file) (Adfimage.through image) := by
  rw [adfimageFileOpen, adfimageFileOpen, openInParent_through h]
  cases openInParent L' adfimage path mode with
  | noDir after => rfl
  | noFile after => rfl
  | opened handle cwd after =>
    dsimp only
    rw [leaveParent_through h]
    rfl

theorem fileClose_through (handle : Option File') :
    adfimageFileClose L (adfimage.through image) (handle.map file) =
      (adfimageFileClose L' adfimage handle).through image := by
  cases handle with
  | none => rfl
  | some handle =>
    dsimp only [adfimageFileClose, Option.map_some]
    rw [through_image, h.fileClose]
    rfl

theorem read_through (path : CStr) (size offset : BitVec 64) :
    adfimageRead L (adfimage.through image) path size offset =
      (adfimageRead L' adfimage path size offset).map id (Prod.map id (Adfimage.through image)) := by
  rw [adfimageRead, adfimageRead, openInParent_through h]
  cases openInParent L' adfimage path .read with
  | noDir after => rfl
  | noFile after => rfl
  | opened handle cwd after =>
    have hseek := h.fileSeek after.vol.image handle (offset.setWidth 32)
    rcases hl : L'.adfFileSeek after.vol.image handle (offset.setWidth 32) with ⟨i, f, rc⟩
    rw [hl] at hseek
    simp only [through_image, hl, hseek, Prod.map_apply, id_eq]
    split_ifs <;>
    simp only [h.fileRead, h.fileClose, Prod.map_fst, Prod.map_snd, ← through_setImage,
      leaveParent_through h, id_eq]

theorem write_through (path : CStr) (buffer : List UInt8) (size offset : BitVec 64) :
    adfimageWrite L (adfimage.through image) path buffer size offset =
      (adfimageWrite L' adfimage path buffer size offset).map id (Adfimage.through image) := by
  rw [adfimageWrite, adfimageWrite, openInParent_through h]
  cases openInParent L' adfimage path .write with
  | noDir after => rfl
  | noFile after => rfl
  | opened handle cwd after =>
    have hseek := h.fileSeek after.vol.image handle (offset.setWidth 32)
    rcases hl : L'.adfFileSeek after.vol.image handle (offset.setWidth 32) with ⟨i, f, rc⟩
    rw [hl] at hseek
    simp only [through_image, hl, hseek, Prod.map_apply, id_eq]
    split_ifs <;>
    simp only [h.fileWrite, h.fileClose, Prod.map_fst, Prod.map_snd, ← through_setImage,
      leaveParent_through h, id_eq]

theorem fileTruncate_through (path : CStr) (newSize : BitVec 64) :
    adfimageFileTruncate L (adfimage.through image) path newSize =
      (adfimageFileTruncate L' adfimage path newSize).map id (Adfimage.through image) := by
  rw [adfimageFileTruncate, adfimageFileTruncate, fileOpen_through h]
  rcases adfimageFileOpen L' adfimage path .write with ⟨_ | handle, after⟩
  · rfl
  · have htruncate := h.fileTruncate after.vol.image handle (newSize.setWidth 32)
    have hclose := fileClose_through h
      (after.setImage (L'.adfFileTruncate after.vol.image handle (newSize.setWidth 32)).1)
      (some (L'.adfFileTruncate after.vol.image handle (newSize.setWidth 32)).2.1)
    rcases L'.adfFileTruncate after.vol.image handle (newSize.setWidth 32) with ⟨i, f, rc⟩
    simp only [Prod.map_apply, Option.map_some, through_image, htruncate, id_eq]
    exact Prod.ext rfl hclose

theorem readlinkEntry_through (name buffer : CStr) (len : ℕ) :
    readlinkEntry L (adfimage.through image) name buffer len =
      (readlinkEntry L' adfimage name buffer len).map id (Prod.map id (Adfimage.through image)) := by
  simp only [readlinkEntry, through_image, through_curDirPtr, h.readEntryBlock, h.nameToEntryBlk]
  cases L'.adfReadEntryBlock adfimage.vol.image adfimage.vol.curDirPtr with
  | none => rfl
  | some parent =>
    dsimp only
    cases L'.adfNameToEntryBlk adfimage.vol.image parent.hashTable name with
    | none => rfl
    | some entry =>
      dsimp only
      split_ifs
      · rfl
      · rw [← through_record]
        generalize adfimage.record _ = after
        rw [through_image, h.readEntryBlock]
        cases L'.adfReadEntryBlock after.vol.image entry.realEntry <;> rfl

theorem readlink_through (path buffer : CStr) (len : ℕ) :
    adfimageReadlink L (adfimage.through image) path buffer len =
      (adfimageReadlink L' adfimage path buffer len).map id
        (Prod.map id (Adfimage.through image)) := by
  rw [readlink_eq, readlink_eq, namedDir_through h, chdir_through h]
  cases namedDir L' adfimage (dirname path) with
  | none => rfl
  | some dir =>
    dsimp only
    rw [Prod.map_snd, readlinkEntry_through h, Prod.map_snd, Prod.map_snd, leaveParent_through h]
    rfl

theorem inParentFromRoot_through (path : CStr) (emptyPath : ℤ)
    {call : Image → Sector → CStr → Image × RetCode}
    {call' : Image' → Sector → CStr → Image' × RetCode}
    (hcall : ∀ i dir name, call (image i) dir name = (call' i dir name).map image id)
    (event : Sector → CStr → AdfCall) (result : RetCode → ℤ) :
    inParentFromRoot L (adfimage.through image) path emptyPath call event result =
      (inParentFromRoot L' adfimage path emptyPath call' event result).map id
        (Adfimage.through image) := by
  by_cases hroot : pathstrGetRelative path = []
  · rw [inParentFromRoot_of_root L _ _ _ _ _ hroot, inParentFromRoot_of_root L' _ _ _ _ _ hroot]
    rfl
  · rw [inParentFromRoot_eq L _ _ _ _ _ hroot, inParentFromRoot_eq L' _ _ _ _ _ hroot,
      ← through_adfToRootDir]
    dsimp only
    rw [namedDir_through h, chdir_through h]
    cases namedDir L' adfimage.adfToRootDir (dirname (pathstrGetRelative path)) with
    | none => rfl
    | some dir =>
      dsimp only
      rw [through_image, hcall]
      rfl

theorem renameConverted_through (srcPath dstPath : Path) :
    renameConverted L (adfimage.through image) srcPath dstPath =
      (renameConverted L' adfimage srcPath dstPath).map id (Adfimage.through image) := by
  rw [renameConverted, renameConverted, getdentry_through h]
  generalize adfimageGetdentry L' adfimage srcPath.dirpath = found
  rcases found with ⟨srcParent, here⟩
  simp only [Prod.map_apply, id_eq, getdentry_through h]
  cases checkParent srcParent with
  | some error => rfl
  | none =>
    generalize adfimageGetdentry L' here dstPath.dirpath = found
    rcases found with ⟨dstParent, there⟩
    have hrename := h.renameEntry there.vol.image (parentSector srcParent) srcPath.entryname
      (parentSector dstParent) dstPath.entryname
    rcases hl : L'.adfRenameEntry there.vol.image (parentSector srcParent) srcPath.entryname
      (parentSector dstParent) dstPath.entryname with ⟨last, rc⟩
    rw [hl] at hrename
    simp only [Prod.map_apply, id_eq, through_image, hrename, hl]
    cases checkParent dstParent with
    | some error => rfl
    | none =>
      dsimp only
      split_ifs <;> rfl

theorem fileRename_through (fuel : ℕ) (src dst : CStr) :
    adfimageFileRename L fuel (adfimage.through image) src dst =
      (adfimageFileRename L' fuel adfimage src dst).map (Prod.map id (Adfimage.through image)) := by
  rw [adfimageFileRename, adfimageFileRename]
  split_ifs
  · rfl
  · cases pathstrFuse2amigados fuel (pathCreate src).dirpath with
    | none => rfl
    | some srcDirpath =>
      cases pathstrFuse2amigados fuel (pathCreate dst).dirpath with
      | none => rfl
      | some dstDirpath => exact congrArg some (renameConverted_through h adfimage _ _)

/-! ## The callbacks -/

theorem statFile_through (name : CStr) (statbuf : Stat) :
    statFile L (adfimage.through image) name statbuf =
      (statFile L' adfimage name statbuf).map id (Adfimage.through image) := by
  rw [statFile, statFile, through_image, through_curDirPtr, h.fileOpen]
  rcases L'.adfFileOpen adfimage.vol.image adfimage.vol.curDirPtr name .read with ⟨i, _ | handle⟩
  · rfl
  · simp only [Prod.map_apply, Option.map_some, h.byteSize, ← through_record, ← through_setImage]
    exact Prod.ext rfl (fileClose_through h _ (some handle))

theorem statEntry_through (path name : CStr) (dentry : AdfimageDentry) :
    statEntry L (adfimage.through image) path name dentry =
      (statEntry L' adfimage path name dentry).map id (Adfimage.through image) := by
  simp only [statEntry, getperm_through h, statFile_through h, countDirEntries_through h]
  cases dentry.type <;> rfl

theorem getattr_through (env : Env) (path : CStr) :
    adffsGetattr L env (adfimage.through image) path =
      (adffsGetattr L' env adfimage path).map id (Prod.map id (Adfimage.through image)) := by
  by_cases hroot : pathstrGetRelative path = []
  · rw [getattr_root L env _ hroot, getattr_root L' env _ hroot, rootDentry_through h,
      countCwdEntries_through h]
    rfl
  · rw [getattr_eq L env _ hroot, getattr_eq L' env _ hroot, namedDir_through h, chdir_through h]
    cases namedDir L' adfimage (dirname path) with
    | none => rfl
    | some dir =>
      dsimp only
      rw [Prod.map_snd, getdentry_through h]
      rcases adfimageGetdentry L' (adfimageChdir L' adfimage (dirname path)).2 (basename path)
        with ⟨dentry, here⟩
      simp only [Prod.map_apply, id_eq, statFound, statEntry_through h]
      rcases statEntry L' here path (basename path) dentry with ⟨_ | stat, after⟩ <;> rfl

theorem readdir_through (path : CStr) (filler : List CStr → CStr → Bool) :
    adffsReaddir L (adfimage.through image) path filler =
      (adffsReaddir L' adfimage path filler).map id (Prod.map id (Adfimage.through image)) := by
  rw [adffsReaddir, adffsReaddir, chdir_through h]
  rcases adfimageChdir L' adfimage path with ⟨_ | _, after⟩
  · rfl
  · dsimp only [Prod.map, id]
    rw [through_image, through_curDirPtr, h.getDirEnt]
    generalize readdirLoop filler _ _ = filled
    rcases filled with ⟨_ | _, names⟩ <;> rfl

theorem open_through (path : CStr) :
    adffsOpen L (adfimage.through image) path =
      (adffsOpen L' adfimage path).map id (Adfimage.through image) := by
  rw [adffsOpen, adffsOpen, fileOpen_through h]
  rcases adfimageFileOpen L' adfimage path .read with ⟨handle, after⟩
  dsimp only [Prod.map]
  rw [fileClose_through h]
  cases handle <;> rfl

theorem chmod_through (path : CStr) (mode : BitVec 32) :
    adffsChmod L (adfimage.through image) path mode =
      (adffsChmod L' adfimage path mode).map id (Adfimage.through image) := by
  rw [adffsChmod, adffsChmod, setperm_through h]
  rcases adfimageSetperm L' adfimage path (chmodPerms mode) with ⟨_ | _, after⟩ <;> rfl

theorem truncate_through (path : CStr) (newSize : BitVec 64) :
    adffsTruncate L (adfimage.through image) path newSize =
      (adffsTruncate L' adfimage path newSize).map id (Adfimage.through image) := by
  rw [adffsTruncate, adffsTruncate, fileTruncate_through h]
  rfl

theorem statfs_through : adffsStatfs L (adfimage.through image) = adffsStatfs L' adfimage := by
  rw [adffsStatfs, adffsStatfs, through_image, h.countFreeBlocks]
  rfl

/-- Every callback, over the one library and over the other. -/
theorem run_through (env : Env) (fuel : ℕ) (callback : Callback) :
    callback.run L env fuel (adfimage.through image) =
      (callback.run L' env fuel adfimage).map (Prod.map id (Adfimage.through image)) := by
  cases callback with
  | getattr path => simp [Callback.run, getattr_through h]
  | readlink path buf len => simp [Callback.run, readlink_through h]
  | mkdir path =>
    simp [Callback.run, adfimageMkdir, inParentFromRoot_through h adfimage path _ h.createDir]
  | unlink path =>
    simp [Callback.run, adfimageUnlink, adfimageRemoveEntry,
      inParentFromRoot_through h adfimage path _ h.removeEntry]
  | rmdir path =>
    simp [Callback.run, adfimageRmdir, adfimageRemoveEntry,
      inParentFromRoot_through h adfimage path _ h.removeEntry]
  | rename src dst =>
    rw [Callback.run, Callback.run, fileRename_through h, Option.map_map, Option.map_map]
    rfl
  | chmod path mode => simp [Callback.run, chmod_through h]
  | chown path => rfl
  | truncate path newSize => simp [Callback.run, truncate_through h]
  | «open» path => simp [Callback.run, open_through h]
  | read path size offset => simp [Callback.run, read_through h]
  | write path buffer size offset => simp [Callback.run, write_through h]
  | statfs path => simp [Callback.run, statfs_through h]
  | readdir path filler => simp [Callback.run, readdir_through h]
  | create path =>
    simp [Callback.run, adfimageCreate, inParentFromRoot_through h adfimage path _ h.createFile]
  | utimens path => rfl

end FuseAdf
