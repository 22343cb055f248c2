import FuseAdf.Adffs.Lookup
import FuseAdf.Adffs.Renaming
import FuseAdf.Adffs.Server
import FuseAdf.Library.GuardedRun

/-!
# The callbacks serve names

The callbacks move two copies of a working directory, look up what they restore by its name and give
up in places where they have gone only half of the way.  For paths as FUSE sends them none of this
reaches the caller: over any sequence of callbacks the replies are those of the server without a
directory, and the image is its image.  Only the size of the root directory tells where the handle is.
The string `cwd` is of any length here; `CwdBuffer` says in which runs it fits into its array, so that
the served replies are those of the program.
-/

namespace FuseAdf

open Adfimage NameWalk GuardedRun

variable {Image File : Type} (L : Adflib Image File) (env : Env)

/-- What is fixed when a volume is mounted. -/
def Adfimage.mount (adfimage : Adfimage Image) : Mount where
  rootBlock := adfimage.vol.rootBlock
  readOnly := adfimage.vol.readOnly
  datablockSize := adfimage.vol.datablockSize
  firstBlock := adfimage.vol.firstBlock
  lastBlock := adfimage.vol.lastBlock
  stBlksize := adfimage.stBlksize

section Fixed

variable (adfimage : Adfimage Image)

@[simp] theorem mount_adfToRootDir : adfimage.adfToRootDir.mount = adfimage.mount := rfl

@[simp] theorem mount_setImage (image : Image) : (adfimage.setImage image).mount = adfimage.mount := rfl

@[simp] theorem mount_record (call : AdfCall) : (adfimage.record call).mount = adfimage.mount := rfl

theorem Elsewhere.mount_eq {adfimage adfimage' : Adfimage Image} (h : Elsewhere adfimage adfimage') :
    adfimage.mount = adfimage'.mount := by
  have hmount : (adfimage.relocate [] 0).mount = (adfimage'.relocate [] 0).mount := by rw [h]
  exact hmount

@[simp] theorem mount_chdir (path : CStr) : (adfimageChdir L adfimage path).2.mount = adfimage.mount :=
  (elsewhere_chdir L adfimage path).mount_eq.symm

@[simp] theorem mount_getdentry (path : CStr) :
    (adfimageGetdentry L adfimage path).2.mount = adfimage.mount :=
  (elsewhere_getdentry L adfimage path).mount_eq.symm

@[simp] theorem mount_leaveParent (cwd : Option CStr) :
    (leaveParent L adfimage cwd).mount = adfimage.mount := by
  cases cwd <;> simp [leaveParent]

@[simp] theorem mount_afterOpen (name : CStr) (mode : AdfFileMode) :
    (afterOpen L adfimage name mode).mount = adfimage.mount := rfl

@[simp] theorem mount_afterFile (path : CStr) (mode : AdfFileMode) (after : Image → File → Image) :
    (afterFile L adfimage path mode after).mount = adfimage.mount := by
  rw [afterFile, openInParent_eq]
  cases namedDir L adfimage (dirname path) with
  | none => exact mount_chdir L adfimage _
  | some dir =>
    dsimp only
    cases (L.adfFileOpen adfimage.vol.image dir (basename path) mode).2 <;> simp

@[simp] theorem mount_fileClose (file : Option File) :
    (adfimageFileClose L adfimage file).mount = adfimage.mount := by
  cases file <;> rfl

@[simp] theorem mount_inParentFromRoot (path : CStr) (emptyPath : ℤ)
    (call : Image → Sector → CStr → Image × RetCode) (event : Sector → CStr → AdfCall)
    (result : RetCode → ℤ) :
    (inParentFromRoot L adfimage path emptyPath call event result).2.mount = adfimage.mount := by
  by_cases hroot : pathstrGetRelative path = []
  · rw [inParentFromRoot_of_root L adfimage _ _ _ _ hroot]
  · rw [inParentFromRoot_eq L adfimage _ _ _ _ hroot]
    dsimp only
    cases namedDir L adfimage.adfToRootDir (dirname (pathstrGetRelative path)) <;> simp

end Fixed

section Paths

variable (adfimage : Adfimage Image) {path : CStr}

theorem chdirPieces_of_mountPath (h : IsMountPath path) : chdirPieces path = pathNames path := by
  rcases h with rfl | h
  · rfl
  · have hdot : pathstrGetRelative path ≠ ['.'] := by
      rw [getRelative_of_fusePath h]
      intro htail
      exact (h.components ".".toList (by rw [htail]; decide)).2.1 rfl
    rw [chdirPieces_eq_components hdot, components_of_fusePath h, h.pathNames_eq]

theorem namedDir_of_mountPath (h : IsMountPath path) :
    namedDir L adfimage path = adfimage.mount.dirAt L adfimage.vol.image (pathNames path) := by
  rw [namedDir_of_absolute L adfimage h.absolute, chdirPieces_of_mountPath h]
  rfl

theorem lastDir_of_mountPath (h : IsMountPath path) :
    lastDir L adfimage path = adfimage.mount.dirNear L adfimage.vol.image (pathNames path) := by
  rw [lastDir, chdirStart_of_absolute adfimage h.absolute, chdirPieces_of_mountPath h]
  rfl

theorem namedDir_dirname (h : IsFusePath path) :
    namedDir L adfimage (dirname path) =
      adfimage.mount.dirAt L adfimage.vol.image (pathNames path).dropLast := by
  rw [namedDir_of_mountPath L adfimage h.dirname_mount, h.pathNames_dirname]

theorem rootDentry_eq :
    adfimageGetRootDentry L adfimage = adfimage.mount.rootDentry L adfimage.vol.image := by
  have hroot : adfimage.mount.rootBlock = adfimage.vol.rootBlock := rfl
  rw [adfimageGetRootDentry, Mount.rootDentry, hroot]
  cases L.adfReadRootBlock adfimage.vol.image adfimage.vol.rootBlock with
  | none => rfl
  | some block =>
    cases hentry : L.adfEntBlock2Entry block.asEntryBlock <;> simp [hentry]

theorem dentryAt_of_mountPath (h : IsMountPath path) :
    dentryAt L adfimage path =
      adfimage.mount.dentryNear L adfimage.vol.image (pathNames path) := by
  rcases h with rfl | h
  · exact rootDentry_eq L adfimage
  · have hne : path ≠ ['/'] := by
      rintro rfl
      exact h.pathNames_ne_nil rfl
    rw [dentryAt, if_neg hne, Mount.dentryNear, if_neg h.pathNames_ne_nil, entryAt,
      lastDir_of_mountPath L adfimage h.dirname_mount, h.pathNames_dirname, h.basename_eq]

/-- The relative path that creating and removing use leads to the same directory and entry. -/
theorem relative_of_fusePath (h : IsFusePath path) :
    namedDir L adfimage.adfToRootDir (dirname (pathstrGetRelative path)) =
        adfimage.mount.dirAt L adfimage.vol.image (pathNames path).dropLast ∧
      basename (pathstrGetRelative path) = entryName (pathNames path) := by
  obtain ⟨hpieces, hname⟩ := splits_getRelative h.absolute
    (getRelative_ne_nil_iff.mp (getRelative_ne_nil_of_fusePath h))
  rw [namedDir_from_root, ← hpieces, chdirPieces_of_mountPath h.dirname_mount, h.pathNames_dirname,
    ← hname, h.basename_eq]
  exact ⟨rfl, rfl⟩

end Paths

section Files

variable (adfimage : Adfimage Image) {path : CStr} (h : IsFusePath path)

include h

/-- The common beginning of the file operations, with what is done to the file. -/
theorem withFile_eq {α : Type} (mode : AdfFileMode) (failure : α) (use : Image → File → α × Image) :
    adfimage.mount.withFile L adfimage.vol.image (pathNames path) mode failure use =
      match openInParent L adfimage path mode with
      | .noDir after => (failure, after.vol.image)
      | .noFile after => (failure, after.vol.image)
      | .opened file _ after => use after.vol.image file := by
  rw [openInParent_eq, namedDir_dirname L adfimage h, h.basename_eq, Mount.withFile]
  cases hdir : adfimage.mount.dirAt L adfimage.vol.image (pathNames path).dropLast with
  | none => exact congrArg (Prod.mk failure) (chdir_image L adfimage _).symm
  | some dir =>
    have hcur : (adfimageChdir L adfimage (dirname path)).2.vol.curDirPtr = dir := by
      rw [chdir_curDirPtr L adfimage (dirname_ne_nil path)]
      exact lastDir_of_namedDir L ((namedDir_dirname L adfimage h).trans hdir)
    dsimp only
    rcases hopen : L.adfFileOpen adfimage.vol.image dir (entryName (pathNames path)) mode with
      ⟨image, file⟩
    cases file with
    | none => simp [afterOpen, hcur, hopen]
    | some file => simp [afterOpen, hcur, hopen]

theorem read_serves (size offset : BitVec 64) :
    (((adfimageRead L adfimage path size offset).1, (adfimageRead L adfimage path size offset).2.1),
        (adfimageRead L adfimage path size offset).2.2.vol.image) =
      adfimage.mount.read L adfimage.vol.image (pathNames path) size offset := by
  rw [Mount.read, withFile_eq L adfimage h, adfimageRead]
  cases openInParent L adfimage path .read with
  | noDir after => rfl
  | noFile after => rfl
  | opened file cwd after => simp

theorem write_serves (buffer : List UInt8) (size offset : BitVec 64) :
    ((adfimageWrite L adfimage path buffer size offset).1,
        (adfimageWrite L adfimage path buffer size offset).2.vol.image) =
      adfimage.mount.write L adfimage.vol.image (pathNames path) buffer size offset := by
  rw [Mount.write, withFile_eq L adfimage h, adfimageWrite]
  cases openInParent L adfimage path .write with
  | noDir after => rfl
  | noFile after => rfl
  | opened file cwd after => simp

theorem open_serves :
    ((adffsOpen L adfimage path).1, (adffsOpen L adfimage path).2.vol.image) =
      adfimage.mount.open L adfimage.vol.image (pathNames path) := by
  rw [Mount.open, withFile_eq L adfimage h, adffsOpen, adfimageFileOpen]
  cases openInParent L adfimage path .read with
  | noDir after => rfl
  | noFile after => rfl
  | opened file cwd after => simp [adfimageFileClose]

theorem truncate_serves (newSize : BitVec 64) :
    ((adffsTruncate L adfimage path newSize).1,
        (adffsTruncate L adfimage path newSize).2.vol.image) =
      adfimage.mount.truncate L adfimage.vol.image (pathNames path) newSize := by
  rw [Mount.truncate, withFile_eq L adfimage h, adffsTruncate, adfimageFileTruncate,
    adfimageFileOpen]
  cases openInParent L adfimage path .write with
  | noDir after => rfl
  | noFile after => rfl
  | opened file cwd after =>
    simp only [leaveParent_image, adfimageFileClose, setImage_image]
    split_ifs <;> simp_all

theorem readlink_serves (buffer : CStr) (len : ℕ) :
    ((adfimageReadlink L adfimage path buffer len).1,
        (adfimageReadlink L adfimage path buffer len).2.1) =
        adfimage.mount.readlink L adfimage.vol.image (pathNames path) buffer len ∧
      (adfimageReadlink L adfimage path buffer len).2.2.vol.image = adfimage.vol.image := by
  rw [readlink_eq, namedDir_dirname L adfimage h, h.basename_eq, Mount.readlink]
  cases hdir : adfimage.mount.dirAt L adfimage.vol.image (pathNames path).dropLast with
  | none => exact ⟨rfl, chdir_image L adfimage _⟩
  | some dir =>
    have hcur : (adfimageChdir L adfimage (dirname path)).2.vol.curDirPtr = dir := by
      rw [chdir_curDirPtr L adfimage (dirname_ne_nil path)]
      exact lastDir_of_namedDir L ((namedDir_dirname L adfimage h).trans hdir)
    dsimp only
    rw [readlinkEntry, chdir_image, hcur]
    cases L.adfReadEntryBlock adfimage.vol.image dir with
    | none => simp
    | some parent =>
      dsimp only
      cases L.adfNameToEntryBlk adfimage.vol.image parent.hashTable (entryName (pathNames path)) with
      | none => simp
      | some entry =>
        dsimp only
        split_ifs
        · simp
        · rw [record_vol, chdir_image]
          cases L.adfReadEntryBlock adfimage.vol.image entry.realEntry <;> simp

end Files

section Entries

variable (adfimage : Adfimage Image) {path : CStr}

theorem changeEntry_serves (h : IsFusePath path) (emptyPath : ℤ)
    (call : Image → Sector → CStr → Image × RetCode) (event : Sector → CStr → AdfCall)
    (result : RetCode → ℤ) :
    ((inParentFromRoot L adfimage path emptyPath call event result).1,
        (inParentFromRoot L adfimage path emptyPath call event result).2.vol.image) =
      adfimage.mount.changeEntry L adfimage.vol.image (pathNames path) call result := by
  obtain ⟨hdir, hname⟩ := relative_of_fusePath L adfimage h
  rw [inParentFromRoot_eq L adfimage _ _ _ _ (getRelative_ne_nil_of_fusePath h)]
  dsimp only
  rw [hdir, hname, Mount.changeEntry]
  cases adfimage.mount.dirAt L adfimage.vol.image (pathNames path).dropLast with
  | none => simp
  | some dir => rfl

theorem chmod_eq (path : CStr) (mode : BitVec 32) :
    adffsChmod L adfimage path mode =
      (if (adfimageSetperm L adfimage path (chmodPerms mode)).1 then 0 else eInval,
        (adfimageSetperm L adfimage path (chmodPerms mode)).2) := by
  rw [adffsChmod]
  rcases adfimageSetperm L adfimage path (chmodPerms mode) with ⟨done, after⟩
  cases done <;> rfl

theorem chmod_serves (h : IsMountPath path) (mode : BitVec 32) :
    ((adffsChmod L adfimage path mode).1, (adffsChmod L adfimage path mode).2.vol.image) =
      adfimage.mount.chmod L adfimage.vol.image (pathNames path) mode := by
  rw [chmod_eq, setperm_eq, dentryAt_of_mountPath L adfimage h, Mount.chmod]
  dsimp only
  cases adfimageDentryValid (adfimage.mount.dentryNear L adfimage.vol.image (pathNames path)) with
  | false => simp
  | true =>
    simp only [if_true, Bool.not_true, Bool.false_eq_true, if_false]
    cases L.adfReadEntryBlock adfimage.vol.image
        (adfimage.mount.dentryNear L adfimage.vol.image (pathNames path)).adflibEntry.sector with
    | none => simp
    | some block => simp

/-- The lookup of the second directory does not depend on the first. -/
theorem rename_serves {srcPath dstPath : CStr} (hsrc : IsFusePath srcPath)
    (hdst : IsFusePath dstPath) :
    ((renameConverted L adfimage (pathCreate srcPath) (pathCreate dstPath)).1,
        (renameConverted L adfimage (pathCreate srcPath) (pathCreate dstPath)).2.vol.image) =
      adfimage.mount.rename L adfimage.vol.image (pathNames srcPath) (pathNames dstPath) := by
  have hsrcParent := dentryAt_of_mountPath L adfimage hsrc.dirname_mount
  have hdstParent := dentryAt_of_mountPath L adfimage hdst.dirname_mount
  rw [hsrc.pathNames_dirname] at hsrcParent
  rw [hdst.pathNames_dirname] at hdstParent
  have hmiddle : dentryAt L (adfimageGetdentry L adfimage (dirname srcPath)).2 (dirname dstPath) =
      dentryAt L adfimage (dirname dstPath) :=
    dentryAt_after_getdentry adfimage (dirname srcPath) (head_dirname hdst.absolute)
  simp only [renameConverted, Mount.rename, pathCreate_dirpath, pathCreate_entryname,
    getdentry_fst_eq_dentryAt, getdentry_image, hmiddle, hsrcParent, hdstParent, hsrc.basename_eq,
    hdst.basename_eq]
  cases checkParent (adfimage.mount.dentryNear L adfimage.vol.image (pathNames srcPath).dropLast) with
  | some error => simp
  | none =>
    rw [Option.none_or]
    dsimp only
    cases checkParent
        (adfimage.mount.dentryNear L adfimage.vol.image (pathNames dstPath).dropLast) with
    | some error => simp
    | none =>
      dsimp only
      rw [ite_or]
      split_ifs <;> simp [*]

end Entries

section Reports

variable (adfimage : Adfimage Image) {path : CStr}

theorem readdir_serves (h : IsMountPath path) (filler : List CStr → CStr → Bool) :
    ((adffsReaddir L adfimage path filler).1, (adffsReaddir L adfimage path filler).2.1) =
        adfimage.mount.readdir L adfimage.vol.image (pathNames path) filler ∧
      (adffsReaddir L adfimage path filler).2.2.vol.image = adfimage.vol.image := by
  have hne : path ≠ [] := by
    rintro rfl
    exact absurd h.absolute (by simp)
  rw [readdir_eq L adfimage hne, namedDir_of_mountPath L adfimage h, Mount.readdir]
  cases adfimage.mount.dirAt L adfimage.vol.image (pathNames path) with
  | none => simp
  | some dir => simp

/-- The size of a directory is counted where the whole path leads, or on the way to it. -/
theorem countDirEntries_serves (h : IsMountPath path) :
    (adfimageCountDirEntries L adfimage path).1 = adflistCountEntries
        (L.adfGetDirEnt adfimage.vol.image
          (adfimage.mount.dirNear L adfimage.vol.image (pathNames path))) ∧
      (adfimageCountDirEntries L adfimage path).2.vol.image = adfimage.vol.image := by
  have hne : path ≠ [] := by
    rintro rfl
    exact absurd h.absolute (by simp)
  rw [adfimageCountDirEntries]
  simp [adfimageCountCwdEntries, chdir_curDirPtr L adfimage hne, lastDir_of_mountPath L adfimage h]

/-- The names of a directory that was entered are looked up again as they are. -/
theorem chdirPieces_cwdOf_dropLast (h : IsFusePath path) (hnames : AreDirNames (pathNames path).dropLast) :
    chdirPieces (cwdOf (pathNames path).dropLast) = (pathNames path).dropLast := by
  have hcomponents := components_cwdOf hnames
  have hdot : pathstrGetRelative (cwdOf (pathNames path).dropLast) ≠ ['.'] := by
    intro hrel
    have hmem : ".".toList ∈ (pathNames path).dropLast := by
      rw [← hcomponents, components, hrel]
      decide
    rw [h.pathNames_eq] at hmem
    exact (h.components _ ((List.dropLast_prefix _).subset hmem)).2.1 rfl
  rw [chdirPieces_eq_components hdot, hcomponents]

/-- A directory that was entered by the names of a path is recorded by them. -/
theorem located_dirname (h : IsFusePath path) {dir : Sector}
    (hdir : adfimage.mount.dirAt L adfimage.vol.image (pathNames path).dropLast = some dir) :
    Located L (adfimageChdir L adfimage (dirname path)).2 (pathNames path).dropLast := by
  have hpieces : chdirPieces (dirname path) = (pathNames path).dropLast := by
    rw [chdirPieces_of_mountPath h.dirname_mount, h.pathNames_dirname]
  have hstart : Located L (chdirStart adfimage (dirname path)) [] := by
    rw [chdirStart_of_absolute adfimage h.dirname_mount.absolute]
    exact located_root rfl rfl
  have hcur : (chdirStart adfimage (dirname path)).vol.curDirPtr = adfimage.vol.rootBlock := by
    rw [chdirStart_of_absolute adfimage h.dirname_mount.absolute]
    rfl
  have harrive := hstart.arrive (areDirNames_chdirPieces (dirname path))
  rw [look_chdirStart, hcur, hpieces, List.nil_append] at harrive
  have hwalked : walked (look L adfimage) adfimage.vol.rootBlock (pathNames path).dropLast =
      (pathNames path).dropLast := walked_of_walk hdir
  rw [hwalked] at harrive
  rw [adfimageChdir_eq L adfimage (dirname_ne_nil path), hpieces]
  exact harrive

/-- Asking for an entry by its bare name ends in the directory where it begins, if that directory was
entered by the names of a path. -/
theorem getdentry_curDirPtr (h : IsFusePath path) {dir : Sector}
    (hdir : adfimage.mount.dirAt L adfimage.vol.image (pathNames path).dropLast = some dir) :
    (adfimageGetdentry L (adfimageChdir L adfimage (dirname path)).2
      (basename path)).2.vol.curDirPtr = dir := by
  have hname := exists_ne_slash (getRelative_ne_nil_of_fusePath h)
  have hne := basename_ne_nil hname
  have hslash := slash_not_mem_basename hname
  have hroot : basename path ≠ ['/'] := by
    intro heq
    exact hslash (by simp [heq])
  have hlocated := located_dirname L adfimage h hdir
  have hcur : (adfimageChdir L adfimage (dirname path)).2.vol.curDirPtr = dir := by
    rw [chdir_curDirPtr L adfimage (dirname_ne_nil path)]
    exact lastDir_of_namedDir L ((namedDir_dirname L adfimage h).trans hdir)
  have hcwd : (adfimageChdir L adfimage (dirname path)).2.cwd ≠ [] := by
    intro hnil
    simpa [hnil] using hlocated.head_cwd
  rw [getdentry_eq L _ hroot, dirname_name hne hslash, chdir_dot]
  dsimp only
  split_ifs
  · exact hcur
  · rw [chdir_curDirPtr L _ hcwd, lastDir, chdirStart_of_absolute _ hlocated.head_cwd, hlocated.cwd,
      chdirPieces_cwdOf_dropLast h hlocated.areDirNames, ← hcur]
    exact reach_of_walk hlocated.walk

/-- The file is opened in the directory where the handle is. -/
theorem statEntry_serves (h : IsFusePath path) {mount : Mount} {image : Image} {dir : Sector}
    (dentry : AdfimageDentry) (hmount : adfimage.mount = mount) (himage : adfimage.vol.image = image)
    (hdir : adfimage.vol.curDirPtr = dir) :
    ((statEntry L adfimage path (basename path) dentry).1,
        (statEntry L adfimage path (basename path) dentry).2.vol.image) =
      mount.statIn L image (pathNames path) dir dentry := by
  subst hmount himage hdir
  obtain ⟨hsize, hcounted⟩ := countDirEntries_serves L adfimage (Or.inr h)
  unfold statEntry Mount.statIn
  rw [h.basename_eq]
  rcases hopen : L.adfFileOpen adfimage.vol.image adfimage.vol.curDirPtr
    (entryName (pathNames path)) .read with ⟨image, file⟩
  cases dentry.type with
  | file | linkfile => cases file <;> simp [statFile, hopen, adfimageFileClose]
  | directory | linkdir => simp [hsize, hcounted]
  | softlink => rfl
  | unknown => rfl
  | none => rfl

@[simp] theorem mount_statEntry (path name : CStr) (dentry : AdfimageDentry) :
    (statEntry L adfimage path name dentry).2.mount = adfimage.mount := by
  unfold statEntry
  cases dentry.type <;> simp [statFile, adfimageCountDirEntries]

theorem getattr_serves (h : IsMountPath path) :
    (((adffsGetattr L env adfimage path).1, (adffsGetattr L env adfimage path).2.1),
        (adffsGetattr L env adfimage path).2.2.vol.image) =
      adfimage.mount.getattr L env adfimage.vol.image (pathNames path) adfimage.vol.curDirPtr := by
  rcases h with rfl | h
  · rw [getattr_root L env adfimage rfl, rootDentry_eq, Mount.getattr, if_pos pathNames_root]
    rfl
  · rw [getattr_eq L env adfimage (getRelative_ne_nil_of_fusePath h), namedDir_dirname L adfimage h,
      Mount.getattr, if_neg h.pathNames_ne_nil]
    cases hdir : adfimage.mount.dirAt L adfimage.vol.image (pathNames path).dropLast with
    | none => simp
    | some dir =>
      have hname := exists_ne_slash (getRelative_ne_nil_of_fusePath h)
      have hcur : (adfimageChdir L adfimage (dirname path)).2.vol.curDirPtr = dir := by
        rw [chdir_curDirPtr L adfimage (dirname_ne_nil path)]
        exact lastDir_of_namedDir L ((namedDir_dirname L adfimage h).trans hdir)
      have hdentry := getdentry_name L (adfimageChdir L adfimage (dirname path)).2
        (basename_ne_nil hname) (slash_not_mem_basename hname)
      rw [chdir_image, hcur] at hdentry
      have hhere := getdentry_curDirPtr L adfimage h hdir
      have himage : (adfimageGetdentry L (adfimageChdir L adfimage (dirname path)).2
          (basename path)).2.vol.image = adfimage.vol.image := by simp
      have hmount : (adfimageGetdentry L (adfimageChdir L adfimage (dirname path)).2
          (basename path)).2.mount = adfimage.mount := by simp
      dsimp only
      rw [hdentry, ← h.basename_eq]
      generalize (adfimageGetdentry L (adfimageChdir L adfimage (dirname path)).2
        (basename path)).2 = here at hhere himage hmount ⊢
      generalize dentryOf (adflibListFind (basename path) (L.adfGetDirEnt adfimage.vol.image dir)) =
        dentry
      have hstat := statEntry_serves L here h dentry hmount himage hhere
      have hafter := mount_statEntry L here path (basename path) dentry
      rw [← hstat, statFound]
      rw [hmount] at hafter
      generalize statEntry L here path (basename path) dentry = result at hafter ⊢
      rcases result with ⟨stat, after⟩
      cases stat with
      | none => rfl
      | some statbuf =>
        rw [← hafter]
        rfl

end Reports

/-! ## One callback -/

/-- The paths are inside of the mount point; only where the root can be meant, they may be its. -/
def Callback.FromFuse : Callback → Prop
  | .getattr path | .chmod path _ | .chown path | .statfs path | .readdir path _ | .utimens path =>
      IsMountPath path
  | .rename srcPath dstPath => IsFusePath srcPath ∧ IsFusePath dstPath
  | .readlink path _ _ | .mkdir path | .unlink path | .rmdir path | .truncate path _ | .open path
  | .read path _ _ | .write path _ _ _ | .create path => IsFusePath path

section MountKept

variable (adfimage : Adfimage Image) (path : CStr)

@[simp] theorem mount_getattr :
    (adffsGetattr L env adfimage path).2.2.mount = adfimage.mount := by
  by_cases hroot : pathstrGetRelative path = []
  · rw [getattr_root L env adfimage hroot]
  · rw [getattr_eq L env adfimage hroot]
    dsimp only
    cases namedDir L adfimage (dirname path) with
    | none => simp
    | some dir =>
      dsimp only
      have hstat := mount_statEntry L
        (adfimageGetdentry L (adfimageChdir L adfimage (dirname path)).2 (basename path)).2 path
        (basename path)
        (adfimageGetdentry L (adfimageChdir L adfimage (dirname path)).2 (basename path)).1
      rw [mount_getdentry, mount_chdir] at hstat
      rw [statFound]
      generalize statEntry L _ path (basename path) _ = result at hstat ⊢
      rcases result with ⟨stat, after⟩
      cases stat <;> exact hstat

@[simp] theorem mount_readlink (buffer : CStr) (len : ℕ) :
    (adfimageReadlink L adfimage path buffer len).2.2.mount = adfimage.mount := by
  rw [readlink_eq]
  cases namedDir L adfimage (dirname path) with
  | none => simp
  | some dir =>
    dsimp only
    rw [mount_leaveParent, readlinkEntry]
    split
    · simp
    · dsimp only
      split
      · simp
      · split_ifs
        · simp
        · split <;> simp

@[simp] theorem mount_chmod (mode : BitVec 32) :
    (adffsChmod L adfimage path mode).2.mount = adfimage.mount := by
  rw [chmod_eq, setperm_eq]
  dsimp only
  split_ifs
  · split <;> simp
  · simp

@[simp] theorem mount_renameConverted (srcPath dstPath : Path) :
    (renameConverted L adfimage srcPath dstPath).2.mount = adfimage.mount := by
  unfold renameConverted
  dsimp only
  split
  · simp
  · split
    · simp
    · split_ifs <;> simp

@[simp] theorem mount_open : (adffsOpen L adfimage path).2.mount = adfimage.mount := by
  rw [adffsOpen]
  simp [fileOpen_snd]

@[simp] theorem mount_truncate (newSize : BitVec 64) :
    (adffsTruncate L adfimage path newSize).2.mount = adfimage.mount := by
  have hopen : (adfimageFileOpen L adfimage path .write).2.mount = adfimage.mount := by
    simp [fileOpen_snd]
  rw [adffsTruncate, adfimageFileTruncate]
  generalize adfimageFileOpen L adfimage path .write = opening at hopen ⊢
  rcases opening with ⟨file, after⟩
  cases file <;> simpa using hopen

@[simp] theorem mount_read (size offset : BitVec 64) :
    (adfimageRead L adfimage path size offset).2.2.mount = adfimage.mount := by
  rw [read_snd, mount_afterFile]

@[simp] theorem mount_write (buffer : List UInt8) (size offset : BitVec 64) :
    (adfimageWrite L adfimage path buffer size offset).2.mount = adfimage.mount := by
  rw [write_snd, mount_afterFile]

@[simp] theorem mount_create : (adfimageCreate L adfimage path).2.mount = adfimage.mount :=
  mount_inParentFromRoot L adfimage path _ _ _ _

@[simp] theorem mount_readdir (filler : List CStr → CStr → Bool) :
    (adffsReaddir L adfimage path filler).2.2.mount = adfimage.mount := by
  have hwalk := mount_chdir L adfimage path
  rw [adffsReaddir]
  generalize adfimageChdir L adfimage path = walk at hwalk ⊢
  rcases walk with ⟨entered, after⟩
  cases entered with
  | false => exact hwalk
  | true =>
    dsimp only
    generalize readdirLoop filler _ _ = filled
    rcases filled with ⟨done, names⟩
    cases done <;> exact hwalk

end MountKept

theorem mount_of_some {adfimage result after : Adfimage Image} {reply reply' : Reply}
    (hmount : result.mount = adfimage.mount) (h : some (reply', result) = some (reply, after)) :
    after.mount = adfimage.mount := by
  obtain ⟨-, rfl⟩ := Prod.mk.inj (Option.some.inj h)
  exact hmount

/-- The handle keeps what was fixed when the volume was mounted. -/
theorem mount_of_run {adfimage after : Adfimage Image} {callback : Callback} {fuel : ℕ} {reply : Reply}
    (h : callback.run L env fuel adfimage = some (reply, after)) : after.mount = adfimage.mount := by
  cases callback with
  | rename srcPath dstPath =>
    obtain ⟨⟨ret, last⟩, hrename, hresult⟩ := Option.map_eq_some_iff.mp h
    obtain ⟨-, rfl⟩ := Prod.mk.inj hresult
    obtain ⟨srcDirpath, dstDirpath, -, -, hconverted⟩ := fileRename_of_converts hrename
    rw [← show (renameConverted L adfimage _ _).2 = last from congrArg Prod.snd hconverted,
      mount_renameConverted]
  | getattr path => exact mount_of_some (mount_getattr L env adfimage path) h
  | readlink path buf len => exact mount_of_some (mount_readlink L adfimage path buf len) h
  | mkdir path => exact mount_of_some (mount_inParentFromRoot L adfimage path _ _ _ _) h
  | unlink path => exact mount_of_some (mount_inParentFromRoot L adfimage path _ _ _ _) h
  | rmdir path => exact mount_of_some (mount_inParentFromRoot L adfimage path _ _ _ _) h
  | create path => exact mount_of_some (mount_create L adfimage path) h
  | chmod path mode => exact mount_of_some (mount_chmod L adfimage path mode) h
  | truncate path newSize => exact mount_of_some (mount_truncate L adfimage path newSize) h
  | «open» path => exact mount_of_some (mount_open L adfimage path) h
  | read path size offset => exact mount_of_some (mount_read L adfimage path size offset) h
  | write path buffer size offset =>
    exact mount_of_some (mount_write L adfimage path buffer size offset) h
  | readdir path filler => exact mount_of_some (mount_readdir L adfimage path filler) h
  | chown path => exact mount_of_some rfl h
  | statfs path => exact mount_of_some rfl h
  | utimens path => exact mount_of_some rfl h

/-- The conversions of a renaming end exactly if the names of both directories let them. -/
theorem fileRename_eq_some_iff (adfimage : Adfimage Image) {srcPath dstPath : CStr}
    (hsrc : IsFusePath srcPath) (hdst : IsFusePath dstPath) (result : ℤ × Adfimage Image) :
    (∃ fuel, adfimageFileRename L fuel adfimage srcPath dstPath = some result) ↔
      (AreConvertible (pathNames srcPath).dropLast ∧ AreConvertible (pathNames dstPath).dropLast) ∧
        renameConverted L adfimage (pathCreate srcPath) (pathCreate dstPath) = result := by
  rw [← hsrc.pathNames_dirname, ← hdst.pathNames_dirname, ← hsrc.dirname_mount.isConvertible_iff,
    ← hdst.dirname_mount.isConvertible_iff]
  constructor
  · intro ⟨fuel, hrename⟩
    obtain ⟨srcDirpath, dstDirpath, hsrcConverts, hdstConverts, hconverted⟩ :=
      fileRename_of_converts hrename
    obtain ⟨hsrcNames, rfl⟩ := hsrc.convertsTo_dirname_iff.mp hsrcConverts
    obtain ⟨hdstNames, rfl⟩ := hdst.convertsTo_dirname_iff.mp hdstConverts
    exact ⟨⟨hsrcNames, hdstNames⟩, hconverted⟩
  · intro ⟨⟨hsrcNames, hdstNames⟩, hconverted⟩
    have hsrcConverts := hsrc.convertsTo_dirname_iff.mpr ⟨hsrcNames, rfl⟩
    have hdstConverts := hdst.convertsTo_dirname_iff.mpr ⟨hdstNames, rfl⟩
    obtain ⟨fuel, hreturns⟩ : ∃ fuel, (adfimageFileRename L fuel adfimage srcPath dstPath).isSome :=
      fileRename_isSome adfimage hsrcConverts hdstConverts
    obtain ⟨result', hrename⟩ := Option.isSome_iff_exists.mp hreturns
    obtain ⟨srcDirpath, dstDirpath, hsrc', hdst', hconverted'⟩ := fileRename_of_converts hrename
    obtain rfl := hsrc'.unique hsrcConverts
    obtain rfl := hdst'.unique hdstConverts
    exact ⟨fuel, hrename.trans (congrArg some (hconverted'.symm.trans hconverted))⟩

/-- The callbacks without a loop over a path. -/
theorem outcome_eq_serve (adfimage : Adfimage Image) (fuel : ℕ) {callback : Callback}
    (h : callback.FromFuse) (hloop : ∀ srcPath dstPath, callback ≠ .rename srcPath dstPath) :
    callback.outcome L env fuel adfimage =
      callback.serve L env adfimage.mount adfimage.vol.curDirPtr adfimage.vol.image := by
  cases callback with
  | rename srcPath dstPath => exact absurd rfl (hloop srcPath dstPath)
  | getattr path =>
    rw [Callback.serve, ← getattr_serves L env adfimage h]
    rfl
  | readlink path buf len =>
    obtain ⟨hlink, himage⟩ := readlink_serves L adfimage h buf len
    rw [Callback.serve, ← hlink]
    exact congrArg (fun image ↦ some ((_ : Reply), image)) himage
  | mkdir path =>
    rw [Callback.serve, ← changeEntry_serves L adfimage h eExist L.adfCreateDir .createDir id]
    rfl
  | unlink path =>
    rw [Callback.serve, ← changeEntry_serves L adfimage h ePerm L.adfRemoveEntry .removeEntry id]
    rfl
  | rmdir path =>
    rw [Callback.serve, ← changeEntry_serves L adfimage h ePerm L.adfRemoveEntry .removeEntry id]
    rfl
  | create path =>
    rw [Callback.serve, ← changeEntry_serves L adfimage h eInval L.adfCreateFile .createFile]
    rfl
  | chmod path mode =>
    rw [Callback.serve, ← chmod_serves L adfimage h mode]
    rfl
  | truncate path newSize =>
    rw [Callback.serve, ← truncate_serves L adfimage h newSize]
    rfl
  | «open» path =>
    rw [Callback.serve, ← open_serves L adfimage h]
    rfl
  | read path size offset =>
    rw [Callback.serve, ← read_serves L adfimage h size offset]
    rfl
  | write path buffer size offset =>
    rw [Callback.serve, ← write_serves L adfimage h buffer size offset]
    rfl
  | readdir path filler =>
    obtain ⟨hnames, himage⟩ := readdir_serves L adfimage h filler
    rw [Callback.serve, ← hnames]
    exact congrArg (fun image ↦ some ((_ : Reply), image)) himage
  | chown path => rfl
  | statfs path => rfl
  | utimens path => rfl

/-- The reply and the image are those of the server, and a callback returns exactly if the server
answers. -/
theorem outcome_iff_serve (adfimage : Adfimage Image) {callback : Callback} (h : callback.FromFuse)
    (answer : Reply × Image) :
    (∃ fuel, callback.outcome L env fuel adfimage = some answer) ↔
      callback.serve L env adfimage.mount adfimage.vol.curDirPtr adfimage.vol.image =
        some answer := by
  by_cases hloop : ∀ srcPath dstPath, callback ≠ .rename srcPath dstPath
  · constructor
    · intro ⟨fuel, houtcome⟩
      rw [← outcome_eq_serve L env adfimage fuel h hloop, houtcome]
    · intro hserve
      exact ⟨0, (outcome_eq_serve L env adfimage 0 h hloop).trans hserve⟩
  · push Not at hloop
    obtain ⟨srcPath, dstPath, rfl⟩ := hloop
    have hserves := rename_serves L adfimage h.1 h.2
    rw [Callback.serve, ← hserves]
    constructor
    · intro ⟨fuel, houtcome⟩
      obtain ⟨⟨reply, last⟩, hrun, rfl⟩ := Option.map_eq_some_iff.mp houtcome
      obtain ⟨result, hrename, hreply⟩ := Option.map_eq_some_iff.mp hrun
      obtain ⟨hconvertible, hconverted⟩ :=
        (fileRename_eq_some_iff L adfimage h.1 h.2 result).mp ⟨fuel, hrename⟩
      rw [if_pos hconvertible, hconverted]
      obtain ⟨rfl, rfl⟩ := Prod.mk.inj hreply
      rfl
    · intro hserve
      split_ifs at hserve with hconvertible
      obtain ⟨fuel, hrename⟩ :=
        (fileRename_eq_some_iff L adfimage h.1 h.2 _).mpr ⟨hconvertible, rfl⟩
      refine ⟨fuel, ?_⟩
      rw [Callback.outcome, Callback.run, hrename]
      exact hserve

/-! ## Whole runs -/

/-- A callback has returned with a reply and left the second handle. -/
def Callback.Returns (before : Adfimage Image) (exchange : Callback × Reply)
    (after : Adfimage Image) : Prop :=
  ∃ fuel, exchange.1.run L env fuel before = some (exchange.2, after)

/-- The server has given this answer, with the entries of some directory counted for the root, and
the second image is the one after it. -/
def Mount.Serves (mount : Mount) (before : Image) (exchange : Callback × Reply) (after : Image) :
    Prop :=
  ∃ here, exchange.1.serve L env mount here before = some (exchange.2, after)

/-- The root directory is asked for its size. -/
def Callback.StatsRoot : Callback → Prop
  | .getattr path => pathNames path = []
  | _ => False

variable {L env}

/-- Only the size of the root depends on where the handle is. -/
theorem serve_here {mount : Mount} {image : Image} {callback : Callback} (h : ¬ callback.StatsRoot)
    (here here' : Sector) :
    callback.serve L env mount here image = callback.serve L env mount here' image := by
  cases callback with
  | getattr path =>
    have hnames : pathNames path ≠ [] := h
    simp only [Callback.serve, Mount.getattr, if_neg hnames]
  | _ => rfl

theorem Callback.Returns.serves {before after : Adfimage Image} {exchange : Callback × Reply}
    (hfuse : exchange.1.FromFuse) (h : Callback.Returns L env before exchange after) :
    before.mount.Serves L env before.vol.image exchange after.vol.image ∧
      after.mount = before.mount := by
  obtain ⟨fuel, hrun⟩ := h
  have houtcome : exchange.1.outcome L env fuel before = some (exchange.2, after.vol.image) := by
    rw [Callback.outcome, hrun]
    rfl
  exact ⟨⟨_, (outcome_iff_serve L env before hfuse _).mp ⟨fuel, houtcome⟩⟩,
    mount_of_run L env hrun⟩

theorem Mount.Serves.returns {before : Adfimage Image} {image : Image}
    {exchange : Callback × Reply} (hfuse : exchange.1.FromFuse) (hroot : ¬ exchange.1.StatsRoot)
    (h : before.mount.Serves L env before.vol.image exchange image) :
    ∃ after, Callback.Returns L env before exchange after ∧ after.vol.image = image := by
  obtain ⟨here, hserve⟩ := h
  rw [serve_here hroot here before.vol.curDirPtr] at hserve
  obtain ⟨fuel, houtcome⟩ := (outcome_iff_serve L env before hfuse _).mpr hserve
  obtain ⟨⟨reply, after⟩, hrun, hanswer⟩ := Option.map_eq_some_iff.mp houtcome
  obtain ⟨rfl, rfl⟩ := Prod.mk.inj hanswer
  exact ⟨after, ⟨fuel, hrun⟩, rfl⟩

/-- Whatever else the callbacks of a run are known to meet. -/
theorem serves_of_returns {Guard : Callback × Reply → Prop}
    (hguard : ∀ exchange, Guard exchange → exchange.1.FromFuse) {start last : Adfimage Image}
    {exchanges : List (Callback × Reply)}
    (hrun : Run (Callback.Returns L env) (fun _ ↦ Guard) start exchanges last) :
    Run (start.mount.Serves L env) (fun _ ↦ Guard) start.vol.image exchanges last.vol.image ∧
      last.mount = start.mount := by
  obtain ⟨image, hserves, rfl, hmount⟩ : ∃ image,
      Run (start.mount.Serves L env) (fun _ ↦ Guard) start.vol.image exchanges image ∧
        last.vol.image = image ∧ last.mount = start.mount := by
    apply hrun.simulate (fun adfimage image ↦
      adfimage.vol.image = image ∧ adfimage.mount = start.mount) _ ⟨rfl, rfl⟩
    intro before image exchange after hrelated hexchange hreturns
    obtain ⟨rfl, hmount⟩ := hrelated
    obtain ⟨hserves, hafter⟩ := hreturns.serves (hguard exchange hexchange)
    rw [hmount] at hserves hafter
    exact ⟨hexchange, _, hserves, rfl, hafter⟩
  exact ⟨hserves, hmount⟩

variable (L env)

/-- Over any sequence of callbacks the replies and the image are those of the server.  Where it is asked
for the size of the root, it counts the entries of some directory, which may be another at every
exchange; all other answers are determined by the image and the paths. -/
theorem runs_serve (start last : Adfimage Image) (exchanges : List (Callback × Reply))
    (hrun : Run (Callback.Returns L env) (fun _ exchange ↦ exchange.1.FromFuse) start exchanges
      last) :
    Run (start.mount.Serves L env) (fun _ exchange ↦ exchange.1.FromFuse) start.vol.image exchanges
      last.vol.image ∧ last.mount = start.mount :=
  serves_of_returns (fun _ hfuse ↦ hfuse) hrun

theorem runs_serve_create :
    Run (RamDisk.mounted.mount.Serves RamDisk.lib default) (fun _ exchange ↦ exchange.1.FromFuse)
      RamDisk.sample [(.create "/Plot/new".toList, .status 0)]
      (RamDisk.create .file RamDisk.sample 882 "new".toList).1 ∧
    (adfimageCreate RamDisk.lib RamDisk.mounted "/Plot/new".toList).2.mount =
      RamDisk.mounted.mount :=
  runs_serve RamDisk.lib default RamDisk.mounted
    (adfimageCreate RamDisk.lib RamDisk.mounted "/Plot/new".toList).2
    [(.create "/Plot/new".toList, .status 0)]
    (.single ⟨by decide, by decide, by decide⟩ ⟨0, by rfl⟩)

/-- Where the root is not asked for its size, the handle can do exactly what the server can: its
working directory, wherever it was at the beginning, does not show. -/
theorem returns_iff_serves (start : Adfimage Image) (exchanges : List (Callback × Reply))
    (image : Image) :
    (∃ last, Run (Callback.Returns L env)
        (fun _ exchange ↦ exchange.1.FromFuse ∧ ¬ exchange.1.StatsRoot) start exchanges last ∧
      last.vol.image = image) ↔
    Run (start.mount.Serves L env)
      (fun _ exchange ↦ exchange.1.FromFuse ∧ ¬ exchange.1.StatsRoot) start.vol.image exchanges
      image := by
  constructor
  · rintro ⟨last, hrun, rfl⟩
    exact (serves_of_returns (fun _ hexchange ↦ hexchange.1) hrun).1
  · intro hrun
    obtain ⟨last, hreturns, hlast, -⟩ : ∃ last, Run (Callback.Returns L env)
        (fun _ exchange ↦ exchange.1.FromFuse ∧ ¬ exchange.1.StatsRoot) start exchanges last ∧
          last.vol.image = image ∧ last.mount = start.mount := by
      apply hrun.simulate (fun image (adfimage : Adfimage Image) ↦
        adfimage.vol.image = image ∧ adfimage.mount = start.mount) _ ⟨rfl, rfl⟩
      intro image adfimage exchange after hrelated hexchange hserves
      obtain ⟨rfl, hmount⟩ := hrelated
      rw [← hmount] at hserves
      obtain ⟨last, hreturns, himage⟩ := hserves.returns hexchange.1 hexchange.2
      exact ⟨hexchange, last, hreturns, himage,
        (hreturns.serves hexchange.1).2.trans hmount⟩
    exact ⟨last, hreturns, hlast⟩

end FuseAdf
