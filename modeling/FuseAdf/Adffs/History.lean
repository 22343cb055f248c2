import FuseAdf.Adfimage.Lookup
import FuseAdf.Adffs.Callbacks
import FuseAdf.Adflib.RamDisk

/-!
# Callbacks on absolute paths do not depend on history

FUSE passes absolute paths only.  Two handles are `Elsewhere` when they differ in nothing but the
working directory, in the string, in the sector or in both, synchronized or not.  From two such
handles a callback with absolute paths gives the same reply and leaves the same image: an absolute
walk forgets where it started, and what the operations restore by name afterwards reaches no
result.
-/

namespace FuseAdf

open Adfimage NameWalk

variable {Image File : Type} (L : Adflib Image File)

/-- The same handle with another working directory. -/
def Adfimage.relocate (adfimage : Adfimage Image) (cwd : CStr) (curDirPtr : Sector) :
    Adfimage Image :=
  { adfimage with vol := { adfimage.vol with curDirPtr := curDirPtr }, cwd := cwd }

/-- Equal but for the working directory. -/
def Elsewhere (a b : Adfimage Image) : Prop := a.relocate [] 0 = b.relocate [] 0

theorem elsewhere_relocate (a : Adfimage Image) (cwd cwd' : CStr) (curDirPtr curDirPtr' : Sector) :
    Elsewhere (a.relocate cwd curDirPtr) (a.relocate cwd' curDirPtr') := rfl

section Elsewhere

variable {a b c : Adfimage Image}

theorem Elsewhere.symm (h : Elsewhere a b) : Elsewhere b a := Eq.symm h

theorem Elsewhere.trans (h : Elsewhere a b) (h' : Elsewhere b c) : Elsewhere a c := Eq.trans h h'

theorem Elsewhere.image (h : Elsewhere a b) : a.vol.image = b.vol.image :=
  congrArg (fun adfimage ↦ adfimage.vol.image) h

theorem Elsewhere.rootBlock (h : Elsewhere a b) : a.vol.rootBlock = b.vol.rootBlock :=
  congrArg (fun adfimage ↦ adfimage.vol.rootBlock) h

theorem Elsewhere.relocate_eq (h : Elsewhere a b) (cwd : CStr) (curDirPtr : Sector) :
    a.relocate cwd curDirPtr = b.relocate cwd curDirPtr :=
  congrArg (fun adfimage ↦ adfimage.relocate cwd curDirPtr) h

theorem Elsewhere.look_eq (h : Elsewhere a b) : look L a = look L b := by
  simp only [look, h.image]

/-- Sending both to the root makes them equal but for the string. -/
theorem Elsewhere.toRoot (h : Elsewhere a b) :
    Elsewhere a.adfToRootDir b.adfToRootDir ∧
      a.adfToRootDir.vol.curDirPtr = b.adfToRootDir.vol.curDirPtr :=
  ⟨h, h.rootBlock⟩

/-- An absolute walk starts from one and the same handle. -/
theorem Elsewhere.chdirStart_eq (h : Elsewhere a b) {path : CStr} (habs : path.head? = some '/') :
    chdirStart a path = chdirStart b path := by
  rw [chdirStart_of_absolute a habs, chdirStart_of_absolute b habs]
  have hroot := h.relocate_eq ['/'] a.vol.rootBlock
  rw [h.rootBlock] at hroot
  have ha : a.relocate ['/'] b.vol.rootBlock = { adfToRootDir a with cwd := ['/'] } := by
    rw [← h.rootBlock]
    rfl
  rw [← ha, hroot]
  rfl

theorem Elsewhere.chdir_eq (h : Elsewhere a b) {path : CStr} (habs : path.head? = some '/') :
    adfimageChdir L a path = adfimageChdir L b path := by
  have hne : path ≠ [] := by rintro rfl; simp at habs
  rw [adfimageChdir_eq L a hne, adfimageChdir_eq L b hne, namedDir, namedDir,
    h.chdirStart_eq habs, h.look_eq L]

theorem Elsewhere.namedDir_eq (h : Elsewhere a b) {path : CStr} (habs : path.head? = some '/') :
    namedDir L a path = namedDir L b path := by
  rw [namedDir, namedDir, h.chdirStart_eq habs, h.look_eq L]

theorem Elsewhere.lastDir_eq (h : Elsewhere a b) {path : CStr} (habs : path.head? = some '/') :
    lastDir L a path = lastDir L b path := by
  rw [lastDir, lastDir, h.chdirStart_eq habs, h.look_eq L]

/-- From one and the same directory a relative walk goes the same way, whatever the strings. -/
theorem Elsewhere.namedDir_eq_of_curDirPtr (h : Elsewhere a b)
    (hcur : a.vol.curDirPtr = b.vol.curDirPtr) (path : CStr) :
    namedDir L a path = namedDir L b path := by
  by_cases habs : path.head? = some '/'
  · exact h.namedDir_eq L habs
  · rw [namedDir, namedDir, chdirStart_of_relative a habs, chdirStart_of_relative b habs, hcur,
      h.look_eq L]

end Elsewhere

/-- Changing the directory changes nothing but the working directory. -/
theorem elsewhere_chdir (adfimage : Adfimage Image) (path : CStr) :
    Elsewhere adfimage (adfimageChdir L adfimage path).2 := by
  rcases eq_or_ne path [] with rfl | h
  · rfl
  · rw [adfimageChdir_eq L adfimage h]
    simp only [chdirStart]
    split_ifs <;> rfl

theorem elsewhere_getdentry (adfimage : Adfimage Image) (path : CStr) :
    Elsewhere adfimage (adfimageGetdentry L adfimage path).2 := by
  rcases eq_or_ne path ['/'] with rfl | h
  · rfl
  · rw [getdentry_eq L adfimage h]
    dsimp only
    split_ifs
    · exact elsewhere_chdir L _ _
    · exact (elsewhere_chdir L _ _).trans (elsewhere_chdir L _ _)

section Results

variable {a b : Adfimage Image} (h : Elsewhere a b) {path : CStr}
  (habs : path.head? = some '/')

include h habs

theorem getdentry_elsewhere :
    (adfimageGetdentry L a path).1 = (adfimageGetdentry L b path).1 := by
  rcases eq_or_ne path ['/'] with rfl | hroot
  · simp only [getdentry_root, adfimageGetRootDentry, h.image, h.rootBlock]
  · rw [getdentry_fst L a hroot, getdentry_fst L b hroot, entryAt, entryAt,
      h.lastDir_eq L (head_dirname habs), h.image]

/-- Up to the saved string, opening a file gives the same. -/
theorem openInParent_elsewhere (mode : AdfFileMode) :
    (∃ after, openInParent L a path mode = .noDir after ∧
      openInParent L b path mode = .noDir after) ∨
    (∃ after, openInParent L a path mode = .noFile after ∧
      openInParent L b path mode = .noFile after) ∨
    (∃ file cwd cwd' after, openInParent L a path mode = .opened file cwd after ∧
      openInParent L b path mode = .opened file cwd' after) := by
  have habs' := head_dirname habs
  rw [openInParent_eq, openInParent_eq, h.chdir_eq L habs', h.namedDir_eq L habs', h.image]
  cases namedDir L b (dirname path) with
  | none => exact Or.inl ⟨_, rfl, rfl⟩
  | some sector =>
    dsimp only
    cases (L.adfFileOpen b.vol.image sector (basename path) mode).2 with
    | none => exact Or.inr (Or.inl ⟨_, rfl, rfl⟩)
    | some file => exact Or.inr (Or.inr ⟨_, _, _, _, rfl, rfl⟩)

theorem fileOpen_elsewhere (mode : AdfFileMode) :
    (adfimageFileOpen L a path mode).1 = (adfimageFileOpen L b path mode).1 ∧
      (adfimageFileOpen L a path mode).2.vol.image =
        (adfimageFileOpen L b path mode).2.vol.image := by
  rcases openInParent_elsewhere L h habs mode with
    ⟨_, ha, hb⟩ | ⟨_, ha, hb⟩ | ⟨_, _, _, _, ha, hb⟩ <;>
  simp [adfimageFileOpen, ha, hb]

theorem read_elsewhere (size offset : BitVec 64) :
    (adfimageRead L a path size offset).1 = (adfimageRead L b path size offset).1 ∧
      (adfimageRead L a path size offset).2.1 = (adfimageRead L b path size offset).2.1 ∧
      (adfimageRead L a path size offset).2.2.vol.image =
        (adfimageRead L b path size offset).2.2.vol.image := by
  rcases openInParent_elsewhere L h habs .read with
    ⟨_, ha, hb⟩ | ⟨_, ha, hb⟩ | ⟨_, _, _, _, ha, hb⟩ <;>
  simp [adfimageRead, ha, hb]

theorem write_elsewhere (buffer : List UInt8) (size offset : BitVec 64) :
    (adfimageWrite L a path buffer size offset).1 =
        (adfimageWrite L b path buffer size offset).1 ∧
      (adfimageWrite L a path buffer size offset).2.vol.image =
        (adfimageWrite L b path buffer size offset).2.vol.image := by
  rcases openInParent_elsewhere L h habs .write with
    ⟨_, ha, hb⟩ | ⟨_, ha, hb⟩ | ⟨_, _, _, _, ha, hb⟩ <;>
  simp [adfimageWrite, ha, hb]

theorem truncate_elsewhere (newSize : BitVec 64) :
    (adffsTruncate L a path newSize).1 = (adffsTruncate L b path newSize).1 ∧
      (adffsTruncate L a path newSize).2.vol.image =
        (adffsTruncate L b path newSize).2.vol.image := by
  obtain ⟨hfile, himage⟩ := fileOpen_elsewhere L h habs .write
  rcases ha : adfimageFileOpen L a path .write with ⟨file, a'⟩
  rcases hb : adfimageFileOpen L b path .write with ⟨file', b'⟩
  rw [ha, hb] at hfile himage
  dsimp only at hfile himage
  subst hfile
  cases file <;> simp [adffsTruncate, adfimageFileTruncate, ha, hb, himage, adfimageFileClose]

theorem open_elsewhere :
    (adffsOpen L a path).1 = (adffsOpen L b path).1 ∧
      (adffsOpen L a path).2.vol.image = (adffsOpen L b path).2.vol.image := by
  obtain ⟨hfile, himage⟩ := fileOpen_elsewhere L h habs .read
  rcases ha : adfimageFileOpen L a path .read with ⟨file, a'⟩
  rcases hb : adfimageFileOpen L b path .read with ⟨file', b'⟩
  rw [ha, hb] at hfile himage
  dsimp only at hfile himage
  subst hfile
  cases file <;> simp [adffsOpen, ha, hb, himage, adfimageFileClose]

theorem readlink_elsewhere (buffer : CStr) (lenMax : ℕ) :
    (adfimageReadlink L a path buffer lenMax).1 = (adfimageReadlink L b path buffer lenMax).1 ∧
      (adfimageReadlink L a path buffer lenMax).2.1 =
        (adfimageReadlink L b path buffer lenMax).2.1 ∧
      (adfimageReadlink L a path buffer lenMax).2.2.vol.image =
        (adfimageReadlink L b path buffer lenMax).2.2.vol.image := by
  simp only [adfimageReadlink, enterParent_eq, h.chdir_eq L (head_dirname habs)]
  rcases adfimageChdir L b (dirname path) with ⟨entered, after⟩
  cases entered <;> simp

theorem setperm_elsewhere (perms : BitVec 32) :
    (adfimageSetperm L a path perms).1 = (adfimageSetperm L b path perms).1 ∧
      (adfimageSetperm L a path perms).2.vol.image =
        (adfimageSetperm L b path perms).2.vol.image := by
  have hdentry := getdentry_elsewhere L h habs
  have ha := getdentry_image L a path
  have hb := getdentry_image L b path
  simp only [adfimageSetperm]
  rcases hga : adfimageGetdentry L a path with ⟨dentry, a'⟩
  rcases hgb : adfimageGetdentry L b path with ⟨dentry', b'⟩
  rw [hga, hgb] at hdentry
  rw [hga] at ha
  rw [hgb] at hb
  dsimp only at hdentry ha hb ⊢
  subst hdentry
  rw [ha, hb, h.image]
  split_ifs
  · simp [ha, hb, h.image]
  · cases L.adfReadEntryBlock b.vol.image dentry.adflibEntry.sector <;>
      simp [ha, hb, h.image]

theorem chmod_elsewhere (mode : BitVec 32) :
    (adffsChmod L a path mode).1 = (adffsChmod L b path mode).1 ∧
      (adffsChmod L a path mode).2.vol.image = (adffsChmod L b path mode).2.vol.image := by
  obtain ⟨hresult, himage⟩ := setperm_elsewhere L h habs (chmodPerms mode)
  simp only [adffsChmod]
  rcases ha : adfimageSetperm L a path (chmodPerms mode) with ⟨result, a'⟩
  rcases hb : adfimageSetperm L b path (chmodPerms mode) with ⟨result', b'⟩
  rw [ha, hb] at hresult himage
  dsimp only at hresult himage
  subst hresult
  cases result <;> exact ⟨rfl, himage⟩

theorem readdir_elsewhere (filler : List CStr → CStr → Bool) :
    adffsReaddir L a path filler = adffsReaddir L b path filler := by
  simp only [adffsReaddir, h.chdir_eq L habs]

theorem getattr_elsewhere (env : Env) (hname : pathstrGetRelative path ≠ []) :
    adffsGetattr L env a path = adffsGetattr L env b path := by
  simp only [adffsGetattr, if_neg hname, h.chdir_eq L (head_dirname habs)]

end Results

/-- Nothing in this family depends on how the path is written or on where the handle is. -/
theorem inParentFromRoot_elsewhere {a b : Adfimage Image} (h : Elsewhere a b) (path : CStr)
    (emptyPath : ℤ) (call : Image → Sector → CStr → Image × RetCode)
    (event : Sector → CStr → AdfCall) (result : RetCode → ℤ) :
    (inParentFromRoot L a path emptyPath call event result).1 =
        (inParentFromRoot L b path emptyPath call event result).1 ∧
      (inParentFromRoot L a path emptyPath call event result).2.vol.image =
        (inParentFromRoot L b path emptyPath call event result).2.vol.image := by
  by_cases hroot : pathstrGetRelative path = []
  · simp [inParentFromRoot_of_root, hroot, h.image]
  · obtain ⟨hroots, hcur⟩ := h.toRoot
    rw [inParentFromRoot_eq L a _ _ _ _ hroot, inParentFromRoot_eq L b _ _ _ _ hroot]
    simp only [hroots.namedDir_eq_of_curDirPtr L hcur]
    cases namedDir L b.adfToRootDir (dirname (pathstrGetRelative path)) with
    | none => simp [h.image]
    | some sector => simp [h.image]

theorem renameConverted_elsewhere {a b : Adfimage Image} (h : Elsewhere a b)
    (srcPath dstPath : Path) (hsrc : srcPath.dirpath.head? = some '/')
    (hdst : dstPath.dirpath.head? = some '/') :
    (renameConverted L a srcPath dstPath).1 = (renameConverted L b srcPath dstPath).1 ∧
      (renameConverted L a srcPath dstPath).2.vol.image =
        (renameConverted L b srcPath dstPath).2.vol.image := by
  have hfirst := getdentry_elsewhere L h hsrc
  have ha := elsewhere_getdentry L a srcPath.dirpath
  have hb := elsewhere_getdentry L b srcPath.dirpath
  simp only [renameConverted]
  rcases hga : adfimageGetdentry L a srcPath.dirpath with ⟨srcParent, a'⟩
  rcases hgb : adfimageGetdentry L b srcPath.dirpath with ⟨srcParent', b'⟩
  rw [hga, hgb] at hfirst
  rw [hga] at ha
  rw [hgb] at hb
  dsimp only at hfirst ha hb ⊢
  subst hfirst
  have h' : Elsewhere a' b' := ha.symm.trans (h.trans hb)
  cases checkParent srcParent with
  | some error => exact ⟨rfl, h'.image⟩
  | none =>
    have hsecond := getdentry_elsewhere L h' hdst
    have ha' := getdentry_image L a' dstPath.dirpath
    have hb' := getdentry_image L b' dstPath.dirpath
    simp only
    rcases hga' : adfimageGetdentry L a' dstPath.dirpath with ⟨dstParent, a''⟩
    rcases hgb' : adfimageGetdentry L b' dstPath.dirpath with ⟨dstParent', b''⟩
    rw [hga', hgb'] at hsecond
    rw [hga'] at ha'
    rw [hgb'] at hb'
    dsimp only at hsecond ha' hb' ⊢
    subst hsecond
    have himage : a''.vol.image = b''.vol.image := by rw [ha', hb', h'.image]
    cases checkParent dstParent with
    | some error => exact ⟨rfl, himage⟩
    | none =>
      dsimp only
      rw [himage]
      split_ifs
      · exact ⟨rfl, himage⟩
      · exact ⟨rfl, himage⟩
      · exact ⟨rfl, rfl⟩
      · exact ⟨rfl, rfl⟩

theorem rename_elsewhere {a b : Adfimage Image} (h : Elsewhere a b) (fuel : ℕ)
    {srcPath dstPath : CStr} (hsrc : srcPath.head? = some '/')
    (hdst : dstPath.head? = some '/') :
    (adfimageFileRename L fuel a srcPath dstPath).map (fun r ↦ (r.1, r.2.vol.image)) =
      (adfimageFileRename L fuel b srcPath dstPath).map (fun r ↦ (r.1, r.2.vol.image)) := by
  rw [fileRename_eq, fileRename_eq]
  cases hs : pathstrFuse2amigados fuel (dirname srcPath) with
  | none => rfl
  | some srcDirpath =>
    cases hd : pathstrFuse2amigados fuel (dirname dstPath) with
    | none => rfl
    | some dstDirpath =>
      have hresult := renameConverted_elsewhere L h
        { pathCreate srcPath with dirpath := srcDirpath }
        { pathCreate dstPath with dirpath := dstDirpath }
        (head_pathstrFuse2amigados hs (head_dirname hsrc))
        (head_pathstrFuse2amigados hd (head_dirname hdst))
      exact congrArg some (Prod.ext hresult.1 hresult.2)

/-! ## The callbacks -/

/-- The paths of a callback start with a slash; for `getattr` a path of slashes only, which counts
the entries of the current directory, is left out. -/
def Callback.Absolute : Callback → Prop
  | .getattr path => path.head? = some '/' ∧ pathstrGetRelative path ≠ []
  | .rename srcPath dstPath => srcPath.head? = some '/' ∧ dstPath.head? = some '/'
  | .readlink path _ _ | .mkdir path | .unlink path | .rmdir path | .chmod path _ | .chown path
  | .truncate path _ | .open path | .read path _ _ | .write path _ _ _ | .statfs path
  | .readdir path _ | .create path | .utimens path => path.head? = some '/'

/-- What a caller and the volume see of a callback: the reply and the image, or that it did not
return within the fuel. -/
def Callback.outcome (env : Env) (fuel : ℕ) (adfimage : Adfimage Image) (callback : Callback) :
    Option (Reply × Image) :=
  (callback.run L env fuel adfimage).map fun result ↦ (result.1, result.2.vol.image)

theorem statfs_elsewhere {a b : Adfimage Image} (h : Elsewhere a b) :
    adffsStatfs L a = adffsStatfs L b := by
  have hstatfs := congrArg (adffsStatfs L) (show a.relocate [] 0 = b.relocate [] 0 from h)
  exact hstatfs

/-- A callback with absolute paths gives the same reply and image, and runs as long, wherever the
working directory is. -/
theorem outcome_elsewhere {a b : Adfimage Image} (h : Elsewhere a b) (env : Env) (fuel : ℕ)
    {callback : Callback} (habs : callback.Absolute) :
    callback.outcome L env fuel a = callback.outcome L env fuel b := by
  cases callback with
  | getattr path =>
    have hresult := getattr_elsewhere L h habs.1 env habs.2
    simp only [Callback.outcome, Callback.run, hresult]
  | readlink path buf len =>
    obtain ⟨hret, hlink, himage⟩ := readlink_elsewhere L h habs buf len
    simp [Callback.outcome, Callback.run, hret, hlink, himage]
  | mkdir path =>
    obtain ⟨hret, himage⟩ := inParentFromRoot_elsewhere L h path eExist L.adfCreateDir .createDir id
    simp [Callback.outcome, Callback.run, adfimageMkdir, hret, himage]
  | unlink path =>
    obtain ⟨hret, himage⟩ :=
      inParentFromRoot_elsewhere L h path ePerm L.adfRemoveEntry .removeEntry id
    simp [Callback.outcome, Callback.run, adfimageUnlink, adfimageRemoveEntry, hret, himage]
  | rmdir path =>
    obtain ⟨hret, himage⟩ :=
      inParentFromRoot_elsewhere L h path ePerm L.adfRemoveEntry .removeEntry id
    simp [Callback.outcome, Callback.run, adfimageRmdir, adfimageRemoveEntry, hret, himage]
  | rename srcPath dstPath =>
    have hresult := rename_elsewhere L h fuel habs.1 habs.2
    have hreply := congrArg
      (Option.map fun result : ℤ × Image ↦ (Reply.status result.1, result.2)) hresult
    simpa [Callback.outcome, Callback.run, Option.map_map, Function.comp_def] using hreply
  | chmod path mode =>
    obtain ⟨hret, himage⟩ := chmod_elsewhere L h habs mode
    simp [Callback.outcome, Callback.run, hret, himage]
  | chown path => simp [Callback.outcome, Callback.run, h.image]
  | truncate path newSize =>
    obtain ⟨hret, himage⟩ := truncate_elsewhere L h habs newSize
    simp [Callback.outcome, Callback.run, hret, himage]
  | «open» path =>
    obtain ⟨hret, himage⟩ := open_elsewhere L h habs
    simp [Callback.outcome, Callback.run, hret, himage]
  | read path size offset =>
    obtain ⟨hret, hbytes, himage⟩ := read_elsewhere L h habs size offset
    simp [Callback.outcome, Callback.run, hret, hbytes, himage]
  | write path buffer size offset =>
    obtain ⟨hret, himage⟩ := write_elsewhere L h habs buffer size offset
    simp [Callback.outcome, Callback.run, hret, himage]
  | statfs path => simp [Callback.outcome, Callback.run, h.image, statfs_elsewhere L h]
  | readdir path filler =>
    have hresult := readdir_elsewhere L h habs filler
    simp only [Callback.outcome, Callback.run, hresult]
  | create path =>
    obtain ⟨hret, himage⟩ := inParentFromRoot_elsewhere L h path eInval L.adfCreateFile .createFile
      fun rc ↦ if rc = adfRcOk then 0 else -1
    simp [Callback.outcome, Callback.run, adfimageCreate, hret, himage]
  | utimens path => simp [Callback.outcome, Callback.run, h.image]

/-- Whatever earlier calls have left as the working directory, in step or not, a callback on
absolute paths does the same: reply, image and, over all amounts of fuel, divergence. -/
theorem callback_independent_of_history (adfimage : Adfimage Image) (cwd₁ cwd₂ : CStr)
    (curDirPtr₁ curDirPtr₂ : Sector) (env : Env) (fuel : ℕ) {callback : Callback}
    (habs : callback.Absolute) :
    callback.outcome L env fuel (adfimage.relocate cwd₁ curDirPtr₁) =
      callback.outcome L env fuel (adfimage.relocate cwd₂ curDirPtr₂) :=
  outcome_elsewhere L (elsewhere_relocate adfimage cwd₁ cwd₂ curDirPtr₁ curDirPtr₂) env fuel habs

theorem callback_independent_of_history_map :
    (Callback.getattr "/Plot/map".toList).outcome RamDisk.lib default 0
        (RamDisk.mounted.relocate "/Plot".toList 882) =
      (Callback.getattr "/Plot/map".toList).outcome RamDisk.lib default 0
        (RamDisk.mounted.relocate "/Attic".toList 880) :=
  callback_independent_of_history RamDisk.lib RamDisk.mounted _ _ _ _ default 0
    ⟨by decide, by decide⟩

end FuseAdf
