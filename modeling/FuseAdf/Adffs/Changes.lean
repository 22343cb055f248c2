import FuseAdf.Adffs.Lookup
import FuseAdf.Adfimage.Resolution
import FuseAdf.Adfimage.Restoring

/-!
# What a callback may do to the image

Every path, every handle and every way out of a callback come down to a few kinds of change: an attempt
to open a file, some work with one file from opening to closing, or one call that writes an entry block
or changes a directory.  What holds of all callbacks of a run is proved from this list.
-/

namespace FuseAdf

open Adfimage

variable {Image File : Type}

/-- Work with an open file, by the mode it is opened in. -/
inductive FileWork : AdfFileMode → Type
  | look : FileWork .read
  | read (size offset : BitVec 64) : FileWork .read
  | write (buffer : List UInt8) (size offset : BitVec 64) : FileWork .write
  | truncate (newSize : BitVec 64) : FileWork .write

variable (L : Adflib Image File)

/-- The image after the work; the last call closes the file. -/
def FileWork.run {mode : AdfFileMode} : FileWork mode → Image → File → Image
  | .look, image, file => L.adfFileClose image file
  | .read size offset, image, file => imageAfterRead L size offset image file
  | .write buffer size offset, image, file => imageAfterWrite L buffer size offset image file
  | .truncate newSize, image, file =>
      let (image, file, _) := L.adfFileTruncate image file (newSize.setWidth 32)
      L.adfFileClose image file

/-- The second image is what some callback can make of the first; only if it is one that writes, a
file is opened for writing, an entry block written or a directory changed. -/
inductive Change (writes : Bool) (image : Image) : Image → Prop
  | none : Change writes image image
  | refused (dir : Sector) (name : CStr) (mode : AdfFileMode) (hmode : mode = .write → writes = true)
      (h : (L.adfFileOpen image dir name mode).2 = none) :
      Change writes image (L.adfFileOpen image dir name mode).1
  | worked (dir : Sector) (name : CStr) {mode : AdfFileMode} (hmode : mode = .write → writes = true)
      (work : FileWork mode) (file : File) (h : (L.adfFileOpen image dir name mode).2 = some file) :
      Change writes image (work.run L (L.adfFileOpen image dir name mode).1 file)
  | access (sector : Sector) (block : AdfEntryBlock) (access : BitVec 32) (hwrites : writes = true)
      (h : L.adfReadEntryBlock image sector = some block) :
      Change writes image (L.adfWriteEntryBlock image sector { block with access := access }).1
  | createDir (parent : Sector) (name : CStr) (hwrites : writes = true) :
      Change writes image (L.adfCreateDir image parent name).1
  | createFile (parent : Sector) (name : CStr) (hwrites : writes = true) :
      Change writes image (L.adfCreateFile image parent name).1
  | removeEntry (parent : Sector) (name : CStr) (hwrites : writes = true) :
      Change writes image (L.adfRemoveEntry image parent name).1
  | renameEntry (oldParent : Sector) (oldName : CStr) (newParent : Sector) (newName : CStr)
      (hwrites : writes = true) :
      Change writes image (L.adfRenameEntry image oldParent oldName newParent newName).1

/-- The callbacks that are there to change something. -/
def Callback.writes : Callback → Bool
  | .mkdir _ | .unlink _ | .rmdir _ | .rename _ _ | .chmod _ _ | .truncate _ _ | .write _ _ _ _
  | .create _ => true
  | _ => false

section Files

variable {L} {writes : Bool} {adfimage : Adfimage Image} {path : CStr} {mode : AdfFileMode}

/-- However the common beginning of the file operations ends. -/
theorem change_of_opening (path : CStr) (hmode : mode = .write → writes = true) (work : FileWork mode)
    {image : Image}
    (h : image = match openInParent L adfimage path mode with
      | .noDir after => after.vol.image
      | .noFile after => after.vol.image
      | .opened file _ after => work.run L after.vol.image file) :
    Change L writes adfimage.vol.image image := by
  rw [openInParent_eq] at h
  cases hdir : namedDir L adfimage (dirname path) with
  | none =>
    rw [h, hdir]
    dsimp only
    rw [chdir_image]
    exact .none
  | some dir =>
    have hcur : (adfimageChdir L adfimage (dirname path)).2.vol.curDirPtr = dir := by
      rw [chdir_curDirPtr L adfimage (dirname_ne_nil path), lastDir_of_namedDir L hdir]
    have himage : (afterOpen L (adfimageChdir L adfimage (dirname path)).2 (basename path)
        mode).vol.image = (L.adfFileOpen adfimage.vol.image dir (basename path) mode).1 := by
      rw [afterOpen, setImage_image, chdir_image, hcur]
    rw [hdir] at h
    dsimp only at h
    cases hopen : (L.adfFileOpen adfimage.vol.image dir (basename path) mode).2 with
    | none =>
      rw [h, hopen]
      dsimp only
      rw [himage]
      exact .refused dir _ mode hmode hopen
    | some file =>
      rw [h, hopen]
      dsimp only
      rw [himage]
      exact .worked dir _ hmode work file hopen

theorem change_read (size offset : BitVec 64) :
    Change L writes adfimage.vol.image (adfimageRead L adfimage path size offset).2.2.vol.image := by
  apply change_of_opening path (by simp) (.read size offset)
  rw [read_snd, afterFile]
  cases openInParent L adfimage path .read with
  | noDir after => rfl
  | noFile after => rfl
  | opened file cwd after => rw [leaveParent_image]; rfl

theorem change_write (buffer : List UInt8) (size offset : BitVec 64) (hwrites : writes = true) :
    Change L writes adfimage.vol.image
      (adfimageWrite L adfimage path buffer size offset).2.vol.image := by
  apply change_of_opening path (fun _ ↦ hwrites) (.write buffer size offset)
  rw [write_snd, afterFile]
  cases openInParent L adfimage path .write with
  | noDir after => rfl
  | noFile after => rfl
  | opened file cwd after => rw [leaveParent_image]; rfl

theorem change_open : Change L writes adfimage.vol.image (adffsOpen L adfimage path).2.vol.image := by
  apply change_of_opening path (by simp) .look
  rw [adffsOpen, adfimageFileOpen]
  cases openInParent L adfimage path .read with
  | noDir after => rfl
  | noFile after => rfl
  | opened file cwd after =>
    dsimp only [adfimageFileClose]
    rw [setImage_image, leaveParent_image]
    rfl

theorem change_truncate (newSize : BitVec 64) (hwrites : writes = true) :
    Change L writes adfimage.vol.image (adffsTruncate L adfimage path newSize).2.vol.image := by
  apply change_of_opening path (fun _ ↦ hwrites) (.truncate newSize)
  rw [adffsTruncate, adfimageFileTruncate, adfimageFileOpen]
  cases openInParent L adfimage path .write with
  | noDir after => rfl
  | noFile after => rfl
  | opened file cwd after =>
    dsimp only [adfimageFileClose]
    rw [leaveParent_image]
    rfl

/-- The size of a file is read from its open header. -/
theorem change_statFile (name : CStr) (statbuf : Stat) :
    Change L writes adfimage.vol.image (statFile L adfimage name statbuf).2.vol.image := by
  rw [statFile]
  dsimp only
  cases hopen : (L.adfFileOpen adfimage.vol.image adfimage.vol.curDirPtr name .read).2 with
  | none => exact .refused adfimage.vol.curDirPtr name .read (by simp) hopen
  | some file => exact .worked adfimage.vol.curDirPtr name (by simp) .look file hopen

end Files

/-! ## The callbacks -/

section Callbacks

variable {L} {writes : Bool} (adfimage : Adfimage Image) (path : CStr)

theorem change_statEntry (name : CStr) (dentry : AdfimageDentry) :
    Change L writes adfimage.vol.image (statEntry L adfimage path name dentry).2.vol.image := by
  unfold statEntry
  cases dentry.type with
  | file | linkfile => exact change_statFile name { Stat.zero with
      stMode := fileMode (adfimageGetperm L dentry)
      stNlink := 1 }
  | directory | linkdir =>
    rw [adfimageCountDirEntries]
    dsimp only
    rw [chdir_image, chdir_image]
    exact .none
  | softlink | unknown | none => exact .none

theorem change_getattr (env : Env) :
    Change L writes adfimage.vol.image (adffsGetattr L env adfimage path).2.2.vol.image := by
  by_cases hroot : pathstrGetRelative path = []
  · rw [getattr_root L env adfimage hroot]
    exact .none
  · rw [getattr_eq L env adfimage hroot]
    dsimp only
    cases namedDir L adfimage (dirname path) with
    | none =>
      dsimp only
      rw [chdir_image]
      exact .none
    | some dir =>
      have hfound : (adfimageGetdentry L (adfimageChdir L adfimage (dirname path)).2
          (basename path)).2.vol.image = adfimage.vol.image := by
        rw [getdentry_image, chdir_image]
      dsimp only
      generalize adfimageGetdentry L (adfimageChdir L adfimage (dirname path)).2 (basename path) =
        found at hfound ⊢
      rcases found with ⟨dentry, here⟩
      have hstat : Change L writes here.vol.image
          (statEntry L here path (basename path) dentry).2.vol.image :=
        change_statEntry here path (basename path) dentry
      rw [hfound] at hstat
      rw [statFound]
      generalize statEntry L here path (basename path) dentry = result at hstat ⊢
      rcases result with ⟨stat, after⟩
      cases stat <;> exact hstat

theorem readlink_image (buffer : CStr) (len : ℕ) :
    (adfimageReadlink L adfimage path buffer len).2.2.vol.image = adfimage.vol.image := by
  rw [readlink_eq]
  cases namedDir L adfimage (dirname path) with
  | none => exact chdir_image L adfimage _
  | some dir =>
    dsimp only
    rw [leaveParent_image, readlinkEntry_vol, chdir_image]

theorem readdir_image (filler : List CStr → CStr → Bool) :
    (adffsReaddir L adfimage path filler).2.2.vol.image = adfimage.vol.image := by
  have hwalk := chdir_image L adfimage path
  rw [adffsReaddir]
  generalize adfimageChdir L adfimage path = walk at hwalk ⊢
  rcases walk with ⟨entered, after⟩
  cases entered with
  | false => exact hwalk
  | true =>
    dsimp only
    generalize readdirLoop filler _ _ = filled
    rcases filled with ⟨done, names⟩
    cases done <;> exact hwalk

theorem change_chmod (mode : BitVec 32) (hwrites : writes = true) :
    Change L writes adfimage.vol.image (adffsChmod L adfimage path mode).2.vol.image := by
  have hsetperm : Change L writes adfimage.vol.image
      (adfimageSetperm L adfimage path (chmodPerms mode)).2.vol.image := by
    rw [setperm_eq]
    dsimp only
    split_ifs
    · cases hread : L.adfReadEntryBlock adfimage.vol.image
          (dentryAt L adfimage path).adflibEntry.sector with
      | none =>
        dsimp only
        rw [getdentry_image]
        exact .none
      | some block => exact .access _ block _ hwrites hread
    · rw [getdentry_image]
      exact .none
  rw [adffsChmod]
  generalize adfimageSetperm L adfimage path (chmodPerms mode) = result at hsetperm ⊢
  rcases result with ⟨done, after⟩
  cases done <;> exact hsetperm

theorem change_inParentFromRoot (emptyPath : ℤ) (call : Image → Sector → CStr → Image × RetCode)
    (event : Sector → CStr → AdfCall) (result : RetCode → ℤ)
    (hcall : ∀ dir name, Change L writes adfimage.vol.image (call adfimage.vol.image dir name).1) :
    Change L writes adfimage.vol.image
      (inParentFromRoot L adfimage path emptyPath call event result).2.vol.image := by
  by_cases hroot : pathstrGetRelative path = []
  · rw [inParentFromRoot_of_root L adfimage _ _ _ _ hroot]
    exact .none
  · rw [inParentFromRoot_eq L adfimage _ _ _ _ hroot]
    dsimp only
    cases namedDir L adfimage.adfToRootDir (dirname (pathstrGetRelative path)) with
    | none =>
      dsimp only
      rw [chdir_image]
      exact .none
    | some dir => exact hcall dir _

theorem change_renameConverted (srcPath dstPath : Path) (hwrites : writes = true) :
    Change L writes adfimage.vol.image (renameConverted L adfimage srcPath dstPath).2.vol.image := by
  by_cases h : ParentFound L adfimage srcPath.dirpath ∧
      ParentFound L (adfimageGetdentry L adfimage srcPath.dirpath).2 dstPath.dirpath
  · rw [renameConverted_of_found srcPath dstPath h.1 h.2]
    exact .renameEntry _ _ _ _ hwrites
  · obtain ⟨-, -, himage⟩ := renameConverted_of_not_found srcPath dstPath h
    rw [himage]
    exact .none

end Callbacks

variable {L} {env : Env}

theorem change_of_some {image : Image} {writes : Bool} {result after : Adfimage Image}
    {reply reply' : Reply} (hchange : Change L writes image result.vol.image)
    (h : some (reply', result) = some (reply, after)) : Change L writes image after.vol.image := by
  obtain ⟨-, rfl⟩ := Prod.mk.inj (Option.some.inj h)
  exact hchange

/-- What one callback does to the image. -/
theorem change_of_run {adfimage after : Adfimage Image} {callback : Callback} {fuel : ℕ}
    {reply : Reply} (h : callback.run L env fuel adfimage = some (reply, after)) :
    Change L callback.writes adfimage.vol.image after.vol.image := by
  cases callback with
  | getattr path => exact change_of_some (change_getattr adfimage path env) h
  | readlink path buf len =>
    exact change_of_some (readlink_image (L := L) adfimage path buf len ▸ .none) h
  | mkdir path =>
    exact change_of_some (change_inParentFromRoot adfimage path _ _ _ _
      fun dir name ↦ .createDir dir name rfl) h
  | unlink path =>
    exact change_of_some (change_inParentFromRoot adfimage path _ _ _ _
      fun dir name ↦ .removeEntry dir name rfl) h
  | rmdir path =>
    exact change_of_some (change_inParentFromRoot adfimage path _ _ _ _
      fun dir name ↦ .removeEntry dir name rfl) h
  | rename srcPath dstPath =>
    obtain ⟨⟨ret, last⟩, hrename, hresult⟩ := Option.map_eq_some_iff.mp h
    obtain ⟨-, rfl⟩ := Prod.mk.inj hresult
    obtain ⟨srcDirpath, dstDirpath, -, -, hconverted⟩ := fileRename_of_converts hrename
    rw [← show (renameConverted L adfimage _ _).2 = last from congrArg Prod.snd hconverted]
    exact change_renameConverted adfimage _ _ rfl
  | chmod path mode => exact change_of_some (change_chmod adfimage path mode rfl) h
  | truncate path newSize => exact change_of_some (change_truncate newSize rfl) h
  | «open» path => exact change_of_some change_open h
  | read path size offset => exact change_of_some (change_read size offset) h
  | write path buffer size offset => exact change_of_some (change_write buffer size offset rfl) h
  | readdir path filler =>
    exact change_of_some (readdir_image (L := L) adfimage path filler ▸ .none) h
  | create path =>
    have hcreate : Change L true adfimage.vol.image (adfimageCreate L adfimage path).2.vol.image :=
      change_inParentFromRoot adfimage path _ _ _ _ fun dir name ↦ .createFile dir name rfl
    exact change_of_some hcreate h
  | chown path => exact change_of_some .none h
  | statfs path => exact change_of_some .none h
  | utimens path => exact change_of_some .none h

end FuseAdf
