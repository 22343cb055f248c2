import FuseAdf.Adfimage.Chdir
import FuseAdf.Adfimage.Operations

/-!
# One equation for each operation that looks up a path

`adfimageGetdentry`, the operations that open a file and the operations that create or remove an
entry all enter the directory part of their path first.  Each gets one equation in terms of
`namedDir` and `lastDir`, so that the proofs about them need not unfold them again.
-/

namespace FuseAdf

open Adfimage NameWalk

variable {Image File : Type} (L : Adflib Image File)

@[simp] theorem pathCreate_dirpath (path : CStr) : (pathCreate path).dirpath = dirname path := rfl

@[simp] theorem pathCreate_entryname (path : CStr) :
    (pathCreate path).entryname = basename path := rfl

/-- The directory part is never empty, so the working directory is always saved. -/
theorem enterParent_eq (adfimage : Adfimage Image) (path : CStr) :
    enterParent L adfimage (pathCreate path) =
      (some adfimage.cwd, adfimageChdir L adfimage (dirname path)) := by
  have h : (pathCreate path).dirpath.length > 0 :=
    List.length_pos_iff.mpr (dirname_ne_nil path)
  rw [enterParent, if_pos h]
  rfl

@[simp] theorem leaveParent_image (adfimage : Adfimage Image) (cwd : Option CStr) :
    (leaveParent L adfimage cwd).vol.image = adfimage.vol.image := by
  cases cwd <;> simp [leaveParent]

@[simp] theorem leaveParent_calls (adfimage : Adfimage Image) (cwd : Option CStr) :
    (leaveParent L adfimage cwd).calls = adfimage.calls := by
  cases cwd <;> simp [leaveParent]

/-- The entry with the last component's name in the last directory that the walk along the
directory part gets to. -/
def entryAt (adfimage : Adfimage Image) (path : CStr) : Option AdfEntry :=
  adflibListFind (basename path)
    (L.adfGetDirEnt adfimage.vol.image (lastDir L adfimage (dirname path)))

/-- The result of `adfimageGetdentry` for an entry of a listing. -/
def dentryOf : Option AdfEntry → AdfimageDentry
  | some entry => { type := dentryType entry.type, adflibEntry := entry }
  | none => .missing

theorem adflibListFind_eq_find (name : CStr) (entries : List AdfEntry) :
    adflibListFind name entries = entries.find? (fun entry ↦ entry.name == name) := by
  induction entries with
  | nil => rfl
  | cons entry rest ih =>
    by_cases h : entry.name = name <;> simp [adflibListFind, h, ih]

theorem dentryType_ne_none (type : AdfSecType) : dentryType type ≠ .none := by
  unfold dentryType
  split_ifs <;> decide

theorem dentryOf_type_eq_none (entry : Option AdfEntry) :
    (dentryOf entry).type = .none ↔ entry = none := by
  cases entry with
  | none => simp [dentryOf, AdfimageDentry.missing]
  | some entry => simp [dentryOf, dentryType_ne_none]

theorem getdentry_root (adfimage : Adfimage Image) :
    adfimageGetdentry L adfimage ['/'] = (adfimageGetRootDentry L adfimage, adfimage) := rfl

/-- The working directory is restored by name, unless the listing is empty. -/
theorem getdentry_eq (adfimage : Adfimage Image) {path : CStr} (h : path ≠ ['/']) :
    adfimageGetdentry L adfimage path =
      (dentryOf (entryAt L adfimage path),
        if L.adfGetDirEnt adfimage.vol.image (lastDir L adfimage (dirname path)) = [] then
          (adfimageChdir L adfimage (dirname path)).2
        else
          (adfimageChdir L (adfimageChdir L adfimage (dirname path)).2 adfimage.cwd).2) := by
  rw [adfimageGetdentry, if_neg h]
  simp only [enterParent_eq, chdir_image, chdir_curDirPtr L adfimage (dirname_ne_nil path),
    pathCreate_entryname, entryAt]
  split_ifs with hempty
  · rw [hempty]
    rfl
  · cases adflibListFind (basename path)
      (L.adfGetDirEnt adfimage.vol.image (lastDir L adfimage (dirname path))) <;> rfl

theorem getdentry_fst (adfimage : Adfimage Image) {path : CStr} (h : path ≠ ['/']) :
    (adfimageGetdentry L adfimage path).1 = dentryOf (entryAt L adfimage path) := by
  rw [getdentry_eq L adfimage h]

/-- A bare name is looked up in the current directory. -/
theorem getdentry_name (adfimage : Adfimage Image) {name : CStr} (hne : name ≠ [])
    (hslash : '/' ∉ name) :
    (adfimageGetdentry L adfimage name).1 = dentryOf (adflibListFind name
      (L.adfGetDirEnt adfimage.vol.image adfimage.vol.curDirPtr)) := by
  have hroot : name ≠ ['/'] := by
    intro h
    exact hslash (by simp [h])
  rw [getdentry_fst L adfimage hroot, entryAt, dirname_name hne hslash, basename_name hne hslash]
  rfl

@[simp] theorem getdentry_image (adfimage : Adfimage Image) (path : CStr) :
    (adfimageGetdentry L adfimage path).2.vol.image = adfimage.vol.image := by
  rcases eq_or_ne path ['/'] with rfl | h
  · rfl
  · rw [getdentry_eq L adfimage h]
    dsimp only
    split_ifs <;> simp

@[simp] theorem getdentry_calls (adfimage : Adfimage Image) (path : CStr) :
    (adfimageGetdentry L adfimage path).2.calls = adfimage.calls := by
  rcases eq_or_ne path ['/'] with rfl | h
  · rfl
  · rw [getdentry_eq L adfimage h]
    dsimp only
    split_ifs <;> simp

@[simp] theorem getdentry_rootBlock (adfimage : Adfimage Image) (path : CStr) :
    (adfimageGetdentry L adfimage path).2.vol.rootBlock = adfimage.vol.rootBlock := by
  rcases eq_or_ne path ['/'] with rfl | h
  · rfl
  · rw [getdentry_eq L adfimage h]
    dsimp only
    split_ifs <;> simp

/-- The handle after the library has been asked to open `name` in the current directory. -/
def afterOpen (adfimage : Adfimage Image) (name : CStr) (mode : AdfFileMode) : Adfimage Image :=
  (adfimage.record (.fileOpen adfimage.vol.curDirPtr name mode)).setImage
    (L.adfFileOpen adfimage.vol.image adfimage.vol.curDirPtr name mode).1

theorem openInParent_eq (adfimage : Adfimage Image) (path : CStr) (mode : AdfFileMode) :
    openInParent L adfimage path mode =
      match namedDir L adfimage (dirname path) with
      | none => .noDir (adfimageChdir L adfimage (dirname path)).2
      | some sector =>
          match (L.adfFileOpen adfimage.vol.image sector (basename path) mode).2 with
          | none => .noFile (afterOpen L (adfimageChdir L adfimage (dirname path)).2
              (basename path) mode)
          | some file => .opened file (some adfimage.cwd)
              (afterOpen L (adfimageChdir L adfimage (dirname path)).2 (basename path) mode) := by
  have hcur := chdir_curDirPtr L adfimage (dirname_ne_nil path)
  rw [openInParent]
  simp only [enterParent_eq, pathCreate_entryname]
  rw [chdir_eq_pair L adfimage (dirname_ne_nil path)]
  cases hdir : namedDir L adfimage (dirname path) with
  | none => rfl
  | some sector =>
    rw [lastDir_of_namedDir L hdir] at hcur
    dsimp only [Option.isSome_some]
    cases hopen : (L.adfFileOpen adfimage.vol.image sector (basename path) mode).2 with
    | none => simp only [afterOpen, chdir_image, hcur, hopen]
    | some file => simp only [afterOpen, chdir_image, hcur, hopen]

/-- The image after `adfimage_read` has closed its file. -/
def imageAfterRead (size offset : BitVec 64) (image : Image) (file : File) : Image :=
  let (image, file, rc) := L.adfFileSeek image file (offset.setWidth 32)
  let (image, file, _, _) :=
    if rc = adfRcOk then L.adfFileRead image file (size.setWidth 32) else (image, file, 0, [])
  L.adfFileClose image file

/-- The image after `adfimage_write` has closed its file. -/
def imageAfterWrite (buffer : List UInt8) (size offset : BitVec 64) (image : Image) (file : File) :
    Image :=
  let (image, file, rc) := L.adfFileSeek image file (offset.setWidth 32)
  let (image, file, _) :=
    if rc = adfRcOk then L.adfFileWrite image file (size.setWidth 32) buffer else (image, file, 0)
  L.adfFileClose image file

/-- The handle after an operation on a file.  If the file can be opened, `after` is what becomes of
the image, and the operation goes back to where it came from. -/
def afterFile (adfimage : Adfimage Image) (path : CStr) (mode : AdfFileMode)
    (after : Image → File → Image) : Adfimage Image :=
  match openInParent L adfimage path mode with
  | .noDir walked => walked
  | .noFile walked => walked
  | .opened file cwd opened => leaveParent L (opened.setImage (after opened.vol.image file)) cwd

theorem fileOpen_snd (adfimage : Adfimage Image) (path : CStr) (mode : AdfFileMode) :
    (adfimageFileOpen L adfimage path mode).2 =
      afterFile L adfimage path mode fun image _ ↦ image := by
  unfold adfimageFileOpen afterFile
  cases openInParent L adfimage path mode <;> rfl

theorem read_snd (adfimage : Adfimage Image) (path : CStr) (size offset : BitVec 64) :
    (adfimageRead L adfimage path size offset).2.2 =
      afterFile L adfimage path .read (imageAfterRead L size offset) := by
  unfold adfimageRead afterFile
  cases openInParent L adfimage path .read <;> rfl

theorem write_snd (adfimage : Adfimage Image) (path : CStr) (buffer : List UInt8)
    (size offset : BitVec 64) :
    (adfimageWrite L adfimage path buffer size offset).2 =
      afterFile L adfimage path .write (imageAfterWrite L buffer size offset) := by
  unfold adfimageWrite afterFile
  cases openInParent L adfimage path .write <;> rfl

theorem readlink_eq (adfimage : Adfimage Image) (path buffer : CStr) (lenMax : ℕ) :
    adfimageReadlink L adfimage path buffer lenMax =
      match namedDir L adfimage (dirname path) with
      | none => (-1, buffer, (adfimageChdir L adfimage (dirname path)).2)
      | some _ =>
          let result := readlinkEntry L (adfimageChdir L adfimage (dirname path)).2
            (basename path) buffer lenMax
          (result.1, result.2.1, leaveParent L result.2.2 (some adfimage.cwd)) := by
  rw [adfimageReadlink]
  simp only [enterParent_eq, pathCreate_entryname]
  rw [chdir_eq_pair L adfimage (dirname_ne_nil path)]
  cases namedDir L adfimage (dirname path) with
  | none => rfl
  | some sector => rfl

/-- The root is refused; otherwise the walk to the parent starts at the root directory but keeps
the string `cwd`. -/
theorem inParentFromRoot_of_root (adfimage : Adfimage Image) {path : CStr} (emptyPath : ℤ)
    (call : Image → Sector → CStr → Image × RetCode) (event : Sector → CStr → AdfCall)
    (result : RetCode → ℤ) (h : pathstrGetRelative path = []) :
    inParentFromRoot L adfimage path emptyPath call event result = (-emptyPath, adfimage) := by
  rw [inParentFromRoot, if_pos h]

theorem inParentFromRoot_eq (adfimage : Adfimage Image) {path : CStr} (emptyPath : ℤ)
    (call : Image → Sector → CStr → Image × RetCode) (event : Sector → CStr → AdfCall)
    (result : RetCode → ℤ) (h : pathstrGetRelative path ≠ []) :
    inParentFromRoot L adfimage path emptyPath call event result =
      let rel := pathstrGetRelative path
      let walked := (adfimageChdir L adfimage.adfToRootDir (dirname rel)).2
      match namedDir L adfimage.adfToRootDir (dirname rel) with
      | none => (-eNoEnt, walked)
      | some sector =>
          (result (call adfimage.vol.image sector (basename rel)).2,
            ((walked.record (event sector (basename rel))).setImage
              (call adfimage.vol.image sector (basename rel)).1).adfToRootDir) := by
  have hne := dirname_ne_nil (pathstrGetRelative path)
  have hcur := chdir_curDirPtr L adfimage.adfToRootDir hne
  have himage := chdir_image L adfimage.adfToRootDir (dirname (pathstrGetRelative path))
  rw [inParentFromRoot, if_neg h]
  dsimp only
  rw [chdir_eq_pair L adfimage.adfToRootDir hne]
  cases hdir : namedDir L adfimage.adfToRootDir (dirname (pathstrGetRelative path)) with
  | none => rfl
  | some sector =>
    rw [lastDir_of_namedDir L hdir] at hcur
    dsimp only [Option.isSome_some]
    rw [hcur, himage]
    rfl

/-- The check of the entry names looks at the directory parts, which are never empty. -/
theorem fileRename_eq (fuel : ℕ) (adfimage : Adfimage Image) (srcPath dstPath : CStr) :
    adfimageFileRename L fuel adfimage srcPath dstPath =
      (pathstrFuse2amigados fuel (dirname srcPath)).bind fun srcDirpath ↦
        (pathstrFuse2amigados fuel (dirname dstPath)).bind fun dstDirpath ↦
          some (renameConverted L adfimage { pathCreate srcPath with dirpath := srcDirpath }
            { pathCreate dstPath with dirpath := dstDirpath }) := by
  have hnames : (pathIsEntrynameNonEmpty (pathCreate srcPath) &&
      pathIsEntrynameNonEmpty (pathCreate dstPath)) = true := by
    simp [pathIsEntrynameNonEmpty, dirname_ne_nil]
  simp only [adfimageFileRename, hnames]
  rfl

end FuseAdf
