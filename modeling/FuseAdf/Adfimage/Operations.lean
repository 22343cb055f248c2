import FuseAdf.Adfimage.Basic

/-!
# The operations on files and directories

The second half of adfimage.c.  Results are the C return values; a negative number is an `errno`
or `-1`.  `adfimageFileRename` contains the two loops that rewrite a path in place and takes their
fuel; `none` means that one of them did not finish within it.
-/

namespace FuseAdf

open Adfimage

variable {Image File : Type} (L : Adflib Image File)

def ePerm : ℤ := 1
def eNoEnt : ℤ := 2
def eAgain : ℤ := 11
def eExist : ℤ := 17
def eInval : ℤ := 22

theorem neg_eNoEnt_ne_zero : -eNoEnt ≠ 0 := by decide

theorem eInval_ne_zero : eInval ≠ 0 := by decide

theorem neg_eAgain_ne_zero : -eAgain ≠ 0 := by decide

/-- What the common beginning of the file operations leaves: the directory could not be entered,
the file could not be opened in it, or the file and the saved working directory. -/
inductive ParentOpen (Image File : Type)
  | noDir (adfimage : Adfimage Image)
  | noFile (adfimage : Adfimage Image)
  | opened (file : File) (cwd : Option CStr) (adfimage : Adfimage Image)

/-- Enter the directory part and open the file there.  Neither failure goes back. -/
def openInParent (adfimage : Adfimage Image) (pathstr : CStr) (mode : AdfFileMode) :
    ParentOpen Image File :=
  let path := pathCreate pathstr
  match enterParent L adfimage path with
  | (_, false, adfimage) => .noDir adfimage
  | (cwd, true, adfimage) =>
      let (image, file) :=
        L.adfFileOpen adfimage.vol.image adfimage.vol.curDirPtr path.entryname mode
      let adfimage := (adfimage.record
        (.fileOpen adfimage.vol.curDirPtr path.entryname mode)).setImage image
      match file with
      | none => .noFile adfimage
      | some file => .opened file cwd adfimage

/-- `adfimage_file_open`. -/
def adfimageFileOpen (adfimage : Adfimage Image) (pathstr : CStr) (mode : AdfFileMode) :
    Option File × Adfimage Image :=
  match openInParent L adfimage pathstr mode with
  | .noDir adfimage => (none, adfimage)
  | .noFile adfimage => (none, adfimage)
  | .opened file cwd adfimage => (some file, leaveParent L adfimage cwd)

/-- `adfimage_file_close`; ADFlib ignores a NULL file. -/
def adfimageFileClose (adfimage : Adfimage Image) (file : Option File) : Adfimage Image :=
  match file with
  | none => adfimage
  | some file => adfimage.setImage (L.adfFileClose adfimage.vol.image file)

/-- `adfimage_read`: the return value and the bytes put into the buffer. -/
def adfimageRead (adfimage : Adfimage Image) (pathstr : CStr) (size offset : BitVec 64) :
    ℤ × List UInt8 × Adfimage Image :=
  match openInParent L adfimage pathstr .read with
  | .noDir adfimage => (-eNoEnt, [], adfimage)
  | .noFile adfimage => (-eNoEnt, [], adfimage)
  | .opened file cwd adfimage =>
      let (image, file, rc) := L.adfFileSeek adfimage.vol.image file (offset.setWidth 32)
      let (image, file, bytesRead, buffer) :=
        if rc = adfRcOk then L.adfFileRead image file (size.setWidth 32) else (image, file, 0, [])
      let adfimage := adfimage.setImage (L.adfFileClose image file)
      (bytesRead.toInt, buffer, leaveParent L adfimage cwd)

/-- `adfimage_write`. -/
def adfimageWrite (adfimage : Adfimage Image) (pathstr : CStr) (buffer : List UInt8)
    (size offset : BitVec 64) : ℤ × Adfimage Image :=
  match openInParent L adfimage pathstr .write with
  | .noDir adfimage => (-eNoEnt, adfimage)
  | .noFile adfimage => (-eNoEnt, adfimage)
  | .opened file cwd adfimage =>
      let (image, file, rc) := L.adfFileSeek adfimage.vol.image file (offset.setWidth 32)
      let (image, file, bytesWritten) :=
        if rc = adfRcOk then L.adfFileWrite image file (size.setWidth 32) buffer
        else (image, file, 0)
      let adfimage := adfimage.setImage (L.adfFileClose image file)
      (bytesWritten.toInt, leaveParent L adfimage cwd)

/-- `adfimage_file_truncate`; `newSize` is a `size_t`. -/
def adfimageFileTruncate (adfimage : Adfimage Image) (path : CStr) (newSize : BitVec 64) :
    ℤ × Adfimage Image :=
  match adfimageFileOpen L adfimage path .write with
  | (none, adfimage) => (-eNoEnt, adfimage)
  | (some file, adfimage) =>
      let (image, file, rc) := L.adfFileTruncate adfimage.vol.image file (newSize.setWidth 32)
      let adfimage := adfimageFileClose L (adfimage.setImage image) (some file)
      (if rc = adfRcOk then 0 else -1, adfimage)

/-- `strncpy ( buffer, source, n )` into a buffer whose first `n` bytes are overwritten. -/
def strncpy (buffer source : CStr) (n : ℕ) : CStr :=
  (source ++ List.replicate n nul).take n ++ buffer.drop n

/-- `memset ( buffer, 0, n )`. -/
def memsetZero (buffer : CStr) (n : ℕ) : CStr := List.replicate n nul ++ buffer.drop n

/-- The part of `adfimage_readlink` between entering the directory and the clean-up: the status
and the buffer. -/
def readlinkEntry (adfimage : Adfimage Image) (entryname : CStr) (buffer : CStr) (lenMax : ℕ) :
    ℤ × CStr × Adfimage Image :=
  match L.adfReadEntryBlock adfimage.vol.image adfimage.vol.curDirPtr with
  | none => (-1, buffer, adfimage)
  | some parent =>
      let found := L.adfNameToEntryBlk adfimage.vol.image parent.hashTable entryname
      let adfimage := adfimage.record (.nameToEntryBlk adfimage.vol.curDirPtr entryname)
      match found with
      | none => (-2, buffer, adfimage)
      | some entry =>
          let buffer := memsetZero buffer lenMax
          if entry.secType = .lsoft then (0, strncpy buffer entry.realName lenMax, adfimage)
          else
            match L.adfReadEntryBlock adfimage.vol.image entry.realEntry with
            | none => (-3, buffer, adfimage)
            | some entry => (0, strncpy buffer entry.name lenMax, adfimage)

/-- `adfimage_readlink`. -/
def adfimageReadlink (adfimage : Adfimage Image) (pathstr : CStr) (buffer : CStr) (lenMax : ℕ) :
    ℤ × CStr × Adfimage Image :=
  let path := pathCreate pathstr
  match enterParent L adfimage path with
  | (_, false, adfimage) => (-1, buffer, adfimage)
  | (cwd, true, adfimage) =>
      let (status, buffer, adfimage) := readlinkEntry L adfimage path.entryname buffer lenMax
      (status, buffer, leaveParent L adfimage cwd)

/-- The body shared by `adfimage_mkdir`, `adfimage_remove_entry` and `adfimage_create`: reject
the root, go to the root directory (the string `cwd` stays), walk to the parent, do the library
call there and go to the root directory again, but only on this last way out. -/
def inParentFromRoot (adfimage : Adfimage Image) (pathstr : CStr) (emptyPath : ℤ)
    (call : Image → Sector → CStr → Image × RetCode) (event : Sector → CStr → AdfCall)
    (result : RetCode → ℤ) : ℤ × Adfimage Image :=
  let pathRelative := pathstrGetRelative pathstr
  if pathRelative = [] then (-emptyPath, adfimage)
  else
    match adfimageChdir L adfimage.adfToRootDir (dirname pathRelative) with
    | (false, adfimage) => (-eNoEnt, adfimage)
    | (true, adfimage) =>
        let name := basename pathRelative
        let (image, status) := call adfimage.vol.image adfimage.vol.curDirPtr name
        let adfimage := (adfimage.record (event adfimage.vol.curDirPtr name)).setImage image
        (result status, adfimage.adfToRootDir)

/-- `adfimage_mkdir`; the mode is not used. -/
def adfimageMkdir (adfimage : Adfimage Image) (newdirpath : CStr) : ℤ × Adfimage Image :=
  inParentFromRoot L adfimage newdirpath eExist L.adfCreateDir .createDir id

/-- `adfimage_remove_entry`. -/
def adfimageRemoveEntry (adfimage : Adfimage Image) (rmpath : CStr) : ℤ × Adfimage Image :=
  inParentFromRoot L adfimage rmpath ePerm L.adfRemoveEntry .removeEntry id

/-- `adfimage_rmdir`. -/
def adfimageRmdir (adfimage : Adfimage Image) (rmdirpath : CStr) : ℤ × Adfimage Image :=
  adfimageRemoveEntry L adfimage rmdirpath

/-- `adfimage_unlink`. -/
def adfimageUnlink (adfimage : Adfimage Image) (unlinkpath : CStr) : ℤ × Adfimage Image :=
  adfimageRemoveEntry L adfimage unlinkpath

/-- `adfimage_create`; the mode is not used. -/
def adfimageCreate (adfimage : Adfimage Image) (newfilepath : CStr) : ℤ × Adfimage Image :=
  inParentFromRoot L adfimage newfilepath eInval L.adfCreateFile .createFile
    fun rc ↦ if rc = adfRcOk then 0 else -1

/-- The sector of a parent directory, of its target for a hard link. -/
def parentSector (dentry : AdfimageDentry) : Sector :=
  if dentry.type = .directory then dentry.adflibEntry.sector else dentry.adflibEntry.real

/-- The check of one parent entry: the error to return, if any. -/
def checkParent (dentry : AdfimageDentry) : Option ℤ :=
  if dentry.type = .none then some (-eNoEnt)
  else if dentry.type ≠ .directory ∧ dentry.type ≠ .linkdir then some (-eInval)
  else none

/-- `adfimage_file_rename` after both directory parts have been converted. -/
def renameConverted (adfimage : Adfimage Image) (srcPath dstPath : Path) : ℤ × Adfimage Image :=
  let (srcParentEntry, adfimage) := adfimageGetdentry L adfimage srcPath.dirpath
  match checkParent srcParentEntry with
  | some error => (error, adfimage)
  | none =>
      let (dstParentEntry, adfimage) := adfimageGetdentry L adfimage dstPath.dirpath
      match checkParent dstParentEntry with
      | some error => (error, adfimage)
      | none =>
          let srcParentSector := parentSector srcParentEntry
          let dstParentSector := parentSector dstParentEntry
          if srcParentSector < 2 then (-1, adfimage)
          else if dstParentSector < 2 then (-1, adfimage)
          else
            let (image, rc) := L.adfRenameEntry adfimage.vol.image
              srcParentSector srcPath.entryname dstParentSector dstPath.entryname
            let adfimage := (adfimage.record (.renameEntry srcParentSector srcPath.entryname
              dstParentSector dstPath.entryname)).setImage image
            (if rc = adfRcOk then 0 else -1, adfimage)

/-- `adfimage_file_rename`. -/
def adfimageFileRename (fuel : ℕ) (adfimage : Adfimage Image) (srcPathstr dstPathstr : CStr) :
    Option (ℤ × Adfimage Image) :=
  let srcPath := pathCreate srcPathstr
  let dstPath := pathCreate dstPathstr
  if !(pathIsEntrynameNonEmpty srcPath && pathIsEntrynameNonEmpty dstPath) then
    some (-eInval, adfimage)
  else do
    let srcDirpath ← pathstrFuse2amigados fuel srcPath.dirpath
    let dstDirpath ← pathstrFuse2amigados fuel dstPath.dirpath
    some (renameConverted L adfimage { srcPath with dirpath := srcDirpath }
      { dstPath with dirpath := dstDirpath })

end FuseAdf
