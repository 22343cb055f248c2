import FuseAdf.Adffs.Callbacks
import FuseAdf.Adfimage.Lookup
import FuseAdf.Path.FusePaths

/-!
# The volume as a server of names

What the callbacks come to for their caller, said without a handle.  A request names its object by the
components of its path, and what is answered depends on the image and on what was fixed when the volume
was mounted.  No directory is entered and none is gone back to: a directory is found by a walk from the
root block, by `dirAt` where the code gives up at a missing name and by `dirNear` where it goes on from
the last directory that it got to.

One thing is left to a parameter.  For the root directory itself the entries of whatever directory is
the current one are counted; `here` is that directory.
-/

namespace FuseAdf

open NameWalk

/-- What no callback changes of the handle. -/
structure Mount where
  rootBlock : Sector
  readOnly : Bool
  datablockSize : ℕ
  firstBlock : ℤ
  lastBlock : ℤ
  stBlksize : ℕ
deriving DecidableEq, Repr

variable {Image File : Type} (L : Adflib Image File) (env : Env)

namespace Mount

variable (mount : Mount) (image : Image) (names : List CStr)

/-- The directory at the end of the names. -/
def dirAt : Option Sector := walk (L.adfChangeDir image) mount.rootBlock names

/-- The directory at the end of the names, or the last one on the way to it. -/
def dirNear : Sector := reach (L.adfChangeDir image) mount.rootBlock names

/-- The entry made up for the root directory. -/
def rootDentry : AdfimageDentry :=
  match (L.adfReadRootBlock image mount.rootBlock).bind fun rootBlock ↦
      L.adfEntBlock2Entry rootBlock.asEntryBlock with
  | none => .missing
  | some entry =>
      if entry.type = .root then
        { type := .directory
          adflibEntry := { entry with sector := mount.rootBlock, real := 0, parent := 0 } }
      else { type := .none, adflibEntry := entry }

/-- The entry of the last name, also if not all directories before it are there. -/
def dentryNear : AdfimageDentry :=
  if names = [] then mount.rootDentry L image
  else dentryOf (adflibListFind (entryName names)
    (L.adfGetDirEnt image (mount.dirNear L image names.dropLast)))

/-- What is done with a file: it is opened under its last name, in the directory of the others. -/
def withFile {α : Type} (mode : AdfFileMode) (failure : α) (use : Image → File → α × Image) :
    α × Image :=
  match mount.dirAt L image names.dropLast with
  | none => (failure, image)
  | some dir =>
      match L.adfFileOpen image dir (entryName names) mode with
      | (image, none) => (failure, image)
      | (image, some file) => use image file

/-- The members of `struct stat` that are set for every kind of entry. -/
def finished (entry : AdfEntry) (statbuf : Stat) : Stat :=
  let time := localtimeToTimeT env entry.year entry.month entry.days entry.hour entry.mins
    entry.secs
  { statbuf with
    stUid := env.geteuid
    stGid := env.getegid
    stAtime := time
    stMtime := time
    stCtime := time
    stBlksize := mount.stBlksize }

/-- The members that depend on the kind of an entry of the directory `dir`. -/
def statIn (dir : Sector) (dentry : AdfimageDentry) : Option Stat × Image :=
  match dentry.type with
  | .file | .linkfile =>
      let statbuf := { Stat.zero with
        stMode := fileMode (adfimageGetperm L dentry)
        stNlink := 1 }
      match L.adfFileOpen image dir (entryName names) .read with
      | (image, none) => (some statbuf, image)
      | (image, some file) =>
          (some { statbuf with
            stSize := L.byteSize file
            stBlocks := (L.byteSize file : ℤ) / 512 + 1 }, L.adfFileClose image file)
  | .directory | .linkdir =>
      (some { Stat.zero with
        stMode := directoryMode (adfimageGetperm L dentry)
        stSize := adflistCountEntries (L.adfGetDirEnt image (mount.dirNear L image names))
        stNlink := 1 }, image)
  | .softlink => (some { Stat.zero with stMode := softlinkMode, stNlink := 1 }, image)
  | .unknown => (some .zero, image)
  | .none => (none, image)

def getattr (here : Sector) : (ℤ × Stat) × Image :=
  if names = [] then
    ((0, mount.finished env (mount.rootDentry L image).adflibEntry { Stat.zero with
      stMode := rootMode
      stSize := adflistCountEntries (L.adfGetDirEnt image here)
      stNlink := 1 }), image)
  else
    match mount.dirAt L image names.dropLast with
    | none => ((-eNoEnt, .zero), image)
    | some dir =>
        let dentry := dentryOf (adflibListFind (entryName names) (L.adfGetDirEnt image dir))
        match mount.statIn L image names dir dentry with
        | (none, image) => ((-eNoEnt, .zero), image)
        | (some statbuf, image) => ((0, mount.finished env dentry.adflibEntry statbuf), image)

def readdir (filler : List CStr → CStr → Bool) : ℤ × List CStr :=
  match mount.dirAt L image names with
  | none => (-eNoEnt, [])
  | some dir =>
      let filled := readdirLoop filler [".".toList, "..".toList] (L.adfGetDirEnt image dir)
      (if filled.1 then 0 else -eAgain, filled.2)

def statfs : Statvfs where
  rdOnly := mount.readOnly
  fFrsize := mount.datablockSize
  fBlocks := BitVec.ofInt 32 (mount.lastBlock - mount.firstBlock - 2)
  fBfree := L.adfCountFreeBlocks image

def «open» : ℤ × Image :=
  mount.withFile L image names .read (-1) fun image file ↦ (0, L.adfFileClose image file)

def read (size offset : BitVec 64) : (ℤ × List UInt8) × Image :=
  mount.withFile L image names .read (-eNoEnt, []) fun image file ↦
    let (image, file, rc) := L.adfFileSeek image file (offset.setWidth 32)
    let (image, file, bytesRead, buffer) :=
      if rc = adfRcOk then L.adfFileRead image file (size.setWidth 32) else (image, file, 0, [])
    ((bytesRead.toInt, buffer), L.adfFileClose image file)

def write (buffer : List UInt8) (size offset : BitVec 64) : ℤ × Image :=
  mount.withFile L image names .write (-eNoEnt) fun image file ↦
    let (image, file, rc) := L.adfFileSeek image file (offset.setWidth 32)
    let (image, file, bytesWritten) :=
      if rc = adfRcOk then L.adfFileWrite image file (size.setWidth 32) buffer
      else (image, file, 0)
    (bytesWritten.toInt, L.adfFileClose image file)

def truncate (newSize : BitVec 64) : ℤ × Image :=
  mount.withFile L image names .write (-1) fun image file ↦
    let (image, file, rc) := L.adfFileTruncate image file (newSize.setWidth 32)
    (if rc = adfRcOk then 0 else -1, L.adfFileClose image file)

def readlink (buffer : CStr) (len : ℕ) : ℤ × CStr :=
  match mount.dirAt L image names.dropLast with
  | none => (-1, buffer)
  | some dir =>
      match L.adfReadEntryBlock image dir with
      | none => (-1, buffer)
      | some parent =>
          match L.adfNameToEntryBlk image parent.hashTable (entryName names) with
          | none => (-2, buffer)
          | some entry =>
              let zeroed := memsetZero buffer len
              if entry.secType = .lsoft then (0, strncpy zeroed entry.realName len)
              else
                match L.adfReadEntryBlock image entry.realEntry with
                | none => (-3, zeroed)
                | some entry => (0, strncpy zeroed entry.name len)

/-- An entry is created or removed in its directory. -/
def changeEntry (call : Image → Sector → CStr → Image × RetCode) (result : RetCode → ℤ) :
    ℤ × Image :=
  match mount.dirAt L image names.dropLast with
  | none => (-eNoEnt, image)
  | some dir =>
      let (image, rc) := call image dir (entryName names)
      (result rc, image)

def chmod (mode : BitVec 32) : ℤ × Image :=
  let dentry := mount.dentryNear L image names
  if !adfimageDentryValid dentry then (eInval, image)
  else
    match L.adfReadEntryBlock image dentry.adflibEntry.sector with
    | none => (eInval, image)
    | some block =>
        let (image, rc) := L.adfWriteEntryBlock image dentry.adflibEntry.sector
          { block with access := setpermAccess L (chmodPerms mode) block.access }
        (if rc = adfRcOk then 0 else eInval, image)

/-- A renaming looks up the entries of both directories. -/
def rename (srcNames dstNames : List CStr) : ℤ × Image :=
  let srcParent := mount.dentryNear L image srcNames.dropLast
  let dstParent := mount.dentryNear L image dstNames.dropLast
  match (checkParent srcParent).or (checkParent dstParent) with
  | some error => (error, image)
  | none =>
      if parentSector srcParent < 2 ∨ parentSector dstParent < 2 then (-1, image)
      else
        let (image, rc) := L.adfRenameEntry image (parentSector srcParent) (entryName srcNames)
          (parentSector dstParent) (entryName dstNames)
        (if rc = adfRcOk then 0 else -1, image)

end Mount

/-- The answer to a callback and the image after it, or `none` where none is given: for a renaming
that has to do with directories whose path the conversion does not get through. -/
def Callback.serve (mount : Mount) (here : Sector) (image : Image) :
    Callback → Option (Reply × Image)
  | getattr path =>
      let ((ret, stat), image) := mount.getattr L env image (pathNames path) here
      some ({ Reply.status ret with stat := stat }, image)
  | readlink path buf len =>
      let (ret, link) := mount.readlink L image (pathNames path) buf len
      some ({ Reply.status ret with link := link }, image)
  | mkdir dirpath =>
      let (ret, image) := mount.changeEntry L image (pathNames dirpath) L.adfCreateDir id
      some (.status ret, image)
  | unlink filepath =>
      let (ret, image) := mount.changeEntry L image (pathNames filepath) L.adfRemoveEntry id
      some (.status ret, image)
  | rmdir dirpath =>
      let (ret, image) := mount.changeEntry L image (pathNames dirpath) L.adfRemoveEntry id
      some (.status ret, image)
  | create filepath =>
      let (ret, image) := mount.changeEntry L image (pathNames filepath) L.adfCreateFile
        fun rc ↦ if rc = adfRcOk then 0 else -1
      some (.status ret, image)
  | rename srcPath dstPath =>
      if AreConvertible (pathNames srcPath).dropLast ∧ AreConvertible (pathNames dstPath).dropLast then
        let (ret, image) := mount.rename L image (pathNames srcPath) (pathNames dstPath)
        some (.status ret, image)
      else none
  | chmod path mode =>
      let (ret, image) := mount.chmod L image (pathNames path) mode
      some (.status ret, image)
  | truncate path newSize =>
      let (ret, image) := mount.truncate L image (pathNames path) newSize
      some (.status ret, image)
  | «open» filepath =>
      let (ret, image) := mount.open L image (pathNames filepath)
      some (.status ret, image)
  | read path size offset =>
      let ((ret, bytes), image) := mount.read L image (pathNames path) size offset
      some ({ Reply.status ret with bytes := bytes }, image)
  | write path buffer size offset =>
      let (ret, image) := mount.write L image (pathNames path) buffer size offset
      some (.status ret, image)
  | readdir path filler =>
      let (ret, names) := mount.readdir L image (pathNames path) filler
      some ({ Reply.status ret with names := names }, image)
  | statfs _ => some ({ Reply.status 0 with statvfs := some (mount.statfs L image) }, image)
  | chown _ | utimens _ => some (.status 0, image)

end FuseAdf
