import FuseAdf.Adflib.Interface
import FuseAdf.Path.Pathstr

/-!
# The image handle: current directory, entries and permissions

This is the first half of adfimage.c.  The handle keeps the working directory twice, as the
string `cwd` and as `vol.curDirPtr` inside ADFlib; `adfToRootDir` moves the second only.  The
string is unbounded here.  `calls` records, in order, the library calls by which an operation names
something on the volume; no function reads it.
-/

namespace FuseAdf

variable {Image File : Type}

/-- `adfimage_t`.  Of `fstat` only the block size is used, of `dev` and `filename` nothing. -/
structure Adfimage (Image : Type) where
  vol : AdfVolume Image
  cwd : CStr
  stBlksize : ℕ
  calls : List AdfCall
deriving Repr

/-- `ADFVOLUME_DENTRY_*`. -/
inductive DentryType
  | none
  | file
  | directory
  | linkfile
  | linkdir
  | softlink
  | unknown
deriving DecidableEq, Repr

/-- `adfimage_dentry_t`. -/
structure AdfimageDentry where
  type : DentryType
  adflibEntry : AdfEntry
deriving DecidableEq, Repr

/-- The initializer `{ .type = ADFVOLUME_DENTRY_NONE }`. -/
def AdfimageDentry.missing : AdfimageDentry where
  type := .none
  adflibEntry := .zero

namespace Adfimage

/-- `adfToRootDir`, a function of ADFlib on the volume. -/
def adfToRootDir (adfimage : Adfimage Image) : Adfimage Image :=
  { adfimage with vol := { adfimage.vol with curDirPtr := adfimage.vol.rootBlock } }

/-- The library returned a new image. -/
def setImage (adfimage : Adfimage Image) (image : Image) : Adfimage Image :=
  { adfimage with vol := { adfimage.vol with image := image } }

/-- A library call was made. -/
def record (adfimage : Adfimage Image) (call : AdfCall) : Adfimage Image :=
  { adfimage with calls := adfimage.calls ++ [call] }

section Fields

variable (adfimage : Adfimage Image) (image : Image) (call : AdfCall)

@[simp] theorem adfToRootDir_image :
    adfimage.adfToRootDir.vol.image = adfimage.vol.image := rfl
@[simp] theorem adfToRootDir_rootBlock :
    adfimage.adfToRootDir.vol.rootBlock = adfimage.vol.rootBlock := rfl
@[simp] theorem adfToRootDir_curDirPtr :
    adfimage.adfToRootDir.vol.curDirPtr = adfimage.vol.rootBlock := rfl
@[simp] theorem adfToRootDir_cwd : adfimage.adfToRootDir.cwd = adfimage.cwd := rfl
@[simp] theorem adfToRootDir_calls : adfimage.adfToRootDir.calls = adfimage.calls := rfl

@[simp] theorem setImage_image : (adfimage.setImage image).vol.image = image := rfl
@[simp] theorem setImage_rootBlock :
    (adfimage.setImage image).vol.rootBlock = adfimage.vol.rootBlock := rfl
@[simp] theorem setImage_curDirPtr :
    (adfimage.setImage image).vol.curDirPtr = adfimage.vol.curDirPtr := rfl
@[simp] theorem setImage_cwd : (adfimage.setImage image).cwd = adfimage.cwd := rfl
@[simp] theorem setImage_calls : (adfimage.setImage image).calls = adfimage.calls := rfl

@[simp] theorem record_vol : (adfimage.record call).vol = adfimage.vol := rfl
@[simp] theorem record_cwd : (adfimage.record call).cwd = adfimage.cwd := rfl
@[simp] theorem record_calls : (adfimage.record call).calls = adfimage.calls ++ [call] := rfl

end Fields

end Adfimage

open Adfimage

variable (L : Adflib Image File)

/-- `adflist_count_entries`. -/
def adflistCountEntries : List AdfEntry → ℤ
  | [] => 0
  | _ :: cells => adflistCountEntries cells + 1

/-- `adfimage_count_cwd_entries`. -/
def adfimageCountCwdEntries (adfimage : Adfimage Image) : ℤ :=
  adflistCountEntries (L.adfGetDirEnt adfimage.vol.image adfimage.vol.curDirPtr)

/-- `append_dir`. -/
def appendDir (adfimage : Adfimage Image) (dir : CStr) : Adfimage Image :=
  let cwd := if adfimage.cwd ≠ ['/'] then adfimage.cwd ++ ['/'] else adfimage.cwd
  { adfimage with cwd := cwd ++ dir }

/-- One step of the walk: `adfChangeDir`, and on success `append_dir`. -/
def enterDir (adfimage : Adfimage Image) (dir : CStr) : Bool × Adfimage Image :=
  match L.adfChangeDir adfimage.vol.image adfimage.vol.curDirPtr dir with
  | none => (false, adfimage)
  | some sector =>
      (true, appendDir { adfimage with vol := { adfimage.vol with curDirPtr := sector } } dir)

/-- The loop of `adfimage_chdir` and the step after it.  `dir` is the text that `strchr` has
already passed over in its search for the next slash, the last argument what it still has to
search. -/
def chdirLoop (adfimage : Adfimage Image) (dir : CStr) : CStr → Bool × Adfimage Image
  | [] => enterDir L adfimage dir
  | c :: rest =>
      if c = '/' then
        match enterDir L adfimage dir with
        | (false, adfimage) => (false, adfimage)
        | (true, adfimage) => chdirLoop adfimage [] rest
      else chdirLoop adfimage (dir ++ [c]) rest

/-- `adfimage_chdir`. -/
def adfimageChdir (adfimage : Adfimage Image) (path : CStr) : Bool × Adfimage Image :=
  if path.length < 1 then (false, adfimage)
  else
    let adfimage := if path.head? = some '/' then { adfToRootDir adfimage with cwd := ['/'] }
      else adfimage
    let path := if path.head? = some '/' then path.dropWhile isSlash else path
    if path = [] ∨ path = ['.'] then (true, adfimage)
    else chdirLoop L adfimage [] path

/-- `adfimage_count_dir_entries`, which does not look at the result of either `adfimage_chdir`. -/
def adfimageCountDirEntries (adfimage : Adfimage Image) (dirpath : CStr) : ℤ × Adfimage Image :=
  let cwd := adfimage.cwd
  let adfimage := (adfimageChdir L adfimage dirpath).2
  let nentries := adfimageCountCwdEntries L adfimage
  (nentries, (adfimageChdir L adfimage cwd).2)

/-- `adfimage_get_root_dentry`. -/
def adfimageGetRootDentry (adfimage : Adfimage Image) : AdfimageDentry :=
  match L.adfReadRootBlock adfimage.vol.image adfimage.vol.rootBlock with
  | none => .missing
  | some rootBlock =>
      match L.adfEntBlock2Entry rootBlock.asEntryBlock with
      | none => .missing
      | some entry =>
          if entry.type = .root then
            { type := .directory
              adflibEntry :=
                { entry with sector := adfimage.vol.rootBlock, real := 0, parent := 0 } }
          else { type := .none, adflibEntry := entry }

/-- `adflib_list_find`: the first entry with exactly this name. -/
def adflibListFind (entryName : CStr) : List AdfEntry → Option AdfEntry
  | [] => none
  | dentry :: rest => if dentry.name = entryName then some dentry else adflibListFind entryName rest

/-- The chain of comparisons by which `adfimage_getdentry` sets the type of what it found. -/
def dentryType (type : AdfSecType) : DentryType :=
  if type = .file then .file
  else if type = .root ∨ type = .dir then .directory
  else if type = .lfile then .linkfile
  else if type = .ldir then .linkdir
  else if type = .lsoft then .softlink
  else .unknown

/-- The directory change that many operations start with: save the working directory and enter
the directory part of the path, if there is one. -/
def enterParent (adfimage : Adfimage Image) (path : Path) :
    Option CStr × Bool × Adfimage Image :=
  if path.dirpath.length > 0 then
    (some adfimage.cwd, adfimageChdir L adfimage path.dirpath)
  else (none, true, adfimage)

/-- Go back to the saved working directory, if one was saved. -/
def leaveParent (adfimage : Adfimage Image) (cwd : Option CStr) : Adfimage Image :=
  match cwd with
  | some cwd => (adfimageChdir L adfimage cwd).2
  | none => adfimage

/-- `adfimage_getdentry`.  Whether the directory part could be entered is not looked at, and an
empty listing returns without going back. -/
def adfimageGetdentry (adfimage : Adfimage Image) (pathname : CStr) :
    AdfimageDentry × Adfimage Image :=
  if pathname = ['/'] then (adfimageGetRootDentry L adfimage, adfimage)
  else
    let path := pathCreate pathname
    let (cwd, _, adfimage) := enterParent L adfimage path
    let dentries := L.adfGetDirEnt adfimage.vol.image adfimage.vol.curDirPtr
    if dentries = [] then (.missing, adfimage)
    else
      let adfDentry := match adflibListFind path.entryname dentries with
        | some dentry => { type := dentryType dentry.type, adflibEntry := dentry }
        | none => .missing
      (adfDentry, leaveParent L adfimage cwd)

/-- `adfimage_dentry_valid`. -/
def adfimageDentryValid (dentry : AdfimageDentry) : Bool :=
  dentry.type != .none && dentry.type != .unknown

def adfPermRead : BitVec 32 := 1
def adfPermWrite : BitVec 32 := 2
def adfPermExecute : BitVec 32 := 4

/-- `adfimage_getperm`: a set access bit denies. -/
def adfimageGetperm (dentry : AdfimageDentry) : BitVec 32 :=
  (if L.adfAccHasR dentry.adflibEntry.access then 0 else adfPermRead) |||
  (if L.adfAccHasW dentry.adflibEntry.access then 0 else adfPermWrite) |||
  (if L.adfAccHasE dentry.adflibEntry.access then 0 else adfPermExecute)

/-- The operator `!` of C on an integer. -/
def logicalNot (x : BitVec 32) : BitVec 32 := if x = 0 then 1 else 0

/-- One of the three updates of the access word: `access &= !mask` or `access |= mask`. -/
def updateAccess (perms perm mask access : BitVec 32) : BitVec 32 :=
  if perms &&& perm ≠ 0 then access &&& logicalNot mask else access ||| mask

/-- The access word that `adfimage_setperm` writes back. -/
def setpermAccess (perms access : BitVec 32) : BitVec 32 :=
  updateAccess perms adfPermExecute L.accMaskE
    (updateAccess perms adfPermWrite L.accMaskW
      (updateAccess perms adfPermRead L.accMaskR access))

/-- `adfimage_setperm`. -/
def adfimageSetperm (adfimage : Adfimage Image) (path : CStr) (perms : BitVec 32) :
    Bool × Adfimage Image :=
  let (dentry, adfimage) := adfimageGetdentry L adfimage path
  if !adfimageDentryValid dentry then (false, adfimage)
  else
    let sector := dentry.adflibEntry.sector
    match L.adfReadEntryBlock adfimage.vol.image sector with
    | none => (false, adfimage)
    | some entryBlock =>
        let block := { entryBlock with access := setpermAccess L perms entryBlock.access }
        let (image, rc) := L.adfWriteEntryBlock adfimage.vol.image sector block
        (rc == adfRcOk, (adfimage.record (.writeEntryBlock sector block)).setImage image)

end FuseAdf
