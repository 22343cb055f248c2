import FuseAdf.Adfimage.Operations

/-!
# The FUSE callbacks

adffs.c on top of the image handle.  What the process environment decides (the effective user and
group and the conversion of a local time) is a parameter.  Debug output is left out.
-/

namespace FuseAdf

open Adfimage

variable {Image File : Type} (L : Adflib Image File)

def sIfDir : BitVec 32 := 0o040000
def sIfReg : BitVec 32 := 0o100000
def sIfLnk : BitVec 32 := 0o120000
def sIRUsr : BitVec 32 := 0o400
def sIWUsr : BitVec 32 := 0o200
def sIXUsr : BitVec 32 := 0o100
def sIRGrp : BitVec 32 := 0o040
def sIXGrp : BitVec 32 := 0o010
def sIROth : BitVec 32 := 0o004
def sIXOth : BitVec 32 := 0o001

/-- The members of `struct stat` that are set; the others stay zero. -/
structure Stat where
  stMode : BitVec 32
  stSize : ℤ
  stBlocks : ℤ
  stNlink : ℕ
  stUid : ℕ
  stGid : ℕ
  stAtime : ℤ
  stMtime : ℤ
  stCtime : ℤ
  stBlksize : ℕ
deriving DecidableEq, Repr

/-- `memset ( statbuf, 0, sizeof ( *statbuf ) )`. -/
def Stat.zero : Stat where
  stMode := 0
  stSize := 0
  stBlocks := 0
  stNlink := 0
  stUid := 0
  stGid := 0
  stAtime := 0
  stMtime := 0
  stCtime := 0
  stBlksize := 0

/-- The members of `struct tm` that `localtime_to_time_t` sets. -/
structure Tm where
  tmYear : ℤ
  tmMon : ℤ
  tmMday : ℤ
  tmHour : ℤ
  tmMin : ℤ
  tmSec : ℤ
  tmIsdst : ℤ
deriving DecidableEq, Repr

/-- What the callbacks ask the C library. -/
structure Env where
  geteuid : ℕ
  getegid : ℕ
  mktime : Tm → ℤ
deriving Inhabited

variable (env : Env)

/-- `localtime_to_time_t`. -/
def localtimeToTimeT (year month day hour min sec : ℤ) : ℤ :=
  env.mktime
    { tmYear := year - 1900
      tmMon := month - 1
      tmMday := day
      tmHour := hour
      tmMin := min
      tmSec := sec
      tmIsdst := -1 }

/-- What `adffs_getattr` sets last, for every kind of entry. -/
def finishStat (adfimage : Adfimage Image) (entry : AdfEntry) (statbuf : Stat) : Stat :=
  let time := localtimeToTimeT env entry.year entry.month entry.days entry.hour entry.mins
    entry.secs
  { statbuf with
    stUid := env.geteuid
    stGid := env.getegid
    stAtime := time
    stMtime := time
    stCtime := time
    stBlksize := adfimage.stBlksize }

/-- The mode bits of a regular file. -/
def fileMode (perms : BitVec 32) : BitVec 32 :=
  sIfReg |||
  (if perms &&& adfPermRead ≠ 0 then sIRUsr ||| sIRGrp ||| sIROth else 0) |||
  (if perms &&& adfPermWrite ≠ 0 then sIWUsr else 0) |||
  (if perms &&& adfPermExecute ≠ 0 then sIXUsr ||| sIXGrp ||| sIXOth else 0)

/-- The mode bits of a directory; entering it is always allowed. -/
def directoryMode (perms : BitVec 32) : BitVec 32 :=
  sIfDir |||
  (if perms &&& adfPermRead ≠ 0 then sIRUsr ||| sIRGrp ||| sIROth else 0) |||
  (if perms &&& adfPermWrite ≠ 0 then sIWUsr else 0) |||
  (sIXUsr ||| sIXGrp ||| sIXOth)

def rootMode : BitVec 32 :=
  sIfDir ||| sIRUsr ||| sIXUsr ||| sIWUsr ||| sIRGrp ||| sIXGrp ||| sIROth ||| sIXOth

def softlinkMode : BitVec 32 :=
  sIfLnk ||| sIRUsr ||| sIXUsr ||| sIRGrp ||| sIXGrp ||| sIROth ||| sIXOth

/-- The size fields of a regular file; the file is opened for them and closed again. -/
def statFile (adfimage : Adfimage Image) (direntryName : CStr) (statbuf : Stat) :
    Stat × Adfimage Image :=
  let (image, afile) :=
    L.adfFileOpen adfimage.vol.image adfimage.vol.curDirPtr direntryName .read
  let adfimage := (adfimage.record
    (.fileOpen adfimage.vol.curDirPtr direntryName .read)).setImage image
  let statbuf := match afile with
    | some afile =>
        { statbuf with
          stSize := L.byteSize afile
          stBlocks := (L.byteSize afile : ℤ) / 512 + 1 }
    | none => statbuf
  (statbuf, adfimageFileClose L adfimage afile)

/-- `adffs_getattr` once the directory of the entry has been entered: the fields that depend on
the kind of entry, or `none` where the callback returns `-ENOENT`. -/
def statEntry (adfimage : Adfimage Image) (path direntryName : CStr) (dentry : AdfimageDentry) :
    Option Stat × Adfimage Image :=
  let statbuf := Stat.zero
  match dentry.type with
  | .file | .linkfile =>
      let perms := adfimageGetperm L dentry
      let (statbuf, adfimage) := statFile L adfimage direntryName
        { statbuf with stMode := fileMode perms, stNlink := 1 }
      (some statbuf, adfimage)
  | .directory | .linkdir =>
      let perms := adfimageGetperm L dentry
      let (size, adfimage) := adfimageCountDirEntries L adfimage path
      (some { statbuf with stMode := directoryMode perms, stSize := size, stNlink := 1 }, adfimage)
  | .softlink => (some { statbuf with stMode := softlinkMode, stNlink := 1 }, adfimage)
  | .unknown => (some statbuf, adfimage)
  | .none => (none, adfimage)

/-- `adffs_getattr`: the return value and what `statbuf` holds. -/
def adffsGetattr (adfimage : Adfimage Image) (path : CStr) : ℤ × Stat × Adfimage Image :=
  if pathstrGetRelative path = [] then
    -- the main directory: the entries of whatever directory is the current one are counted
    let dentry := adfimageGetRootDentry L adfimage
    let statbuf := { Stat.zero with
      stMode := rootMode
      stSize := adfimageCountCwdEntries L adfimage
      stNlink := 1 }
    (0, finishStat env adfimage dentry.adflibEntry statbuf, adfimage)
  else
    match adfimageChdir L adfimage (dirname path) with
    | (false, adfimage) => (-eNoEnt, .zero, adfimage)
    | (true, adfimage) =>
        let direntryName := if basename path = [] then ['.'] else basename path
        let (dentry, adfimage) := adfimageGetdentry L adfimage direntryName
        match statEntry L adfimage path direntryName dentry with
        | (none, adfimage) => (-eNoEnt, .zero, adfimage.adfToRootDir)
        | (some statbuf, adfimage) =>
            let adfimage := adfimage.adfToRootDir
            (0, finishStat env adfimage dentry.adflibEntry statbuf, adfimage)

/-- The loop of `adffs_readdir`.  `filler` says for the names it was given before and the next
name whether its buffer is full; the result is whether the loop ran to the end and all names
handed over. -/
def readdirLoop (filler : List CStr → CStr → Bool) (handed : List CStr) :
    List AdfEntry → Bool × List CStr
  | [] => (true, handed)
  | dentry :: rest =>
      if filler handed dentry.name then (false, handed ++ [dentry.name])
      else readdirLoop filler (handed ++ [dentry.name]) rest

/-- `adffs_readdir`: the return value and the names handed to the filler. -/
def adffsReaddir (adfimage : Adfimage Image) (path : CStr) (filler : List CStr → CStr → Bool) :
    ℤ × List CStr × Adfimage Image :=
  match adfimageChdir L adfimage path with
  | (false, adfimage) => (-eNoEnt, [], adfimage.adfToRootDir)
  | (true, adfimage) =>
      let dentries := L.adfGetDirEnt adfimage.vol.image adfimage.vol.curDirPtr
      match readdirLoop filler [".".toList, "..".toList] dentries with
      | (false, names) => (-eAgain, names, adfimage.adfToRootDir)
      | (true, names) => (0, names, adfimage.adfToRootDir)

/-! ## The other callbacks -/

/-- `adffs_open`. -/
def adffsOpen (adfimage : Adfimage Image) (filepath : CStr) : ℤ × Adfimage Image :=
  let (file, adfimage) := adfimageFileOpen L adfimage filepath .read
  let status := if file.isSome then 0 else -1
  (status, adfimageFileClose L adfimage file)

/-- The user permissions of a mode, as `adffs_chmod` translates them. -/
def chmodPerms (mode : BitVec 32) : BitVec 32 :=
  (if mode &&& sIRUsr ≠ 0 then adfPermRead else 0) |||
  (if mode &&& sIWUsr ≠ 0 then adfPermWrite else 0) |||
  (if mode &&& sIXUsr ≠ 0 then adfPermExecute else 0)

/-- `adffs_chmod`; the error number is returned without a sign. -/
def adffsChmod (adfimage : Adfimage Image) (path : CStr) (mode : BitVec 32) :
    ℤ × Adfimage Image :=
  match adfimageSetperm L adfimage path (chmodPerms mode) with
  | (false, adfimage) => (eInval, adfimage)
  | (true, adfimage) => (0, adfimage)

/-- `adffs_truncate`; the new size is an `off_t`. -/
def adffsTruncate (adfimage : Adfimage Image) (path : CStr) (newSize : BitVec 64) :
    ℤ × Adfimage Image :=
  let (status, adfimage) := adfimageFileTruncate L adfimage path newSize
  (if status = 0 then 0 else -1, adfimage)

/-- The members of `struct statvfs` that depend on the volume. -/
structure Statvfs where
  rdOnly : Bool
  fFrsize : ℕ
  fBlocks : BitVec 32
  fBfree : ℕ
deriving DecidableEq, Repr

/-- `adffs_statfs`. -/
def adffsStatfs (adfimage : Adfimage Image) : Statvfs where
  rdOnly := adfimage.vol.readOnly
  fFrsize := adfimage.vol.datablockSize
  fBlocks := BitVec.ofInt 32 (adfimage.vol.lastBlock - adfimage.vol.firstBlock - 2)
  fBfree := L.adfCountFreeBlocks adfimage.vol.image

/-- A call of one member of `adffs_oper`, with its arguments. -/
inductive Callback
  | getattr (path : CStr)
  | readlink (path : CStr) (buf : CStr) (len : ℕ)
  | mkdir (dirpath : CStr)
  | unlink (filepath : CStr)
  | rmdir (dirpath : CStr)
  | rename (srcPath dstPath : CStr)
  | chmod (path : CStr) (mode : BitVec 32)
  | chown (path : CStr)
  | truncate (path : CStr) (newSize : BitVec 64)
  | open (filepath : CStr)
  | read (path : CStr) (size offset : BitVec 64)
  | write (path : CStr) (buffer : List UInt8) (size offset : BitVec 64)
  | statfs (path : CStr)
  | readdir (path : CStr) (filler : List CStr → CStr → Bool)
  | create (filepath : CStr)
  | utimens (path : CStr)

/-- The return value of a callback and what it hands to its caller. -/
structure Reply where
  ret : ℤ
  stat : Stat
  bytes : List UInt8
  link : CStr
  names : List CStr
  statvfs : Option Statvfs
deriving DecidableEq, Repr

/-- A reply that is only a return value. -/
def Reply.status (ret : ℤ) : Reply where
  ret := ret
  stat := .zero
  bytes := []
  link := []
  names := []
  statvfs := none

/-- What a callback returns and the state it leaves, or `none` if it is still running when the
fuel of its loops is spent. -/
def Callback.run (fuel : ℕ) (adfimage : Adfimage Image) :
    Callback → Option (Reply × Adfimage Image)
  | getattr path =>
      let (ret, stat, adfimage) := adffsGetattr L env adfimage path
      some ({ Reply.status ret with stat := stat }, adfimage)
  | readlink path buf len =>
      let (ret, link, adfimage) := adfimageReadlink L adfimage path buf len
      some ({ Reply.status ret with link := link }, adfimage)
  | mkdir dirpath =>
      let (ret, adfimage) := adfimageMkdir L adfimage dirpath
      some (.status ret, adfimage)
  | unlink filepath =>
      let (ret, adfimage) := adfimageUnlink L adfimage filepath
      some (.status ret, adfimage)
  | rmdir dirpath =>
      let (ret, adfimage) := adfimageRmdir L adfimage dirpath
      some (.status ret, adfimage)
  | rename srcPath dstPath =>
      (adfimageFileRename L fuel adfimage srcPath dstPath).map fun (ret, adfimage) ↦
        (.status ret, adfimage)
  | chmod path mode =>
      let (ret, adfimage) := adffsChmod L adfimage path mode
      some (.status ret, adfimage)
  | chown _ => some (.status 0, adfimage)
  | truncate path newSize =>
      let (ret, adfimage) := adffsTruncate L adfimage path newSize
      some (.status ret, adfimage)
  | «open» filepath =>
      let (ret, adfimage) := adffsOpen L adfimage filepath
      some (.status ret, adfimage)
  | read path size offset =>
      let (ret, bytes, adfimage) := adfimageRead L adfimage path size offset
      some ({ Reply.status ret with bytes := bytes }, adfimage)
  | write path buffer size offset =>
      let (ret, adfimage) := adfimageWrite L adfimage path buffer size offset
      some (.status ret, adfimage)
  | statfs _ => some ({ Reply.status 0 with statvfs := some (adffsStatfs L adfimage) }, adfimage)
  | readdir path filler =>
      let (ret, names, adfimage) := adffsReaddir L adfimage path filler
      some ({ Reply.status ret with names := names }, adfimage)
  | create filepath =>
      let (ret, adfimage) := adfimageCreate L adfimage filepath
      some (.status ret, adfimage)
  | utimens _ => some (.status 0, adfimage)

/-- A call of one of the adfimage functions that take the handle, with its arguments. -/
inductive AdfimageCall (File : Type)
  | countCwdEntries
  | countDirEntries (dirpath : CStr)
  | getRootDentry
  | getdentry (pathname : CStr)
  | setperm (path : CStr) (perms : BitVec 32)
  | getcwd
  | chdir (path : CStr)
  | fileOpen (path : CStr) (mode : AdfFileMode)
  | fileClose (file : Option File)
  | read (path : CStr) (size offset : BitVec 64)
  | write (path : CStr) (buffer : List UInt8) (size offset : BitVec 64)
  | readlink (path : CStr) (buffer : CStr) (lenMax : ℕ)
  | mkdir (dirpath : CStr)
  | rmdir (rmdirpath : CStr)
  | create (newfilepath : CStr)
  | unlink (unlinkpath : CStr)
  | fileTruncate (path : CStr) (newSize : BitVec 64)
  | fileRename (srcPathstr dstPathstr : CStr)

/-- The state that an adfimage function leaves. -/
def AdfimageCall.run (fuel : ℕ) (adfimage : Adfimage Image) :
    AdfimageCall File → Option (Adfimage Image)
  | countCwdEntries => some adfimage
  | countDirEntries dirpath => some (adfimageCountDirEntries L adfimage dirpath).2
  | getRootDentry => some adfimage
  | getdentry pathname => some (adfimageGetdentry L adfimage pathname).2
  | setperm path perms => some (adfimageSetperm L adfimage path perms).2
  | getcwd => some adfimage
  | chdir path => some (adfimageChdir L adfimage path).2
  | fileOpen path mode => some (adfimageFileOpen L adfimage path mode).2
  | fileClose file => some (adfimageFileClose L adfimage file)
  | read path size offset => some (adfimageRead L adfimage path size offset).2.2
  | write path buffer size offset => some (adfimageWrite L adfimage path buffer size offset).2
  | readlink path buffer lenMax => some (adfimageReadlink L adfimage path buffer lenMax).2.2
  | mkdir dirpath => some (adfimageMkdir L adfimage dirpath).2
  | rmdir rmdirpath => some (adfimageRmdir L adfimage rmdirpath).2
  | create newfilepath => some (adfimageCreate L adfimage newfilepath).2
  | unlink unlinkpath => some (adfimageUnlink L adfimage unlinkpath).2
  | fileTruncate path newSize => some (adfimageFileTruncate L adfimage path newSize).2
  | fileRename srcPathstr dstPathstr =>
      (adfimageFileRename L fuel adfimage srcPathstr dstPathstr).map Prod.snd

end FuseAdf
