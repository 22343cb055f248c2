import FuseAdf.Path.Libgen
import Mathlib.Data.Int.Notation

/-!
# ADFlib as fuseadf sees it

ADFlib is a separate library.  Everything that fuseadf calls in it is a field of `Adflib`, over an
abstract type of volume images and an abstract type of open files; a call is a function of the
image, of the directory or file it is given and of its other arguments, and returns the image it
leaves.  What the library is known to do with them is stated in `FuseAdf.Adflib.Contract`.

The records keep the members that fuseadf reads or writes, under the library's names.
-/

namespace FuseAdf

/-- `ADF_SECTNUM`. -/
abbrev Sector := ℤ

/-- `ADF_RETCODE`: any integer, of which only `ADF_RC_OK` is a success. -/
abbrev RetCode := ℤ

def adfRcOk : RetCode := 0

/-- The secondary type of a block, `ADF_ST_*`; other values can be on a damaged disk. -/
inductive AdfSecType
  | root
  | dir
  | file
  | lfile
  | ldir
  | lsoft
  | other (code : ℤ)
deriving DecidableEq, Repr

/-- `struct AdfEntry`, one element of a directory listing. -/
structure AdfEntry where
  type : AdfSecType
  name : CStr
  sector : Sector
  real : Sector
  parent : Sector
  access : BitVec 32
  year : ℤ
  month : ℤ
  days : ℤ
  hour : ℤ
  mins : ℤ
  secs : ℤ
deriving DecidableEq, Repr

/-- An entry all of whose bytes are zero, as a partial initializer leaves it. -/
def AdfEntry.zero : AdfEntry where
  type := .other 0
  name := []
  sector := 0
  real := 0
  parent := 0
  access := 0
  year := 0
  month := 0
  days := 0
  hour := 0
  mins := 0
  secs := 0

/-- `struct AdfEntryBlock`, and the members that `struct AdfLinkBlock` puts over the same bytes;
`rest` is everything else in the block. -/
structure AdfEntryBlock where
  secType : AdfSecType
  checkSum : BitVec 32
  hashTable : List Sector
  access : BitVec 32
  name : CStr
  realName : CStr
  realEntry : Sector
  rest : List UInt8
deriving DecidableEq, Repr

/-- `struct AdfRootBlock`; `asEntryBlock` is the block read through a pointer cast. -/
structure AdfRootBlock where
  bmFlag : ℤ
  asEntryBlock : AdfEntryBlock
deriving DecidableEq, Repr

/-- `AdfFileMode`. -/
inductive AdfFileMode
  | read
  | write
deriving DecidableEq, Repr

/-- The functions and constants of the library. -/
structure Adflib (Image File : Type) where
  /-- The directory a name leads to from a directory, or `none` for any error. -/
  adfChangeDir : Image → Sector → CStr → Option Sector
  /-- The entries of a directory in list order, or `none` if they cannot be read. -/
  dirEntries : Image → Sector → Option (List AdfEntry)
  adfReadRootBlock : Image → Sector → Option AdfRootBlock
  adfEntBlock2Entry : AdfEntryBlock → Option AdfEntry
  adfReadEntryBlock : Image → Sector → Option AdfEntryBlock
  adfWriteEntryBlock : Image → Sector → AdfEntryBlock → Image × RetCode
  /-- The block of a name in a hash table, or `none` for the sector number -1. -/
  adfNameToEntryBlk : Image → List Sector → CStr → Option AdfEntryBlock
  adfFileOpen : Image → Sector → CStr → AdfFileMode → Image × Option File
  adfFileSeek : Image → File → BitVec 32 → Image × File × RetCode
  /-- The number of bytes read and the bytes. -/
  adfFileRead : Image → File → BitVec 32 → Image × File × BitVec 32 × List UInt8
  adfFileWrite : Image → File → BitVec 32 → List UInt8 → Image × File × BitVec 32
  adfFileTruncate : Image → File → BitVec 32 → Image × File × RetCode
  adfFileClose : Image → File → Image
  /-- `fileHdr->byteSize` of an open file. -/
  byteSize : File → ℕ
  adfCreateDir : Image → Sector → CStr → Image × RetCode
  adfRemoveEntry : Image → Sector → CStr → Image × RetCode
  adfCreateFile : Image → Sector → CStr → Image × RetCode
  adfRenameEntry : Image → Sector → CStr → Sector → CStr → Image × RetCode
  adfCountFreeBlocks : Image → ℕ
  /-- Equality of names as the lookups see it, which ignores the case of letters. -/
  sameName : CStr → CStr → Bool
  accMaskR : BitVec 32
  accMaskW : BitVec 32
  accMaskE : BitVec 32
  adfAccHasR : BitVec 32 → Bool
  adfAccHasW : BitVec 32 → Bool
  adfAccHasE : BitVec 32 → Bool

/-- The list of a directory's entries.  NULL is the empty list, and it is also what the library
returns for any error. -/
def Adflib.adfGetDirEnt {Image File : Type} (L : Adflib Image File) (image : Image)
    (dir : Sector) : List AdfEntry :=
  (L.dirEntries image dir).getD []

/-- The calls by which an operation names an object of the volume or a position in a file. -/
inductive AdfCall
  | writeEntryBlock (sector : Sector) (block : AdfEntryBlock)
  | nameToEntryBlk (dir : Sector) (name : CStr)
  | fileOpen (dir : Sector) (name : CStr) (mode : AdfFileMode)
  | createDir (parent : Sector) (name : CStr)
  | removeEntry (parent : Sector) (name : CStr)
  | createFile (parent : Sector) (name : CStr)
  | renameEntry (oldParent : Sector) (oldName : CStr) (newParent : Sector) (newName : CStr)
deriving DecidableEq, Repr

/-- `struct AdfVolume`: the mounted image, its root block and the current directory. -/
structure AdfVolume (Image : Type) where
  image : Image
  rootBlock : Sector
  curDirPtr : Sector
  readOnly : Bool
  datablockSize : ℕ
  firstBlock : ℤ
  lastBlock : ℤ
deriving Repr

end FuseAdf
