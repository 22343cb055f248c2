import FuseAdf.Adflib.Interface
import Mathlib.Control.Basic

/-!
# A library that records what is done with files

`watched` is any library with a record of the calls that concern open files and of those that change
something without one; it numbers the files in the order in which they are opened.  That it does the
same as the library under it is `watched_covers`.  `FileEvent.next` is the discipline that ADFlib asks
of its callers.
-/

namespace FuseAdf

/-- One library does what the other does, if images and files are looked at through two functions. -/
structure Adflib.Covers {Image Image' File File' : Type} (L' : Adflib Image' File')
    (L : Adflib Image File) (image : Image' → Image) (file : File' → File) : Prop where
  changeDir : ∀ i dir name, L.adfChangeDir (image i) dir name = L'.adfChangeDir i dir name
  dirEntries : ∀ i dir, L.dirEntries (image i) dir = L'.dirEntries i dir
  readRootBlock : ∀ i sector, L.adfReadRootBlock (image i) sector = L'.adfReadRootBlock i sector
  entBlock2Entry : ∀ block, L.adfEntBlock2Entry block = L'.adfEntBlock2Entry block
  readEntryBlock : ∀ i sector, L.adfReadEntryBlock (image i) sector = L'.adfReadEntryBlock i sector
  writeEntryBlock : ∀ i sector block, L.adfWriteEntryBlock (image i) sector block =
    (L'.adfWriteEntryBlock i sector block).map image id
  nameToEntryBlk : ∀ i table name,
    L.adfNameToEntryBlk (image i) table name = L'.adfNameToEntryBlk i table name
  fileOpen : ∀ i dir name mode, L.adfFileOpen (image i) dir name mode =
    (L'.adfFileOpen i dir name mode).map image (Option.map file)
  fileSeek : ∀ i f position, L.adfFileSeek (image i) (file f) position =
    (L'.adfFileSeek i f position).map image (Prod.map file id)
  fileRead : ∀ i f size, L.adfFileRead (image i) (file f) size =
    (L'.adfFileRead i f size).map image (Prod.map file id)
  fileWrite : ∀ i f size buffer, L.adfFileWrite (image i) (file f) size buffer =
    (L'.adfFileWrite i f size buffer).map image (Prod.map file id)
  fileTruncate : ∀ i f size, L.adfFileTruncate (image i) (file f) size =
    (L'.adfFileTruncate i f size).map image (Prod.map file id)
  fileClose : ∀ i f, L.adfFileClose (image i) (file f) = image (L'.adfFileClose i f)
  byteSize : ∀ f, L.byteSize (file f) = L'.byteSize f
  createDir : ∀ i parent name,
    L.adfCreateDir (image i) parent name = (L'.adfCreateDir i parent name).map image id
  removeEntry : ∀ i parent name,
    L.adfRemoveEntry (image i) parent name = (L'.adfRemoveEntry i parent name).map image id
  createFile : ∀ i parent name,
    L.adfCreateFile (image i) parent name = (L'.adfCreateFile i parent name).map image id
  renameEntry : ∀ i oldParent oldName newParent newName,
    L.adfRenameEntry (image i) oldParent oldName newParent newName =
      (L'.adfRenameEntry i oldParent oldName newParent newName).map image id
  countFreeBlocks : ∀ i, L.adfCountFreeBlocks (image i) = L'.adfCountFreeBlocks i
  accMaskR : L.accMaskR = L'.accMaskR
  accMaskW : L.accMaskW = L'.accMaskW
  accMaskE : L.accMaskE = L'.accMaskE
  accHasR : ∀ access, L.adfAccHasR access = L'.adfAccHasR access
  accHasW : ∀ access, L.adfAccHasW access = L'.adfAccHasW access
  accHasE : ∀ access, L.adfAccHasE access = L'.adfAccHasE access

theorem Adflib.Covers.getDirEnt {Image Image' File File' : Type} {L : Adflib Image File}
    {L' : Adflib Image' File'} {image : Image' → Image} {file : File' → File}
    (h : L'.Covers L image file) (i : Image') (dir : Sector) :
    L.adfGetDirEnt (image i) dir = L'.adfGetDirEnt i dir := by
  rw [Adflib.adfGetDirEnt, Adflib.adfGetDirEnt, h.dirEntries]

/-! ## The record -/

/-- A call as the record has it. -/
inductive FileEvent
  | opened (number : ℕ) (mode : AdfFileMode)
  | seek (number : ℕ)
  | read (number : ℕ)
  | write (number : ℕ)
  | truncate (number : ℕ)
  | closed (number : ℕ)
  /-- A directory or an entry block was changed, or that was tried. -/
  | changed
deriving DecidableEq, Repr

/-- An image with the record of what has been done to it. -/
structure Watched (Image : Type) where
  image : Image
  files : ℕ
  events : List FileEvent

/-- A file with its number. -/
structure Numbered (File : Type) where
  file : File
  number : ℕ

/-- The record begins. -/
def Watched.start {Image : Type} (image : Image) : Watched Image where
  image := image
  files := 0
  events := []

/-- A call has led to another image. -/
def Watched.after {Image : Type} (seen : Watched Image) (event : FileEvent) (image : Image) :
    Watched Image :=
  { seen with image := image, events := seen.events ++ [event] }

variable {Image File : Type} (L : Adflib Image File)

/-- A call that changes something without an open file. -/
def watchChange (seen : Watched Image) (result : Image × RetCode) : Watched Image × RetCode :=
  (seen.after .changed result.1, result.2)

/-- A call with an open file. -/
def watchUse {α : Type} (seen : Watched Image) (number : ℕ) (event : FileEvent)
    (result : Image × File × α) : Watched Image × Numbered File × α :=
  (seen.after event result.1, ⟨result.2.1, number⟩, result.2.2)

/-- Only a file that is opened gets a number. -/
def watchOpen (seen : Watched Image) (mode : AdfFileMode) :
    Image × Option File → Watched Image × Option (Numbered File)
  | (image, none) => ({ seen with image := image }, none)
  | (image, some file) =>
      ({ seen.after (.opened seen.files mode) image with files := seen.files + 1 },
        some ⟨file, seen.files⟩)

/-- The library with a record. -/
def Adflib.watched : Adflib (Watched Image) (Numbered File) where
  adfChangeDir seen := L.adfChangeDir seen.image
  dirEntries seen := L.dirEntries seen.image
  adfReadRootBlock seen := L.adfReadRootBlock seen.image
  adfEntBlock2Entry := L.adfEntBlock2Entry
  adfReadEntryBlock seen := L.adfReadEntryBlock seen.image
  adfWriteEntryBlock seen sector block :=
    watchChange seen (L.adfWriteEntryBlock seen.image sector block)
  adfNameToEntryBlk seen := L.adfNameToEntryBlk seen.image
  adfFileOpen seen dir name mode :=
    watchOpen seen mode (L.adfFileOpen seen.image dir name mode)
  adfFileSeek seen file position :=
    watchUse seen file.number (.seek file.number)
      (L.adfFileSeek seen.image file.file position)
  adfFileRead seen file size :=
    watchUse seen file.number (.read file.number) (L.adfFileRead seen.image file.file size)
  adfFileWrite seen file size buffer :=
    watchUse seen file.number (.write file.number)
      (L.adfFileWrite seen.image file.file size buffer)
  adfFileTruncate seen file size :=
    watchUse seen file.number (.truncate file.number)
      (L.adfFileTruncate seen.image file.file size)
  adfFileClose seen file :=
    seen.after (.closed file.number) (L.adfFileClose seen.image file.file)
  byteSize file := L.byteSize file.file
  adfCreateDir seen parent name :=
    watchChange seen (L.adfCreateDir seen.image parent name)
  adfRemoveEntry seen parent name :=
    watchChange seen (L.adfRemoveEntry seen.image parent name)
  adfCreateFile seen parent name :=
    watchChange seen (L.adfCreateFile seen.image parent name)
  adfRenameEntry seen oldParent oldName newParent newName :=
    watchChange seen (L.adfRenameEntry seen.image oldParent oldName newParent newName)
  adfCountFreeBlocks seen := L.adfCountFreeBlocks seen.image
  sameName := L.sameName
  accMaskR := L.accMaskR
  accMaskW := L.accMaskW
  accMaskE := L.accMaskE
  adfAccHasR := L.adfAccHasR
  adfAccHasW := L.adfAccHasW
  adfAccHasE := L.adfAccHasE

/-- Without the record it is the library itself. -/
theorem watched_covers : L.watched.Covers L Watched.image Numbered.file where
  changeDir _ _ _ := rfl
  dirEntries _ _ := rfl
  readRootBlock _ _ := rfl
  entBlock2Entry _ := rfl
  readEntryBlock _ _ := rfl
  writeEntryBlock _ _ _ := rfl
  nameToEntryBlk _ _ _ := rfl
  fileOpen seen dir name mode := by
    change _ = (watchOpen seen mode (L.adfFileOpen seen.image dir name mode)).map _ _
    rcases L.adfFileOpen seen.image dir name mode with ⟨image, file⟩
    cases file <;> rfl
  fileSeek _ _ _ := rfl
  fileRead _ _ _ := rfl
  fileWrite _ _ _ _ := rfl
  fileTruncate _ _ _ := rfl
  fileClose _ _ := rfl
  byteSize _ := rfl
  createDir _ _ _ := rfl
  removeEntry _ _ _ := rfl
  createFile _ _ _ := rfl
  renameEntry _ _ _ _ _ := rfl
  countFreeBlocks _ := rfl
  accMaskR := rfl
  accMaskW := rfl
  accMaskE := rfl
  accHasR _ := rfl
  accHasW _ := rfl
  accHasE _ := rfl

/-- The number of the next file, and the file that is open with its mode. -/
abbrev HandleState := ℕ × Option (ℕ × AdfFileMode)

/-- Files get consecutive numbers; one file is open at a time, it is used in its mode only, and nothing
else is changed before it is closed. -/
def FileEvent.next : HandleState → FileEvent → Option HandleState
  | (files, none), .opened number mode =>
      if number = files then some (files + 1, some (number, mode)) else none
  | (files, none), .changed => some (files, none)
  | (files, some (held, mode)), .seek number =>
      if number = held then some (files, some (held, mode)) else none
  | (files, some (held, .read)), .read number =>
      if number = held then some (files, some (held, .read)) else none
  | (files, some (held, .write)), .write number =>
      if number = held then some (files, some (held, .write)) else none
  | (files, some (held, .write)), .truncate number =>
      if number = held then some (files, some (held, .write)) else none
  | (files, some (held, _)), .closed number => if number = held then some (files, none) else none
  | _, _ => none

/-- The calls keep to the discipline, and every file that was opened has been closed. -/
def Orderly (seen : Watched Image) : Prop :=
  seen.events.foldlM FileEvent.next (0, none) = some (seen.files, none)

instance (seen : Watched Image) : Decidable (Orderly seen) :=
  inferInstanceAs (Decidable (_ = _))

/-- Nothing but looking into files. -/
def FileEvent.reads : FileEvent → Bool
  | .opened _ .read | .seek _ | .read _ | .closed _ => true
  | _ => false

end FuseAdf
