import FuseAdf.Adflib.Interface
import Mathlib.Algebra.Group.Nat.Defs

/-!
# What ADFlib is relied on to do

Groups of documented behaviour, each a structure that a theorem takes as a hypothesis when it
needs it.  `Directories` says which calls leave the directory lookups alone, `EntryBlocks` what
writing back an entry block with another access word does, `RawBlocks` what it does to the bytes on
the disk, `NameLookup` what a name leads to, and `Files` that an open file is a sequence of bytes
with a position.
-/

namespace FuseAdf.Adflib

variable {Image File : Type} (L : Adflib Image File)

/-- Two images in which every name of every directory leads to the same directory. -/
def SameDirs (image image' : Image) : Prop :=
  ∀ dir name, L.adfChangeDir image' dir name = L.adfChangeDir image dir name

/-- File contents and access words do not decide where a directory name leads, and a renaming
affects no other name. -/
structure Directories : Prop where
  fileOpen : ∀ image dir name mode, L.SameDirs image (L.adfFileOpen image dir name mode).1
  fileSeek : ∀ image file position, L.SameDirs image (L.adfFileSeek image file position).1
  fileRead : ∀ image file size, L.SameDirs image (L.adfFileRead image file size).1
  fileWrite : ∀ image file size buffer, L.SameDirs image (L.adfFileWrite image file size buffer).1
  fileTruncate : ∀ image file size, L.SameDirs image (L.adfFileTruncate image file size).1
  fileClose : ∀ image file, L.SameDirs image (L.adfFileClose image file)
  changeAccess : ∀ image sector block access, L.adfReadEntryBlock image sector = some block →
    L.SameDirs image (L.adfWriteEntryBlock image sector { block with access := access }).1
  renameEntry : ∀ image oldParent oldName newParent newName dir name next,
    L.adfChangeDir image dir name = some next → ¬ (dir = oldParent ∧ L.sameName name oldName) →
    L.adfChangeDir (L.adfRenameEntry image oldParent oldName newParent newName).1 dir name =
      some next

/-- An entry of a listing after the access word of the block at `sector` has been written.  Only
files and directories are listed with their access word. -/
def relist (sector : Sector) (access : BitVec 32) (entry : AdfEntry) : AdfEntry :=
  if entry.sector = sector ∧ (entry.type = .file ∨ entry.type = .dir) then
    { entry with access := access }
  else entry

/-- A block written back with another access word reads as it was written, up to the checksum; no
other block changes, directory names lead where they led, and listings show the new word. -/
structure EntryBlocks : Prop where
  read_same : ∀ image sector block access, L.adfReadEntryBlock image sector = some block →
    (L.adfWriteEntryBlock image sector { block with access := access }).2 = adfRcOk →
    ∃ checkSum, L.adfReadEntryBlock
      (L.adfWriteEntryBlock image sector { block with access := access }).1 sector =
        some { block with access := access, checkSum := checkSum }
  read_other : ∀ image sector block access other, L.adfReadEntryBlock image sector = some block →
    (L.adfWriteEntryBlock image sector { block with access := access }).2 = adfRcOk →
    other ≠ sector →
    L.adfReadEntryBlock
      (L.adfWriteEntryBlock image sector { block with access := access }).1 other =
        L.adfReadEntryBlock image other
  sameDirs : ∀ image sector block access, L.adfReadEntryBlock image sector = some block →
    L.SameDirs image (L.adfWriteEntryBlock image sector { block with access := access }).1
  getDirEnt : ∀ image sector block access dir, L.adfReadEntryBlock image sector = some block →
    (L.adfWriteEntryBlock image sector { block with access := access }).2 = adfRcOk →
    L.adfGetDirEnt (L.adfWriteEntryBlock image sector { block with access := access }).1 dir =
      (L.adfGetDirEnt image dir).map (relist sector access)

/-- The sectors as they are on the disk.  An entry block is written back as a whole: in its sector
the words of access and checksum are replaced, whatever kind of block is there, and in no other
sector anything.  A root block is what its sector says, and it has no access word: at that place it
keeps one of its pointers to the pages of the bitmap. -/
structure RawBlocks (Raw : Type) where
  raw : Image → Sector → Raw
  replace : Raw → (access checkSum : BitVec 32) → Raw
  sum : AdfEntryBlock → BitVec 32
  replace_eq_self : ∀ image sector block access checkSum,
    L.adfReadEntryBlock image sector = some block →
    (replace (raw image sector) access checkSum = raw image sector ↔
      access = block.access ∧ checkSum = block.checkSum)
  readRoot : ∀ image image' sector, raw image' sector = raw image sector →
    L.adfReadRootBlock image' sector = L.adfReadRootBlock image sector
  write_same : ∀ image sector block access, L.adfReadEntryBlock image sector = some block →
    (L.adfWriteEntryBlock image sector { block with access := access }).2 = adfRcOk →
    raw (L.adfWriteEntryBlock image sector { block with access := access }).1 sector =
      replace (raw image sector) access (sum { block with access := access })
  write_other : ∀ image sector block access other, L.adfReadEntryBlock image sector = some block →
    other ≠ sector →
    raw (L.adfWriteEntryBlock image sector { block with access := access }).1 other = raw image other
  write_failed : ∀ image sector block access, L.adfReadEntryBlock image sector = some block →
    (L.adfWriteEntryBlock image sector { block with access := access }).2 ≠ adfRcOk →
    raw (L.adfWriteEntryBlock image sector { block with access := access }).1 sector =
      raw image sector

/-- The entry that the library's lookup of a name in a directory finds. -/
def lookupName (image : Image) (dir : Sector) (name : CStr) : Option AdfEntry :=
  (L.adfGetDirEnt image dir).find? fun entry ↦ L.sameName name entry.name

/-- Names that differ in the case of letters only are the same name, the entries of a directory have
different names, and the calls that take a name look it up among these entries.  What can be entered
is a directory, at its own sector, or a hard link to one, at the sector of its target.  No entry has
the empty name.  Opening a file for writing may create it, so only what is opened for reading must be
there. -/
structure NameLookup (image : Image) : Prop where
  refl : ∀ name, L.sameName name name
  symm : ∀ name name', L.sameName name name' → L.sameName name' name
  trans : ∀ name name' name'', L.sameName name name' → L.sameName name' name'' →
    L.sameName name name''
  unique : ∀ dir, (L.adfGetDirEnt image dir).Pairwise fun entry entry' ↦
    ¬ L.sameName entry.name entry'.name
  nameToEntryBlk : ∀ dir parent name, L.adfReadEntryBlock image dir = some parent →
    L.adfNameToEntryBlk image parent.hashTable name =
      (L.lookupName image dir name).bind fun entry ↦ L.adfReadEntryBlock image entry.sector
  changeDir : ∀ dir name next, L.adfChangeDir image dir name = some next →
    ∃ entry ∈ L.lookupName image dir name,
      (entry.type = .dir ∧ next = entry.sector) ∨ (entry.type = .ldir ∧ next = entry.real)
  changeDir_nil : ∀ dir, L.adfChangeDir image dir [] = none
  fileOpen : ∀ dir name, (L.adfFileOpen image dir name .read).2.isSome →
    (L.lookupName image dir name).isSome

/-- The access masks are three different single bits, and a test looks at the bit of its mask. -/
structure AccessBits (r w e : Fin 32) : Prop where
  r_ne_w : r ≠ w
  r_ne_e : r ≠ e
  w_ne_e : w ≠ e
  maskR : L.accMaskR = BitVec.twoPow 32 r
  maskW : L.accMaskW = BitVec.twoPow 32 w
  maskE : L.accMaskE = BitVec.twoPow 32 e
  hasR : ∀ access, L.adfAccHasR access = access.getLsbD r
  hasW : ∀ access, L.adfAccHasW access = access.getLsbD w
  hasE : ∀ access, L.adfAccHasE access = access.getLsbD e

/-- The bytes `old` with `new` written over them from `position` on.  A gap before `position` is
filled with zeros; writing nothing changes nothing. -/
def overwrite (old : List UInt8) (position : ℕ) (new : List UInt8) : List UInt8 :=
  if new = [] then old else old.takeD position 0 ++ new ++ old.drop (position + new.length)

@[simp]
theorem overwrite_nil (old : List UInt8) (position : ℕ) : overwrite old position [] = old := if_pos rfl

/-- An open file is a file of the volume, identified by the sector of its header, with the bytes
seen through the handle and a position.  A call that succeeds acts at exactly the position or size
it is given, one that fails leaves the bytes alone, and closing stores the bytes of the handle.
Where the volume has no file it stores no bytes: that is what a file has that opening creates. -/
structure Files where
  header : File → Sector
  position : File → ℕ
  bytes : Image → File → List UInt8
  stored : Image → Sector → List UInt8
  open_bytes : ∀ image dir name mode file, (L.adfFileOpen image dir name mode).2 = some file →
    bytes (L.adfFileOpen image dir name mode).1 file = stored image (header file)
  seek_header : ∀ image file p, header (L.adfFileSeek image file p).2.1 = header file
  seek_bytes : ∀ image file p,
    bytes (L.adfFileSeek image file p).1 (L.adfFileSeek image file p).2.1 = bytes image file
  seek_position : ∀ image file p, (L.adfFileSeek image file p).2.2 = adfRcOk →
    position (L.adfFileSeek image file p).2.1 = p.toNat
  read_header : ∀ image file n, header (L.adfFileRead image file n).2.1 = header file
  read_bytes : ∀ image file n,
    bytes (L.adfFileRead image file n).1 (L.adfFileRead image file n).2.1 = bytes image file
  read_count : ∀ image file n, (L.adfFileRead image file n).2.2.1.toNat ≤ n.toNat
  read_output : ∀ image file n, (L.adfFileRead image file n).2.2.2 =
    ((bytes image file).drop (position file)).take (L.adfFileRead image file n).2.2.1.toNat
  read_length : ∀ image file n,
    (L.adfFileRead image file n).2.2.2.length = (L.adfFileRead image file n).2.2.1.toNat
  write_header : ∀ image file n buffer,
    header (L.adfFileWrite image file n buffer).2.1 = header file
  write_count : ∀ image file n buffer, (L.adfFileWrite image file n buffer).2.2.toNat ≤ n.toNat
  write_bytes : ∀ image file n buffer, n.toNat ≤ buffer.length →
    bytes (L.adfFileWrite image file n buffer).1 (L.adfFileWrite image file n buffer).2.1 =
      overwrite (bytes image file) (position file)
        (buffer.take (L.adfFileWrite image file n buffer).2.2.toNat)
  truncate_header : ∀ image file n, header (L.adfFileTruncate image file n).2.1 = header file
  truncate_bytes : ∀ image file n, (L.adfFileTruncate image file n).2.2 = adfRcOk →
    bytes (L.adfFileTruncate image file n).1 (L.adfFileTruncate image file n).2.1 =
      (bytes image file).takeD n.toNat 0
  truncate_fail : ∀ image file n, (L.adfFileTruncate image file n).2.2 ≠ adfRcOk →
    bytes (L.adfFileTruncate image file n).1 (L.adfFileTruncate image file n).2.1 =
      bytes image file
  close_stored : ∀ image file,
    stored (L.adfFileClose image file) (header file) = bytes image file

end FuseAdf.Adflib
