import FuseAdf.Adfimage.Basic
import FuseAdf.Adflib.Contract
import Mathlib.Data.List.TakeDrop

/-!
# A library in memory

An executable library that keeps the whole contract, so that the assumptions of
`FuseAdf.Adflib.Contract` are known to be consistent and the results that use them can be run.
Directories are tables of names and sectors, entry blocks and file contents are found by sector,
and every library call is a few lines over these tables.
-/

namespace FuseAdf

/-- The bytes of a file, which AmigaDOS keeps below 2³¹. -/
abbrev FileBytes := { bytes : List UInt8 // bytes.length < 2 ^ 31 }

/-- An image: its directory tables, its entry blocks and its file contents. -/
structure RamDisk where
  bmFlag : ℤ
  dirs : Sector → List (CStr × Sector)
  blocks : Sector → Option AdfEntryBlock
  contents : Sector → FileBytes
  nextFree : Sector

/-- An open file.  The size is the one of the header when the file was opened. -/
structure RamFile where
  sector : Sector
  position : ℕ
  size : ℕ
deriving DecidableEq, Repr

namespace RamDisk

/-- Names that differ in the case of letters only are the same name. -/
def sameName (name name' : CStr) : Bool := name.map Char.toUpper == name'.map Char.toUpper

theorem sameName_comm {a b : CStr} (h : sameName a b = true) : sameName b a = true := by
  rw [sameName, beq_iff_eq] at h ⊢
  exact h.symm

theorem sameName_trans {a b c : CStr} (hab : sameName a b = true) (hbc : sameName b c = true) :
    sameName a c = true := by
  rw [sameName, beq_iff_eq] at hab hbc ⊢
  exact hab.trans hbc

/-- The sector of a name in a directory. -/
def find (disk : RamDisk) (dir : Sector) (name : CStr) : Option Sector :=
  ((disk.dirs dir).find? (fun cell ↦ sameName name cell.1)).map Prod.snd

/-- The directory behind a sector: itself, or the target of a hard link. -/
def target (disk : RamDisk) (sector : Sector) : Option Sector :=
  (disk.blocks sector).bind fun block ↦
    match block.secType with
    | .dir => some sector
    | .ldir => some block.realEntry
    | _ => none

def changeDir (disk : RamDisk) (dir : Sector) (name : CStr) : Option Sector :=
  if name = [] then none else (disk.find dir name).bind disk.target

/-- The listing entry of one name.  Links are listed with all access bits set. -/
def entry (disk : RamDisk) (dir : Sector) (cell : CStr × Sector) : Option AdfEntry :=
  (disk.blocks cell.2).map fun block ↦
    { AdfEntry.zero with
      type := block.secType
      name := cell.1
      sector := cell.2
      real := block.realEntry
      parent := dir
      access := if block.secType = .file ∨ block.secType = .dir then block.access else .allOnes 32 }

def getDirEnt (disk : RamDisk) (dir : Sector) : List AdfEntry :=
  (disk.dirs dir).filterMap (disk.entry dir)

/-- The hash table of a block lists the sectors of its directory. -/
def readEntryBlock (disk : RamDisk) (sector : Sector) : Option AdfEntryBlock :=
  (disk.blocks sector).map fun block ↦
    { block with hashTable := (disk.dirs sector).map Prod.snd }

/-- Put a block in its place. -/
def putBlock (disk : RamDisk) (sector : Sector) (block : AdfEntryBlock) : RamDisk :=
  { disk with blocks := fun other ↦ if other = sector then some block else disk.blocks other }

/-- Put the content of a file in its place. -/
def putContent (disk : RamDisk) (sector : Sector) (content : FileBytes) : RamDisk :=
  { disk with
    contents := fun other ↦ if other = sector then content else disk.contents other }

/-- Put the table of a directory in its place. -/
def putDir (disk : RamDisk) (dir : Sector) (table : List (CStr × Sector)) : RamDisk :=
  { disk with dirs := fun other ↦ if other = dir then table else disk.dirs other }

/-- Any number but `adfRcOk`. -/
def failed : RetCode := 1

theorem failed_ne_ok : failed ≠ adfRcOk := by decide

def writeEntryBlock (disk : RamDisk) (sector : Sector) (block : AdfEntryBlock) :
    RamDisk × RetCode :=
  if (disk.blocks sector).isSome then (disk.putBlock sector block, adfRcOk) else (disk, failed)

def nameToEntryBlk (disk : RamDisk) (hashTable : List Sector) (name : CStr) :
    Option AdfEntryBlock :=
  hashTable.findSome? fun sector ↦
    (disk.readEntryBlock sector).filter fun block ↦ sameName name block.name

/-- Only files can be opened. -/
def openFile (disk : RamDisk) (dir : Sector) (name : CStr) : Option RamFile :=
  (disk.find dir name).bind fun sector ↦
    if (disk.blocks sector).map AdfEntryBlock.secType = some .file then
      some { sector := sector, position := 0, size := (disk.contents sector).1.length }
    else none

/-- A position may lie after the end. -/
def fileSeek (disk : RamDisk) (file : RamFile) (position : BitVec 32) :
    RamDisk × RamFile × RetCode :=
  (disk, { file with position := position.toNat }, adfRcOk)

def fileRead (disk : RamDisk) (file : RamFile) (size : BitVec 32) :
    RamDisk × RamFile × BitVec 32 × List UInt8 :=
  let buffer := ((disk.contents file.sector).1.drop file.position).take size.toNat
  (disk, { file with position := file.position + buffer.length }, BitVec.ofNat 32 buffer.length,
    buffer)

theorem overwrite_length (old new : List UInt8) (position : ℕ) :
    (Adflib.overwrite old position new).length ≤ max old.length (position + new.length) := by
  rw [Adflib.overwrite]
  split_ifs with hnew
  · omega
  · simp only [List.length_append, List.takeD_length, List.length_drop]
    omega

/-- Nothing is written if the file would become too large. -/
def fileWrite (disk : RamDisk) (file : RamFile) (size : BitVec 32) (buffer : List UInt8) :
    RamDisk × RamFile × BitVec 32 :=
  let old := disk.contents file.sector
  let new := buffer.take size.toNat
  if h : new.length = size.toNat ∧ file.position + new.length < 2 ^ 31 then
    (disk.putContent file.sector ⟨Adflib.overwrite old.1 file.position new,
        (overwrite_length old.1 new file.position).trans_lt (max_lt old.2 h.2)⟩,
      { file with position := file.position + new.length }, size)
  else (disk, file, 0)

def fileTruncate (disk : RamDisk) (file : RamFile) (size : BitVec 32) :
    RamDisk × RamFile × RetCode :=
  if h : size.toNat < 2 ^ 31 then
    (disk.putContent file.sector ⟨(disk.contents file.sector).1.takeD size.toNat 0,
      by rwa [List.takeD_length]⟩, file, adfRcOk)
  else (disk, file, failed)

/-- The block of an entry that has just been created. -/
def newBlock (type : AdfSecType) (name : CStr) : AdfEntryBlock where
  secType := type
  checkSum := 0
  hashTable := []
  access := 0
  name := name
  realName := []
  realEntry := 0
  rest := []

def create (type : AdfSecType) (disk : RamDisk) (parent : Sector) (name : CStr) :
    RamDisk × RetCode :=
  if name = [] ∨ (disk.find parent name).isSome then (disk, failed)
  else
    (({ disk with nextFree := disk.nextFree + 1 }.putBlock disk.nextFree
      (newBlock type name)).putDir parent (disk.dirs parent ++ [(name, disk.nextFree)]), adfRcOk)

/-- A file that is missing is created when it is opened for writing, if there is a place for it. -/
def fileOpen (disk : RamDisk) (dir : Sector) (name : CStr) (mode : AdfFileMode) :
    RamDisk × Option RamFile :=
  if mode = .read ∨ (disk.find dir name).isSome ∨ (disk.blocks disk.nextFree).isSome then
    (disk, disk.openFile dir name)
  else
    let created := (create .file disk dir name).1
    (created, created.openFile dir name)

/-- Directories must be empty to be removed. -/
def removeEntry (disk : RamDisk) (parent : Sector) (name : CStr) : RamDisk × RetCode :=
  match disk.find parent name with
  | none => (disk, failed)
  | some sector =>
      if disk.dirs sector = [] then
        (disk.putDir parent
          ((disk.dirs parent).filter fun cell ↦ !sameName name cell.1), adfRcOk)
      else (disk, failed)

def renameEntry (disk : RamDisk) (oldParent : Sector) (oldName : CStr) (newParent : Sector)
    (newName : CStr) : RamDisk × RetCode :=
  match disk.find oldParent oldName with
  | none => (disk, failed)
  | some sector =>
      if newName = [] ∨ (disk.find newParent newName).isSome then (disk, failed)
      else
        let removed := disk.putDir oldParent
          ((disk.dirs oldParent).filter fun cell ↦ !sameName oldName cell.1)
        let moved := removed.putDir newParent (removed.dirs newParent ++ [(newName, sector)])
        ({ moved with
            blocks := fun other ↦
              if other = sector then (disk.blocks sector).map ({ · with name := newName })
              else disk.blocks other },
          adfRcOk)

/-- The access bits of AmigaDOS: delete is bit 0, then execute, write and read. -/
def lib : Adflib RamDisk RamFile where
  adfChangeDir := changeDir
  dirEntries disk dir := some (disk.getDirEnt dir)
  adfReadRootBlock disk sector := (disk.readEntryBlock sector).map (⟨disk.bmFlag, ·⟩)
  adfEntBlock2Entry block := some { AdfEntry.zero with
    type := block.secType
    name := block.name
    access := block.access }
  adfReadEntryBlock := readEntryBlock
  adfWriteEntryBlock := writeEntryBlock
  adfNameToEntryBlk := nameToEntryBlk
  adfFileOpen := fileOpen
  adfFileSeek := fileSeek
  adfFileRead := fileRead
  adfFileWrite := fileWrite
  adfFileTruncate := fileTruncate
  adfFileClose disk _ := disk
  byteSize := RamFile.size
  adfCreateDir := create .dir
  adfRemoveEntry := removeEntry
  adfCreateFile := create .file
  adfRenameEntry := renameEntry
  adfCountFreeBlocks _ := 1000
  sameName := sameName
  accMaskR := 8
  accMaskW := 4
  accMaskE := 2
  adfAccHasR access := access.getLsbD 3
  adfAccHasW access := access.getLsbD 2
  adfAccHasE access := access.getLsbD 1

/-! ## The contract is kept -/

theorem sameDirs_of_eq {disk disk' : RamDisk} (hdirs : disk'.dirs = disk.dirs)
    (hblocks : disk'.blocks = disk.blocks) : lib.SameDirs disk disk' := by
  intro dir name
  change disk'.changeDir dir name = disk.changeDir dir name
  have htarget : disk'.target = disk.target := by
    funext sector
    rw [target, target, hblocks]
  rw [changeDir, changeDir, find, find, hdirs, htarget]

/-- Replacing a block by one of the same type with the same link keeps all targets. -/
theorem target_putBlock {disk : RamDisk} {sector : Sector} {old new : AdfEntryBlock}
    (hold : disk.blocks sector = some old) (htype : new.secType = old.secType)
    (hreal : new.realEntry = old.realEntry) :
    (disk.putBlock sector new).target = disk.target := by
  funext other
  by_cases h : other = sector
  · subst h
    simp [target, putBlock, hold, htype, hreal]
  · simp [target, putBlock, h]

theorem readEntryBlock_eq_some {disk : RamDisk} {sector : Sector} {block : AdfEntryBlock}
    (h : disk.readEntryBlock sector = some block) :
    ∃ old, disk.blocks sector = some old ∧
      block = { old with hashTable := (disk.dirs sector).map Prod.snd } := by
  obtain ⟨old, hold, hblock⟩ := Option.map_eq_some_iff.mp h
  exact ⟨old, hold, hblock.symm⟩

/-- A block that can be read can be written. -/
theorem writeEntryBlock_eq {disk : RamDisk} {sector : Sector} {block : AdfEntryBlock}
    (h : disk.readEntryBlock sector = some block) (new : AdfEntryBlock) :
    disk.writeEntryBlock sector new = (disk.putBlock sector new, adfRcOk) := by
  obtain ⟨old, hold, _⟩ := readEntryBlock_eq_some h
  rw [writeEntryBlock, hold]
  rfl

theorem changeAccess_sameDirs {disk : RamDisk} {sector : Sector} {block : AdfEntryBlock}
    (access : BitVec 32) (h : disk.readEntryBlock sector = some block) :
    lib.SameDirs disk (disk.writeEntryBlock sector { block with access := access }).1 := by
  intro dir name
  obtain ⟨old, hold, hblock⟩ := readEntryBlock_eq_some h
  have htarget : (disk.putBlock sector { block with access := access }).target = disk.target :=
    target_putBlock hold (by rw [hblock]) (by rw [hblock])
  rw [writeEntryBlock_eq h]
  change changeDir (disk.putBlock sector { block with access := access }) dir name =
    disk.changeDir dir name
  rw [changeDir, changeDir, htarget]
  rfl

/-- Moving an entry away hides no other name of its directory, and the entry it becomes comes
after the names that were there. -/
theorem find_renameEntry {disk : RamDisk} {oldParent newParent dir next : Sector}
    {oldName newName name : CStr} (h : disk.find dir name = some next)
    (hother : ¬ (dir = oldParent ∧ sameName name oldName)) :
    (disk.renameEntry oldParent oldName newParent newName).1.find dir name = some next := by
  obtain ⟨cell, hcell, rfl⟩ := Option.map_eq_some_iff.mp h
  have hkept : ((disk.putDir oldParent
      ((disk.dirs oldParent).filter fun cell ↦ !sameName oldName cell.1)).dirs dir).find?
        (fun cell ↦ sameName name cell.1) = some cell := by
    by_cases hdir : dir = oldParent
    · subst hdir
      have hname : sameName name cell.1 = true := by
        simpa using List.find?_some hcell
      simp only [putDir, if_pos, List.find?_filter]
      rw [← hcell]
      congr 1
      funext other
      have hsame : sameName name other.1 = true → sameName oldName other.1 = false := by
        intro hmatch
        by_contra hold
        have hback := sameName_comm (eq_true_of_ne_false hold)
        exact hother ⟨rfl, sameName_trans hmatch hback⟩
      cases hmatch : sameName name other.1 with
      | false => simp
      | true => simp [hsame hmatch]
    · simpa [putDir, hdir] using hcell
  unfold renameEntry
  split
  · exact h
  · split_ifs with hrefused
    · exact h
    · simp only [find, putDir] at hkept ⊢
      by_cases hdir : dir = newParent
      · subst hdir
        simp only [if_pos, List.find?_append]
        rw [hkept]
        rfl
      · simp only [if_neg hdir]
        rw [hkept]
        rfl

theorem target_renameEntry (disk : RamDisk) (oldParent newParent : Sector)
    (oldName newName : CStr) :
    (disk.renameEntry oldParent oldName newParent newName).1.target = disk.target := by
  unfold renameEntry
  split
  · rfl
  · split_ifs
    · rfl
    · rename_i sector _ _
      funext other
      by_cases h : other = sector
      · subst h
        simp only [target, if_pos]
        cases disk.blocks other <;> rfl
      · simp [target, h]

theorem contents_create (type : AdfSecType) (disk : RamDisk) (parent : Sector) (name : CStr) :
    (create type disk parent name).1.contents = disk.contents := by
  unfold create
  split_ifs <;> rfl

/-- A file is opened as it is, or as one that has just been created. -/
theorem fileOpen_cases (disk : RamDisk) (dir : Sector) (name : CStr) (mode : AdfFileMode) :
    disk.fileOpen dir name mode = (disk, disk.openFile dir name) ∨
      mode = .write ∧ disk.find dir name = none ∧ disk.blocks disk.nextFree = none ∧
        disk.fileOpen dir name mode =
          ((create .file disk dir name).1, (create .file disk dir name).1.openFile dir name) := by
  unfold fileOpen
  split_ifs with hthere
  · exact Or.inl rfl
  · right
    push Not at hthere
    obtain ⟨hmode, hfind, hfree⟩ := hthere
    refine ⟨?_, by simpa using hfind, by simpa using hfree, rfl⟩
    cases mode with
    | read => exact absurd rfl hmode
    | write => rfl

theorem openFile_eq_some {disk : RamDisk} {dir : Sector} {name : CStr} {file : RamFile}
    (h : disk.openFile dir name = some file) :
    disk.find dir name = some file.sector ∧
      (disk.blocks file.sector).map AdfEntryBlock.secType = some .file := by
  obtain ⟨sector, hfind, hfile⟩ := Option.bind_eq_some_iff.mp h
  split_ifs at hfile with htype
  obtain rfl := Option.some.inj hfile
  exact ⟨hfind, htype⟩

/-- A file that is created where nothing is cannot be entered, and hides no directory. -/
theorem sameDirs_create_file {disk : RamDisk} (parent : Sector) (name : CStr)
    (hfree : disk.blocks disk.nextFree = none) :
    lib.SameDirs disk (create .file disk parent name).1 := by
  intro dir name'
  change (create .file disk parent name).1.changeDir dir name' = disk.changeDir dir name'
  by_cases hrefused : name = [] ∨ (disk.find parent name).isSome
  · rw [create, if_pos hrefused]
  · have htarget : (create .file disk parent name).1.target = disk.target := by
      funext sector
      rw [create, if_neg hrefused]
      by_cases hsector : sector = disk.nextFree
      · simp [target, putDir, putBlock, newBlock, hsector, hfree]
      · simp [target, putDir, putBlock, hsector]
    have hnone : disk.target disk.nextFree = none := by simp [target, hfree]
    rw [changeDir, changeDir, htarget, create, if_neg hrefused]
    split_ifs
    · rfl
    · by_cases hdir : dir = parent
      · subst hdir
        simp only [find, putDir, if_pos, List.find?_append]
        cases (disk.dirs dir).find? fun cell ↦ sameName name' cell.1 with
        | some cell => rfl
        | none =>
          by_cases hname : sameName name' name
          · simp [hname, hnone]
          · simp [hname]
      · simp [find, putDir, putBlock, hdir]

theorem directories : lib.Directories where
  fileOpen disk dir name mode := by
    change lib.SameDirs disk (disk.fileOpen dir name mode).1
    rcases disk.fileOpen_cases dir name mode with hsame | ⟨-, -, hfree, hcreated⟩
    · rw [hsame]
      exact sameDirs_of_eq rfl rfl
    · rw [hcreated]
      exact sameDirs_create_file dir name hfree
  fileSeek _ _ _ := sameDirs_of_eq rfl rfl
  fileRead _ _ _ := sameDirs_of_eq rfl rfl
  fileWrite disk file size buffer := by
    change lib.SameDirs disk (disk.fileWrite file size buffer).1
    unfold fileWrite
    dsimp only
    split_ifs <;> exact sameDirs_of_eq rfl rfl
  fileTruncate disk file size := by
    change lib.SameDirs disk (disk.fileTruncate file size).1
    unfold fileTruncate
    split_ifs <;> exact sameDirs_of_eq rfl rfl
  fileClose _ _ := sameDirs_of_eq rfl rfl
  changeAccess _ _ _ access h := changeAccess_sameDirs access h
  renameEntry disk oldParent oldName newParent newName dir name next h hother := by
    change changeDir (disk.renameEntry oldParent oldName newParent newName).1 dir name = some next
    have h' : disk.changeDir dir name = some next := h
    unfold changeDir at h' ⊢
    split_ifs at h' ⊢ with hname
    obtain ⟨sector, hfind, htarget⟩ := Option.bind_eq_some_iff.mp h'
    rw [find_renameEntry hfind hother, target_renameEntry]
    exact htarget

theorem entryBlocks : lib.EntryBlocks where
  read_same disk sector block access h _ := by
    obtain ⟨old, hold, hblock⟩ := readEntryBlock_eq_some h
    refine ⟨block.checkSum, ?_⟩
    change readEntryBlock (disk.writeEntryBlock sector { block with access := access }).1 sector = _
    rw [writeEntryBlock_eq h]
    simp [readEntryBlock, putBlock, hblock]
  read_other disk sector block access other h _ hother := by
    change readEntryBlock (disk.writeEntryBlock sector { block with access := access }).1 other =
      disk.readEntryBlock other
    rw [writeEntryBlock_eq h]
    simp [readEntryBlock, putBlock, hother]
  sameDirs _ _ _ access h := changeAccess_sameDirs access h
  getDirEnt disk sector block access dir h _ := by
    obtain ⟨old, hold, hblock⟩ := readEntryBlock_eq_some h
    change getDirEnt (disk.writeEntryBlock sector { block with access := access }).1 dir =
      (disk.getDirEnt dir).map (Adflib.relist sector access)
    rw [writeEntryBlock_eq h, getDirEnt, getDirEnt, List.map_filterMap]
    apply List.filterMap_congr
    intro cell _
    by_cases hcell : cell.2 = sector
    · by_cases htype : old.secType = .file ∨ old.secType = .dir <;>
        simp [entry, putBlock, hcell, hold, hblock, Adflib.relist, htype]
    · simp only [entry, putBlock, if_neg hcell]
      cases disk.blocks cell.2 <;> simp [Adflib.relist, hcell]

/-- A sector is its block and the flag that is kept for the whole volume; there are no checksums. -/
def rawBlocks : lib.RawBlocks (ℤ × Option AdfEntryBlock) where
  raw disk sector := (disk.bmFlag, disk.readEntryBlock sector)
  replace raw access checkSum :=
    (raw.1, raw.2.map ({ · with access := access, checkSum := checkSum }))
  sum := AdfEntryBlock.checkSum
  replace_eq_self disk sector block access checkSum h := by
    have hread : disk.readEntryBlock sector = some block := h
    cases block
    simp [hread, and_comm]
  readRoot disk disk' sector h := by
    obtain ⟨hflag, hblock⟩ := Prod.mk.inj h
    change (disk'.readEntryBlock sector).map (AdfRootBlock.mk disk'.bmFlag) =
      (disk.readEntryBlock sector).map (AdfRootBlock.mk disk.bmFlag)
    rw [hflag, hblock]
  write_same disk sector block access h _ := by
    have hread : disk.readEntryBlock sector = some block := h
    obtain ⟨old, hold, hblock⟩ := readEntryBlock_eq_some h
    change ((disk.writeEntryBlock sector { block with access := access }).1.bmFlag,
      (disk.writeEntryBlock sector { block with access := access }).1.readEntryBlock sector) = _
    rw [writeEntryBlock_eq h, hread]
    simp [readEntryBlock, putBlock, hblock]
  write_other disk sector block access other h hother := by
    change ((disk.writeEntryBlock sector { block with access := access }).1.bmFlag,
      (disk.writeEntryBlock sector { block with access := access }).1.readEntryBlock other) = _
    rw [writeEntryBlock_eq h]
    simp [readEntryBlock, putBlock, hother]
  write_failed disk sector block access h hfailed := by
    have hwrite := writeEntryBlock_eq h { block with access := access }
    exact absurd (congrArg Prod.snd hwrite) hfailed

theorem accessBits : lib.AccessBits 3 2 1 where
  r_ne_w := by decide
  r_ne_e := by decide
  w_ne_e := by decide
  maskR := by decide
  maskW := by decide
  maskE := by decide
  hasR _ := rfl
  hasW _ := rfl
  hasE _ := rfl

/-- The bytes of a file are those stored at its sector, whether it is open or not. -/
def files : lib.Files where
  header := RamFile.sector
  position := RamFile.position
  bytes disk file := (disk.contents file.sector).1
  stored disk sector := (disk.contents sector).1
  open_bytes disk dir name mode file _ := by
    change ((disk.fileOpen dir name mode).1.contents file.sector).1 = _
    rcases disk.fileOpen_cases dir name mode with hsame | ⟨-, -, -, hcreated⟩
    · rw [hsame]
    · rw [hcreated, contents_create]
  seek_header _ _ _ := rfl
  seek_bytes _ _ _ := rfl
  seek_position _ _ _ _ := rfl
  read_header _ _ _ := rfl
  read_bytes _ _ _ := rfl
  read_count disk file n := by
    simp only [lib, fileRead, List.length_take, List.length_drop, BitVec.toNat_ofNat]
    omega
  read_output disk file n := by
    have := n.isLt
    simp only [lib, fileRead, BitVec.toNat_ofNat]
    rw [Nat.mod_eq_of_lt (by simp only [List.length_take]; omega)]
    simp
  read_length disk file n := by
    have := n.isLt
    simp only [lib, fileRead, BitVec.toNat_ofNat]
    rw [Nat.mod_eq_of_lt (by simp only [List.length_take]; omega)]
  write_header disk file n buffer := by
    simp only [lib, fileWrite]
    split_ifs <;> rfl
  write_count disk file n buffer := by
    simp only [lib, fileWrite]
    split_ifs <;> simp
  write_bytes disk file n buffer hlength := by
    simp only [lib, fileWrite]
    split_ifs
    · simp [putContent]
    · simp
  truncate_header disk file n := by
    simp only [lib, fileTruncate]
    split_ifs <;> rfl
  truncate_bytes disk file n h := by
    simp only [lib, fileTruncate] at h ⊢
    split_ifs at h ⊢
    · simp [putContent]
    · exact absurd h failed_ne_ok
  truncate_fail disk file n h := by
    simp only [lib, fileTruncate] at h ⊢
    split_ifs at h ⊢
    · exact absurd rfl h
    · rfl
  close_stored _ _ := rfl

/-- Every entry of a directory has a block with its name, and no two have the same name. -/
structure Consistent (disk : RamDisk) : Prop where
  named : ∀ dir, ∀ cell ∈ disk.dirs dir, (disk.blocks cell.2).map AdfEntryBlock.name = some cell.1
  unique : ∀ dir, (disk.dirs dir).Pairwise fun cell cell' ↦ ¬ sameName cell.1 cell'.1

/-- What the listing shows of a name in a table. -/
theorem entry_eq {disk : RamDisk} (dir : Sector) {cell : CStr × Sector} {block : AdfEntryBlock}
    (h : disk.blocks cell.2 = some block) :
    ∃ entry, disk.entry dir cell = some entry ∧ entry.name = cell.1 ∧ entry.type = block.secType ∧
      entry.sector = cell.2 ∧ entry.real = block.realEntry := by
  rw [RamDisk.entry, h]
  exact ⟨_, rfl, rfl, rfl, rfl, rfl⟩

theorem entry_name {disk : RamDisk} {dir : Sector} {cell : CStr × Sector} {entry : AdfEntry}
    (h : disk.entry dir cell = some entry) : entry.name = cell.1 := by
  obtain ⟨block, _, rfl⟩ := Option.map_eq_some_iff.mp h
  rfl

theorem entry_bind_read (disk : RamDisk) (dir : Sector) (cell : CStr × Sector) :
    ((disk.entry dir cell).bind fun entry ↦ disk.readEntryBlock entry.sector) =
      disk.readEntryBlock cell.2 := by
  cases h : disk.blocks cell.2 with
  | none => simp [RamDisk.entry, readEntryBlock, h]
  | some block =>
    obtain ⟨entry, hentry, -, -, hsector, -⟩ := entry_eq dir h
    rw [hentry, Option.bind_some, hsector]

/-- The listing shows every cell under its name. -/
theorem find?_filterMap_entry {disk : RamDisk} (dir : Sector) (name : CStr)
    {cells : List (CStr × Sector)}
    (h : ∀ cell ∈ cells, (disk.blocks cell.2).map AdfEntryBlock.name = some cell.1) :
    (cells.filterMap (disk.entry dir)).find? (fun entry ↦ sameName name entry.name) =
      (cells.find? fun cell ↦ sameName name cell.1).bind (disk.entry dir) := by
  induction cells with
  | nil => rfl
  | cons cell cells ih =>
    obtain ⟨block, hblock, _⟩ := Option.map_eq_some_iff.mp (h cell List.mem_cons_self)
    obtain ⟨entry, hsome, hname, -⟩ := entry_eq dir hblock
    rw [List.filterMap_cons_some hsome, List.find?_cons, List.find?_cons, hname,
      ih fun other hother ↦ h other (List.mem_cons_of_mem cell hother)]
    cases sameName name cell.1 with
    | true => exact hsome.symm
    | false => rfl

/-- A hash table leads to the blocks by the names in them. -/
theorem findSome?_blocks {disk : RamDisk} (name : CStr) {cells : List (CStr × Sector)}
    (h : ∀ cell ∈ cells, (disk.blocks cell.2).map AdfEntryBlock.name = some cell.1) :
    disk.nameToEntryBlk (cells.map Prod.snd) name =
      (cells.find? fun cell ↦ sameName name cell.1).bind fun cell ↦
        disk.readEntryBlock cell.2 := by
  induction cells with
  | nil => rfl
  | cons cell cells ih =>
    obtain ⟨block, hblock, hname⟩ := Option.map_eq_some_iff.mp (h cell List.mem_cons_self)
    have hread : disk.readEntryBlock cell.2 =
        some { block with hashTable := (disk.dirs cell.2).map Prod.snd } := by
      rw [readEntryBlock, hblock]
      rfl
    have hrest := ih fun other hother ↦ h other (List.mem_cons_of_mem cell hother)
    rw [nameToEntryBlk] at hrest ⊢
    rw [List.map_cons, List.findSome?_cons, List.find?_cons, hread, hrest]
    cases hsame : sameName name cell.1 with
    | true => simp [Option.filter_some, hname, hsame, hread]
    | false => simp [Option.filter_some, hname, hsame]

theorem lookupName_eq {disk : RamDisk} (h : disk.Consistent) (dir : Sector) (name : CStr) :
    lib.lookupName disk dir name =
      ((disk.dirs dir).find? fun cell ↦ sameName name cell.1).bind (disk.entry dir) :=
  find?_filterMap_entry dir name (h.named dir)

theorem nameLookup {disk : RamDisk} (h : disk.Consistent) : lib.NameLookup disk where
  refl _ := by
    change sameName _ _ = true
    rw [sameName, beq_iff_eq]
  symm _ _ := sameName_comm
  trans _ _ _ := sameName_trans
  unique dir := by
    apply List.pairwise_filterMap.mpr
    refine (h.unique dir).imp ?_
    intro cell cell' hne entry hentry entry' hentry'
    rw [entry_name hentry, entry_name hentry']
    exact hne
  nameToEntryBlk dir parent name hparent := by
    obtain ⟨old, hold, rfl⟩ := readEntryBlock_eq_some hparent
    rw [lookupName_eq h, Option.bind_assoc]
    refine (findSome?_blocks name (h.named dir)).trans ?_
    congr 1
    funext cell
    exact (entry_bind_read disk dir cell).symm
  changeDir dir name next hnext := by
    have hchange : disk.changeDir dir name = some next := hnext
    rw [changeDir] at hchange
    split_ifs at hchange
    obtain ⟨sector, hfind, htarget⟩ := Option.bind_eq_some_iff.mp hchange
    obtain ⟨cell, hcell, rfl⟩ := Option.map_eq_some_iff.mp hfind
    obtain ⟨block, hblock, hnext⟩ := Option.bind_eq_some_iff.mp htarget
    obtain ⟨entry, hentry, -, htype, hsector, hreal⟩ := entry_eq dir hblock
    refine ⟨entry, ?_, ?_⟩
    · rw [lookupName_eq h, hcell]
      exact hentry
    · rw [htype, hsector, hreal]
      split at hnext
      · exact Or.inl ⟨‹_›, (Option.some.inj hnext).symm⟩
      · exact Or.inr ⟨‹_›, (Option.some.inj hnext).symm⟩
      · exact absurd hnext (by simp)
  changeDir_nil _ := rfl
  fileOpen dir name hopen := by
    obtain ⟨file, hfile⟩ := Option.isSome_iff_exists.mp hopen
    obtain ⟨hfind, htype⟩ := openFile_eq_some hfile
    obtain ⟨cell, hcell, hsector⟩ := Option.map_eq_some_iff.mp hfind
    obtain ⟨block, hblock, -⟩ := Option.map_eq_some_iff.mp htype
    rw [← hsector] at hblock
    obtain ⟨entry, hentry, -⟩ := entry_eq dir hblock
    rw [lookupName_eq h, hcell, Option.bind_some, hentry]
    rfl

/-! ## A small volume -/

/-- A file `foo` and two directories in the root, `Plot` with a file `map` and `Attic` with
nothing. -/
def sample : RamDisk where
  bmFlag := -1
  dirs sector :=
    if sector = 880 then [("Plot".toList, 882), ("foo".toList, 883), ("Attic".toList, 885)]
    else if sector = 882 then [("map".toList, 884)]
    else []
  blocks sector :=
    if sector = 880 then some (newBlock .root "Disk".toList)
    else if sector = 882 then some (newBlock .dir "Plot".toList)
    else if sector = 883 then some (newBlock .file "foo".toList)
    else if sector = 884 then some (newBlock .file "map".toList)
    else if sector = 885 then some (newBlock .dir "Attic".toList)
    else none
  contents sector := if sector = 883 then ⟨[70, 79, 79], by decide⟩ else ⟨[], by decide⟩
  nextFree := 886

theorem consistent_sample : sample.Consistent where
  named dir cell hcell := by
    simp only [sample] at hcell
    split_ifs at hcell
    · simp only [List.mem_cons, List.not_mem_nil, or_false] at hcell
      rcases hcell with rfl | rfl | rfl <;> decide
    · rw [List.mem_singleton.mp hcell]
      decide
    · exact absurd hcell List.not_mem_nil
  unique dir := by
    simp only [sample]
    split_ifs <;> decide

/-- Only sectors that are listed are entered. -/
theorem two_le_of_changeDir {disk : RamDisk} (h : disk.Consistent) {dir : Sector}
    (hlisted : ∀ entry ∈ disk.getDirEnt dir, entry.type ≠ .ldir ∧ 2 ≤ entry.sector)
    (name : CStr) (next : Sector) (hchange : disk.changeDir dir name = some next) : 2 ≤ next := by
  obtain ⟨entry, hentry, hnext⟩ := (nameLookup h).changeDir dir name next hchange
  obtain ⟨htype, hlow⟩ := hlisted entry (List.mem_of_find?_eq_some hentry)
  rcases hnext with ⟨-, rfl⟩ | ⟨hlink, -⟩
  · exact hlow
  · exact absurd hlink htype

theorem two_le_of_changeDir_sample (dir : Sector) (name : CStr) (next : Sector)
    (h : sample.changeDir dir name = some next) : 2 ≤ next := by
  apply two_le_of_changeDir consistent_sample ?_ name next h
  by_cases hroot : dir = 880
  · subst hroot
    decide +kernel
  · by_cases hplot : dir = 882
    · subst hplot
      decide +kernel
    · have hempty : sample.dirs dir = [] := by
        rw [sample]
        simp only [if_neg hroot, if_neg hplot]
      simp [getDirEnt, hempty]

/-- The volume as `adfimage_open` leaves it. -/
def mounted : Adfimage RamDisk where
  vol :=
    { image := sample
      rootBlock := 880
      curDirPtr := 880
      readOnly := false
      datablockSize := 512
      firstBlock := 0
      lastBlock := 1759 }
  cwd := ['/']
  stBlksize := 512
  calls := []

end RamDisk

end FuseAdf
