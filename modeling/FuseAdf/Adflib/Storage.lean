import FuseAdf.Adflib.RamDisk

/-!
# What the calls do to files that are there

`Files` says what happens to the bytes of the file that a call works on.  `Storage` says what happens
to all the others, where names come to lead, and that entries which are created take up no place that
is in use.  It is said of sound images only, and every call leaves a sound image.
-/

namespace FuseAdf

namespace Adflib

variable {Image File : Type} {L : Adflib Image File}

/-- From where the calls look, the second image has the files of the first, and only the bytes at
`own` may be different. -/
structure Keeps (files : L.Files) (locate : Image → Sector → CStr → Option Sector)
    (own : Option Sector) (image image' : Image) : Prop where
  sameDirs : L.SameDirs image image'
  locate_eq : ∀ dir name, locate image' dir name = locate image dir name
  stored_eq : ∀ sector, own ≠ some sector → files.stored image' sector = files.stored image sector

/-- A file that is there keeps its bytes, and its name stays the name of this file only. -/
def KeepsFile (files : L.Files) (locate : Image → Sector → CStr → Option Sector) (sector : Sector)
    (image image' : Image) : Prop :=
  (∀ dir name, locate image' dir name = some sector ↔ locate image dir name = some sector) ∧
    files.stored image' sector = files.stored image sector

/-- Directories are found as before, and so is the file at `sector`, which has other bytes only if it
is `own`. -/
structure KeepsAt (files : L.Files) (locate : Image → Sector → CStr → Option Sector)
    (sector : Sector) (own : Option Sector) (image image' : Image) : Prop where
  sameDirs : L.SameDirs image image'
  locate_iff : ∀ dir name, locate image' dir name = some sector ↔ locate image dir name = some sector
  stored_eq : own ≠ some sector → files.stored image' sector = files.stored image sector

/-- A sector is the header of the file that a name leads to. -/
def Located (locate : Image → Sector → CStr → Option Sector) (image : Image) (sector : Sector) : Prop :=
  ∃ dir name, locate image dir name = some sector

/-- The effect of every call that changes an image on the files that are there.  A file that is missing
may be created when it is opened. -/
structure Storage (files : L.Files) where
  Sound : Image → Prop
  /-- The file that a name of a directory leads to, whether it may be opened or not. -/
  locate : Image → Sector → CStr → Option Sector
  open_locate : ∀ image dir name mode file, Sound image →
    (L.adfFileOpen image dir name mode).2 = some file →
    locate (L.adfFileOpen image dir name mode).1 dir name = some (files.header file)
  fileOpen : ∀ image dir name mode, Sound image →
    Sound (L.adfFileOpen image dir name mode).1 ∧
      L.SameDirs image (L.adfFileOpen image dir name mode).1 ∧
      ∀ sector, Located locate image sector →
        KeepsFile files locate sector image (L.adfFileOpen image dir name mode).1
  fileSeek : ∀ image file position, Sound image →
    Sound (L.adfFileSeek image file position).1 ∧
      Keeps files locate (some (files.header file)) image (L.adfFileSeek image file position).1
  fileRead : ∀ image file size, Sound image →
    Sound (L.adfFileRead image file size).1 ∧
      Keeps files locate (some (files.header file)) image (L.adfFileRead image file size).1
  fileWrite : ∀ image file size buffer, Sound image →
    Sound (L.adfFileWrite image file size buffer).1 ∧
      Keeps files locate (some (files.header file)) image (L.adfFileWrite image file size buffer).1
  fileTruncate : ∀ image file size, Sound image →
    Sound (L.adfFileTruncate image file size).1 ∧
      Keeps files locate (some (files.header file)) image (L.adfFileTruncate image file size).1
  fileClose : ∀ image file, Sound image →
    Sound (L.adfFileClose image file) ∧
      Keeps files locate (some (files.header file)) image (L.adfFileClose image file)
  changeAccess : ∀ image sector block access, Sound image →
    L.adfReadEntryBlock image sector = some block →
    Sound (L.adfWriteEntryBlock image sector { block with access := access }).1 ∧
      Keeps files locate none image
        (L.adfWriteEntryBlock image sector { block with access := access }).1
  createFile : ∀ image parent name, Sound image →
    Sound (L.adfCreateFile image parent name).1 ∧
      L.SameDirs image (L.adfCreateFile image parent name).1 ∧
      ∀ sector, Located locate image sector →
        KeepsFile files locate sector image (L.adfCreateFile image parent name).1
  createDir : ∀ image parent name, Sound image →
    Sound (L.adfCreateDir image parent name).1 ∧
      (∀ dir name' next, L.adfChangeDir image dir name' = some next →
        L.adfChangeDir (L.adfCreateDir image parent name).1 dir name' = some next) ∧
      ∀ sector, Located locate image sector →
        KeepsFile files locate sector image (L.adfCreateDir image parent name).1
  removeEntry : ∀ image parent name, Sound image →
    Sound (L.adfRemoveEntry image parent name).1 ∧
      ∀ sector, Located locate image sector → locate image parent name ≠ some sector →
        Located locate (L.adfRemoveEntry image parent name).1 sector ∧
        files.stored (L.adfRemoveEntry image parent name).1 sector = files.stored image sector
  renameEntry : ∀ image oldParent oldName newParent newName, Sound image →
    Sound (L.adfRenameEntry image oldParent oldName newParent newName).1 ∧
      ∀ sector, Located locate image sector →
        Located locate (L.adfRenameEntry image oldParent oldName newParent newName).1 sector ∧
        files.stored (L.adfRenameEntry image oldParent oldName newParent newName).1 sector =
          files.stored image sector

variable {files : L.Files} {locate : Image → Sector → CStr → Option Sector} {own : Option Sector}
  {image between image' : Image}

theorem Keeps.refl : Keeps files locate own image image where
  sameDirs _ _ := rfl
  locate_eq _ _ := rfl
  stored_eq _ _ := rfl

variable {sector : Sector}

theorem Keeps.keepsAt (h : Keeps files locate own image image') :
    KeepsAt files locate sector own image image' where
  sameDirs := h.sameDirs
  locate_iff dir name := by rw [h.locate_eq]
  stored_eq := h.stored_eq sector

theorem KeepsFile.keepsAt (h : KeepsFile files locate sector image image')
    (hdirs : L.SameDirs image image') : KeepsAt files locate sector none image image' where
  sameDirs := hdirs
  locate_iff := h.1
  stored_eq _ := h.2

/-- Nothing is changed, in particular not at `own`. -/
theorem KeepsAt.weaken (h : KeepsAt files locate sector none image image') :
    KeepsAt files locate sector own image image' where
  sameDirs := h.sameDirs
  locate_iff := h.locate_iff
  stored_eq _ := h.stored_eq (by simp)

theorem KeepsAt.trans (h : KeepsAt files locate sector own image between)
    (h' : KeepsAt files locate sector own between image') :
    KeepsAt files locate sector own image image' where
  sameDirs dir name := (h'.sameDirs dir name).trans (h.sameDirs dir name)
  locate_iff dir name := (h'.locate_iff dir name).trans (h.locate_iff dir name)
  stored_eq hother := (h'.stored_eq hother).trans (h.stored_eq hother)

theorem Located.keep (h : Located locate image sector)
    (hkeeps : ∀ dir name, locate image' dir name = some sector ↔ locate image dir name = some sector) :
    Located locate image' sector := by
  obtain ⟨dir, name, hname⟩ := h
  exact ⟨dir, name, (hkeeps dir name).mpr hname⟩

end Adflib

namespace RamDisk

/-! ## The library in memory -/

/-- The sector of a file that a name leads to. -/
def locate (disk : RamDisk) (dir : Sector) (name : CStr) : Option Sector :=
  (disk.find dir name).filter fun sector ↦ (disk.blocks sector).map AdfEntryBlock.secType = some .file

/-- New entries get sectors that no entry has, and no two entries of a directory have the same name. -/
structure Sound (disk : RamDisk) : Prop where
  used : ∀ dir, ∀ cell ∈ disk.dirs dir, cell.2 < disk.nextFree
  unique : ∀ dir, (disk.dirs dir).Pairwise fun cell cell' ↦ ¬ sameName cell.1 cell'.1

variable {disk disk' : RamDisk} {dir sector : Sector} {name : CStr}

theorem locate_eq_some_iff :
    disk.locate dir name = some sector ↔ disk.find dir name = some sector ∧
      (disk.blocks sector).map AdfEntryBlock.secType = some .file := by
  simp [locate, Option.filter_eq_some_iff]

theorem find_congr {name' : CStr} (h : sameName name name') : disk.find dir name = disk.find dir name' := by
  rw [sameName, beq_iff_eq] at h
  simp only [find, sameName, h]

theorem find_eq_none_iff : disk.find dir name = none ↔ ∀ cell ∈ disk.dirs dir, ¬ sameName name cell.1 := by
  simp [find]

theorem Sound.lt_nextFree (h : disk.Sound) (hfind : disk.find dir name = some sector) :
    sector < disk.nextFree := by
  obtain ⟨cell, hcell, rfl⟩ := Option.map_eq_some_iff.mp hfind
  exact h.used dir cell (List.mem_of_find?_eq_some hcell)

theorem lt_nextFree_of_located (h : disk.Sound) (hlocated : Adflib.Located locate disk sector) :
    sector < disk.nextFree := by
  obtain ⟨dir, name, hname⟩ := hlocated
  exact h.lt_nextFree (locate_eq_some_iff.mp hname).1

theorem sound_of_eq (h : disk.Sound) (hdirs : disk'.dirs = disk.dirs)
    (hfree : disk'.nextFree = disk.nextFree) : disk'.Sound where
  used := by rw [hdirs, hfree]; exact h.used
  unique := by rw [hdirs]; exact h.unique

theorem keeps_of_eq (hdirs : disk'.dirs = disk.dirs) (hblocks : disk'.blocks = disk.blocks)
    {own : Option Sector}
    (hcontents : ∀ sector, own ≠ some sector → disk'.contents sector = disk.contents sector) :
    Adflib.Keeps files locate own disk disk' where
  sameDirs := sameDirs_of_eq hdirs hblocks
  locate_eq dir name := by simp only [locate, find, hdirs, hblocks]
  stored_eq sector hother := congrArg Subtype.val (hcontents sector hother)

theorem fileWrite_keeps (h : disk.Sound) (file : RamFile) (size : BitVec 32) (buffer : List UInt8) :
    (disk.fileWrite file size buffer).1.Sound ∧
      Adflib.Keeps files locate (some file.sector) disk (disk.fileWrite file size buffer).1 := by
  unfold fileWrite
  dsimp only
  split_ifs
  · refine ⟨sound_of_eq h ?_ ?_, keeps_of_eq ?_ ?_ fun sector hother ↦ ?_⟩
    · rfl
    · rfl
    · rfl
    · rfl
    · exact if_neg fun hsame ↦ hother (congrArg some hsame.symm)
  · exact ⟨h, .refl⟩

theorem fileTruncate_keeps (h : disk.Sound) (file : RamFile) (size : BitVec 32) :
    (disk.fileTruncate file size).1.Sound ∧
      Adflib.Keeps files locate (some file.sector) disk (disk.fileTruncate file size).1 := by
  unfold fileTruncate
  split_ifs
  · refine ⟨sound_of_eq h ?_ ?_, keeps_of_eq ?_ ?_ fun sector hother ↦ ?_⟩
    · rfl
    · rfl
    · rfl
    · rfl
    · exact if_neg fun hsame ↦ hother (congrArg some hsame.symm)
  · exact ⟨h, .refl⟩

theorem changeAccess_keeps (h : disk.Sound) {block : AdfEntryBlock} (access : BitVec 32)
    (hread : disk.readEntryBlock sector = some block) :
    (disk.writeEntryBlock sector { block with access := access }).1.Sound ∧
      Adflib.Keeps files locate none disk
        (disk.writeEntryBlock sector { block with access := access }).1 := by
  have hdirs := changeAccess_sameDirs access hread
  obtain ⟨old, hold, hblock⟩ := readEntryBlock_eq_some hread
  have htype (other : Sector) :
      ((disk.putBlock sector { block with access := access }).blocks other).map AdfEntryBlock.secType =
        (disk.blocks other).map AdfEntryBlock.secType := by
    by_cases hother : other = sector
    · simp [putBlock, hother, hold, hblock]
    · simp [putBlock, hother]
  rw [writeEntryBlock_eq hread] at hdirs ⊢
  refine ⟨sound_of_eq h rfl rfl, hdirs, fun dir name ↦ ?_, fun _ _ ↦ rfl⟩
  simp only [locate, htype]
  rfl

theorem create_of_refused {type : AdfSecType} {parent : Sector}
    (h : name = [] ∨ (disk.find parent name).isSome) : create type disk parent name = (disk, failed) :=
  if_pos h

theorem find_append (parent added : Sector) (name : CStr) (dir : Sector) (name' : CStr) :
    (disk.putDir parent (disk.dirs parent ++ [(name, added)])).find dir name' =
      (disk.find dir name').or (if dir = parent ∧ sameName name' name then some added else none) := by
  by_cases hdir : dir = parent
  · subst hdir
    simp [find, putDir, List.find?_append, Option.map_or]
  · simp [find, putDir, hdir]

/-- A new name for a sector that is in use. -/
theorem sound_append (h : disk.Sound) {parent added : Sector} (hadded : added < disk.nextFree)
    (hnew : disk.find parent name = none) :
    (disk.putDir parent (disk.dirs parent ++ [(name, added)])).Sound := by
  constructor
  · intro dir cell hcell
    dsimp only [putDir] at hcell ⊢
    split_ifs at hcell
    · rcases List.mem_append.mp hcell with hold | hlast
      · exact h.used parent cell hold
      · rw [List.mem_singleton.mp hlast]
        exact hadded
    · exact h.used dir cell hcell
  · intro dir
    dsimp only [putDir]
    split_ifs
    · refine List.pairwise_append.mpr ⟨h.unique parent, List.pairwise_singleton _ _, ?_⟩
      intro cell hcell other hother hsame
      rw [List.mem_singleton.mp hother] at hsame
      exact find_eq_none_iff.mp hnew cell hcell (sameName_comm hsame)
    · exact h.unique dir

theorem find_create {type : AdfSecType} {parent : Sector}
    (h : ¬ (name = [] ∨ (disk.find parent name).isSome)) (dir : Sector) (name' : CStr) :
    (create type disk parent name).1.find dir name' = (disk.find dir name').or
      (if dir = parent ∧ sameName name' name then some disk.nextFree else none) := by
  rw [create, if_neg h]
  exact find_append parent disk.nextFree name dir name'

theorem blocks_create {type : AdfSecType} {parent : Sector} (h : sector < disk.nextFree) :
    (create type disk parent name).1.blocks sector = disk.blocks sector := by
  rw [create]
  split_ifs
  · rfl
  · exact if_neg (Int.ne_of_lt h)

theorem sound_create (type : AdfSecType) (h : disk.Sound) (parent : Sector) (name : CStr) :
    (create type disk parent name).1.Sound := by
  by_cases hrefused : name = [] ∨ (disk.find parent name).isSome
  · rw [create_of_refused hrefused]
    exact h
  · have hnew : disk.find parent name = none := by
      simpa using fun hsome ↦ hrefused (Or.inr hsome)
    have hlarger : ({ disk with nextFree := disk.nextFree + 1 }.putBlock disk.nextFree
        (newBlock type name)).Sound :=
      { used := fun dir cell hcell ↦ Int.lt_trans (h.used dir cell hcell) (Int.lt_succ _)
        unique := h.unique }
    rw [create, if_neg hrefused]
    exact sound_append hlarger (Int.lt_succ disk.nextFree) hnew

/-- Where an entry is created, the files that are there are found under the names they had. -/
theorem keepsFile_create (type : AdfSecType) (h : disk.Sound) (parent : Sector) (name : CStr)
    (hlocated : Adflib.Located locate disk sector) :
    Adflib.KeepsFile files locate sector disk (create type disk parent name).1 := by
  have hlt := lt_nextFree_of_located h hlocated
  refine ⟨fun dir name' ↦ ?_, ?_⟩
  · rw [locate_eq_some_iff, locate_eq_some_iff, blocks_create hlt]
    refine and_congr_left fun _ ↦ ?_
    by_cases hrefused : name = [] ∨ (disk.find parent name).isSome
    · rw [create_of_refused hrefused]
    · rw [find_create hrefused]
      cases disk.find dir name' with
      | some other => simp
      | none =>
        have hne : disk.nextFree ≠ sector := (Int.ne_of_lt hlt).symm
        simp [hne]
  · rw [create]
    split_ifs <;> rfl

/-- A name that leads to a directory leads there also after the creation. -/
theorem changeDir_create (type : AdfSecType) (h : disk.Sound) (parent : Sector) (name : CStr)
    {next : Sector} {name' : CStr} (hchange : disk.changeDir dir name' = some next) :
    (create type disk parent name).1.changeDir dir name' = some next := by
  by_cases hrefused : name = [] ∨ (disk.find parent name).isSome
  · rw [create_of_refused hrefused]
    exact hchange
  · unfold changeDir at hchange ⊢
    split_ifs at hchange ⊢ with hname
    obtain ⟨other, hfind, htarget⟩ := Option.bind_eq_some_iff.mp hchange
    rw [find_create hrefused, hfind, Option.some_or, Option.bind_some, target,
      blocks_create (h.lt_nextFree hfind)]
    exact htarget

/-- A new file cannot be entered. -/
theorem sameDirs_createFile (h : disk.Sound) (parent : Sector) (name : CStr) :
    lib.SameDirs disk (create .file disk parent name).1 := by
  intro dir name'
  change (create .file disk parent name).1.changeDir dir name' = disk.changeDir dir name'
  by_cases hrefused : name = [] ∨ (disk.find parent name).isSome
  · rw [create_of_refused hrefused]
  · have hnew : (create .file disk parent name).1.target disk.nextFree = none := by
      rw [create, if_neg hrefused]
      simp [target, putDir, putBlock, newBlock]
    rw [changeDir, changeDir, find_create hrefused]
    cases hfind : disk.find dir name' with
    | some other =>
      rw [Option.some_or, Option.bind_some, Option.bind_some, target, target,
        blocks_create (h.lt_nextFree hfind)]
    | none => split_ifs <;> simp [hnew]

/-- Taking a name out of a directory hides no other name. -/
theorem find_filter {parent : Sector} {removed : CStr} (hother : ¬ (dir = parent ∧ sameName name removed)) :
    (disk.putDir parent ((disk.dirs parent).filter fun cell ↦ !sameName removed cell.1)).find dir name =
      disk.find dir name := by
  by_cases hdir : dir = parent
  · subst hdir
    simp only [find, putDir, if_pos, List.find?_filter]
    congr 2
    funext cell
    cases hmatch : sameName name cell.1 with
    | false => simp
    | true =>
      have hkept : sameName removed cell.1 = false := by
        by_contra hsame
        have hback := sameName_comm (eq_true_of_ne_false hsame)
        exact hother ⟨rfl, sameName_trans hmatch hback⟩
      simp [hkept]
  · simp [find, putDir, hdir]

theorem sound_filter (h : disk.Sound) (parent : Sector) (removed : CStr) :
    (disk.putDir parent ((disk.dirs parent).filter fun cell ↦ !sameName removed cell.1)).Sound := by
  constructor
  · intro dir cell hcell
    dsimp only [putDir] at hcell ⊢
    split_ifs at hcell
    · exact h.used parent cell (List.mem_of_mem_filter hcell)
    · exact h.used dir cell hcell
  · intro dir
    dsimp only [putDir]
    split_ifs
    · exact (h.unique parent).filter _
    · exact h.unique dir

theorem removeEntry_keeps (h : disk.Sound) (parent : Sector) (name : CStr) :
    (disk.removeEntry parent name).1.Sound ∧
      ∀ sector, Adflib.Located locate disk sector → disk.locate parent name ≠ some sector →
        Adflib.Located locate (disk.removeEntry parent name).1 sector ∧
        files.stored (disk.removeEntry parent name).1 sector = files.stored disk sector := by
  rw [removeEntry]
  cases hfind : disk.find parent name with
  | none => exact ⟨h, fun sector hlocated _ ↦ ⟨hlocated, rfl⟩⟩
  | some removed =>
    dsimp only
    split_ifs
    · refine ⟨sound_filter h parent name, fun sector hlocated hother ↦ ⟨?_, rfl⟩⟩
      obtain ⟨dir, name', hname⟩ := hlocated
      obtain ⟨hfile, htype⟩ := locate_eq_some_iff.mp hname
      refine ⟨dir, name', locate_eq_some_iff.mpr ⟨?_, htype⟩⟩
      rw [find_filter]
      · exact hfile
      · rintro ⟨rfl, hsame⟩
        rw [find_congr hsame] at hfile
        exact hother (locate_eq_some_iff.mpr ⟨hfile, htype⟩)
    · exact ⟨h, fun sector hlocated _ ↦ ⟨hlocated, rfl⟩⟩

theorem renameEntry_keeps (h : disk.Sound) (oldParent : Sector) (oldName : CStr) (newParent : Sector)
    (newName : CStr) :
    (disk.renameEntry oldParent oldName newParent newName).1.Sound ∧
      ∀ sector, Adflib.Located locate disk sector →
        Adflib.Located locate (disk.renameEntry oldParent oldName newParent newName).1 sector ∧
        files.stored (disk.renameEntry oldParent oldName newParent newName).1 sector =
          files.stored disk sector := by
  cases hfind : disk.find oldParent oldName with
  | none =>
    simp only [renameEntry, hfind]
    exact ⟨h, fun sector hlocated ↦ ⟨hlocated, trivial⟩⟩
  | some moved =>
    by_cases hrefused : newName = [] ∨ (disk.find newParent newName).isSome
    · simp only [renameEntry, hfind, if_pos hrefused]
      exact ⟨h, fun sector hlocated ↦ ⟨hlocated, trivial⟩⟩
    · have hnone : disk.find newParent newName = none := by
        simpa using fun hsome ↦ hrefused (Or.inr hsome)
      have hremoved := sound_filter h oldParent oldName
      have hfree : (disk.putDir oldParent
          ((disk.dirs oldParent).filter fun cell ↦ !sameName oldName cell.1)).find newParent newName =
            none := by
        refine find_eq_none_iff.mpr fun cell hcell ↦ find_eq_none_iff.mp hnone cell ?_
        dsimp only [putDir] at hcell
        split_ifs at hcell with hsame
        · exact hsame ▸ List.mem_of_mem_filter hcell
        · exact hcell
      have htype (other : Sector) :
          (if other = moved then (disk.blocks moved).map ({ · with name := newName })
            else disk.blocks other).map AdfEntryBlock.secType =
          (disk.blocks other).map AdfEntryBlock.secType := by
        split_ifs with hother
        · rw [hother, Option.map_map]
          rfl
        · rfl
      simp only [renameEntry, hfind, if_neg hrefused]
      refine ⟨sound_of_eq (sound_append hremoved (h.lt_nextFree hfind) hfree) rfl rfl,
        fun sector hlocated ↦ ⟨?_, rfl⟩⟩
      obtain ⟨dir, name, hname⟩ := hlocated
      obtain ⟨hfile, hfileType⟩ := locate_eq_some_iff.mp hname
      by_cases hold : dir = oldParent ∧ sameName name oldName
      · -- the file itself has been moved
        obtain ⟨rfl, hsame⟩ := hold
        obtain rfl : moved = sector := by
          rw [find_congr hsame, hfind] at hfile
          exact Option.some.inj hfile
        refine ⟨newParent, newName, locate_eq_some_iff.mpr ⟨?_, (htype moved).trans hfileType⟩⟩
        refine (find_append newParent moved newName newParent newName).trans ?_
        rw [hfree]
        simp [sameName]
      · refine ⟨dir, name, locate_eq_some_iff.mpr ⟨?_, (htype sector).trans hfileType⟩⟩
        refine (find_append newParent moved newName dir name).trans ?_
        rw [find_filter hold, hfile]
        rfl

theorem fileOpen_keeps (h : disk.Sound) (dir : Sector) (name : CStr) (mode : AdfFileMode) :
    (disk.fileOpen dir name mode).1.Sound ∧ lib.SameDirs disk (disk.fileOpen dir name mode).1 ∧
      ∀ sector, Adflib.Located locate disk sector →
        Adflib.KeepsFile files locate sector disk (disk.fileOpen dir name mode).1 := by
  rcases disk.fileOpen_cases dir name mode with hsame | ⟨-, -, -, hcreated⟩
  · rw [hsame]
    exact ⟨h, fun _ _ ↦ rfl, fun sector _ ↦ ⟨fun _ _ ↦ Iff.rfl, rfl⟩⟩
  · rw [hcreated]
    exact ⟨sound_create .file h dir name, sameDirs_createFile h dir name,
      fun _ hlocated ↦ keepsFile_create .file h dir name hlocated⟩

/-- What the library does to files that are there. -/
def storage : Adflib.Storage files where
  Sound := Sound
  locate := locate
  open_locate disk dir name mode file _ hopen := by
    change (disk.fileOpen dir name mode).2 = some file at hopen
    change (disk.fileOpen dir name mode).1.locate dir name = some file.sector
    rcases disk.fileOpen_cases dir name mode with hsame | ⟨-, -, -, hcreated⟩
    · rw [hsame] at hopen ⊢
      exact locate_eq_some_iff.mpr (openFile_eq_some hopen)
    · rw [hcreated] at hopen ⊢
      exact locate_eq_some_iff.mpr (openFile_eq_some hopen)
  fileOpen _ dir name mode h := fileOpen_keeps h dir name mode
  fileSeek _ _ _ h := ⟨h, .refl⟩
  fileRead _ _ _ h := ⟨h, .refl⟩
  fileWrite _ file size buffer h := fileWrite_keeps h file size buffer
  fileTruncate _ file size h := fileTruncate_keeps h file size
  fileClose _ _ h := ⟨h, .refl⟩
  changeAccess _ _ _ access h hread := changeAccess_keeps h access hread
  createFile _ parent name h := ⟨sound_create .file h parent name, sameDirs_createFile h parent name,
    fun _ hlocated ↦ keepsFile_create .file h parent name hlocated⟩
  createDir _ parent name h := ⟨sound_create .dir h parent name,
    fun _ _ _ hchange ↦ changeDir_create .dir h parent name hchange,
    fun _ hlocated ↦ keepsFile_create .dir h parent name hlocated⟩
  removeEntry _ parent name h := removeEntry_keeps h parent name
  renameEntry _ oldParent oldName newParent newName h :=
    renameEntry_keeps h oldParent oldName newParent newName

theorem sound_sample : sample.Sound where
  used dir cell hcell := by
    simp only [sample] at hcell ⊢
    split_ifs at hcell
    · simp only [List.mem_cons, List.not_mem_nil, or_false] at hcell
      rcases hcell with rfl | rfl | rfl <;> decide
    · rw [List.mem_singleton.mp hcell]
      decide
    · exact absurd hcell List.not_mem_nil
  unique := consistent_sample.unique

end RamDisk

end FuseAdf
