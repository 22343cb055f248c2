import FuseAdf.Adflib.Storage
import FuseAdf.Library.NameWalk

/-!
# What the calls do to names

For its users a volume is a table: what is found in a directory under a name.  `Naming` says what the
calls of the library do to this table.  It speaks only of directories that can be got to from the root,
for what was a directory before it was removed may be anything afterwards.  A call that fails may have
done its work already or a part of it, but it does nothing to other names.
-/

namespace FuseAdf

open NameWalk

/-- What a listing shows of an entry besides its attributes. -/
@[ext]
structure Node where
  name : CStr
  type : AdfSecType
  sector : Sector
  real : Sector
deriving DecidableEq, Repr

def AdfEntry.node (entry : AdfEntry) : Node where
  name := entry.name
  type := entry.type
  sector := entry.sector
  real := entry.real

/-- The directory that is entered by the name of the node. -/
def Node.target (node : Node) : Option Sector :=
  match node.type with
  | .dir => some node.sector
  | .ldir => some node.real
  | _ => none

/-- What is found in every directory under every name. -/
abbrev Names := Sector → CStr → Option Node

namespace Names

variable (root : Sector)

def enter (names : Names) (dir : Sector) (name : CStr) : Option Sector :=
  (names dir name).bind Node.target

/-- The directory can be got to. -/
def Live (names : Names) (dir : Sector) : Prop := Reachable names.enter root dir

/-- In the directories that could be got to there is nothing new but under these names. -/
def Agree (before after : Names) (except : Sector → CStr → Prop) : Prop :=
  ∀ dir, before.Live root dir → ∀ name, after dir name = before dir name ∨ except dir name

/-- Nothing has changed. -/
def Same (before after : Names) : Prop :=
  ∀ dir, before.Live root dir → ∀ name, after dir name = before dir name

/-- A new entry has taken a free name; a directory is empty at first. -/
def Adds (before after : Names) (type : AdfSecType) (dir : Sector) (name : CStr) : Prop :=
  before dir name = none ∧ ∃ node, after dir name = some node ∧ node.name = name ∧ node.type = type ∧
    ¬ before.Live root node.sector ∧ (type = .dir → ∀ inner, after node.sector inner = none)

/-- An entry has got another name.  To be renamed to the very same name need not be there. -/
def Moves (same : CStr → CStr → Bool) (before after : Names) (oldDir : Sector) (oldName : CStr)
    (newDir : Sector) (newName : CStr) : Prop :=
  (oldDir = newDir ∧ oldName = newName ∧ before.Same root after) ∨
    ∃ node, before oldDir oldName = some node ∧
      after newDir newName = some { node with name := newName } ∧
      (¬ (oldDir = newDir ∧ same oldName newName) →
        before newDir newName = none ∧ after oldDir oldName = none)

variable {root} {before between after : Names}

theorem Same.live_iff (h : before.Same root after) (dir : Sector) :
    after.Live root dir ↔ before.Live root dir := by
  have hwalk : ∀ names, walk after.enter root names = walk before.enter root names :=
    walk_congr_reachable fun place hplace name ↦ by rw [enter, enter, h place hplace]
  simp only [Live, Reachable, hwalk]

theorem Same.refl (names : Names) : names.Same root names := fun _ _ _ ↦ rfl

theorem Same.trans (h : before.Same root between) (h' : between.Same root after) :
    before.Same root after := fun dir hdir name ↦
  (h' dir ((h.live_iff dir).mpr hdir) name).trans (h dir hdir name)

theorem Same.agree (h : before.Same root after) (except : Sector → CStr → Prop) :
    before.Agree root after except := fun dir hdir name ↦ Or.inl (h dir hdir name)

end Names

/-! ## The contract -/

namespace Adflib

variable {Image File : Type} (L : Adflib Image File)

/-- The table that the listings of an image show. -/
def names (image : Image) : Names := fun dir name ↦ (L.lookupName image dir name).map AdfEntry.node

/-- `ADF_MAX_NAME_LEN`; longer names are cut off. -/
def adfMaxNameLen : ℕ := 30

/-- The calls as they deal with names.  A directory is entered by what its listing shows, and that is
never the root.  Work with open files and with access words changes no name, and the calls on entries
change what they are asked to.  An entry is only created where its name is not taken yet; opening a file
for writing creates it if it is missing.  What is said of new names is said of those that are not cut
off. -/
structure Naming (root : Sector) where
  Sound : Image → Prop
  same_refl : ∀ name, L.sameName name name
  same_symm : ∀ name name', L.sameName name name' → L.sameName name' name
  same_trans : ∀ name name' name'', L.sameName name name' → L.sameName name' name'' →
    L.sameName name name''
  unique : ∀ image dir, Sound image → (L.names image).Live root dir →
    (L.adfGetDirEnt image dir).Pairwise fun entry entry' ↦ ¬ L.sameName entry.name entry'.name
  ne_root : ∀ image dir name node, Sound image → (L.names image).Live root dir →
    L.names image dir name = some node → node.type ≠ .root
  changeDir : ∀ image dir name, Sound image → (L.names image).Live root dir →
    L.adfChangeDir image dir name = (L.names image).enter dir name
  openRead : ∀ image dir name, Sound image →
    Sound (L.adfFileOpen image dir name .read).1 ∧
      (L.names image).Same root (L.names (L.adfFileOpen image dir name .read).1)
  openWrite : ∀ image dir name, Sound image → (L.names image).Live root dir →
    name.length ≤ adfMaxNameLen →
    Sound (L.adfFileOpen image dir name .write).1 ∧
      (L.names image).Agree root (L.names (L.adfFileOpen image dir name .write).1)
        (fun dir' name' ↦ dir' = dir ∧ L.sameName name' name ∧ L.names image dir' name' = none) ∧
      ((L.adfFileOpen image dir name .write).2.isSome →
        (L.names image).Same root (L.names (L.adfFileOpen image dir name .write).1) ∨
          (L.names image).Adds root (L.names (L.adfFileOpen image dir name .write).1) .file dir name)
  fileSeek : ∀ image file position, Sound image →
    Sound (L.adfFileSeek image file position).1 ∧
      (L.names image).Same root (L.names (L.adfFileSeek image file position).1)
  fileRead : ∀ image file size, Sound image →
    Sound (L.adfFileRead image file size).1 ∧
      (L.names image).Same root (L.names (L.adfFileRead image file size).1)
  fileWrite : ∀ image file size buffer, Sound image →
    Sound (L.adfFileWrite image file size buffer).1 ∧
      (L.names image).Same root (L.names (L.adfFileWrite image file size buffer).1)
  fileTruncate : ∀ image file size, Sound image →
    Sound (L.adfFileTruncate image file size).1 ∧
      (L.names image).Same root (L.names (L.adfFileTruncate image file size).1)
  fileClose : ∀ image file, Sound image →
    Sound (L.adfFileClose image file) ∧
      (L.names image).Same root (L.names (L.adfFileClose image file))
  changeAccess : ∀ image sector block access, Sound image →
    L.adfReadEntryBlock image sector = some block →
    Sound (L.adfWriteEntryBlock image sector { block with access := access }).1 ∧
      (L.names image).Same root
        (L.names (L.adfWriteEntryBlock image sector { block with access := access }).1)
  createFile : ∀ image parent name, Sound image → (L.names image).Live root parent →
    name.length ≤ adfMaxNameLen →
    Sound (L.adfCreateFile image parent name).1 ∧
      (L.names image).Agree root (L.names (L.adfCreateFile image parent name).1)
        (fun dir name' ↦ dir = parent ∧ L.sameName name' name ∧ L.names image dir name' = none) ∧
      ((L.adfCreateFile image parent name).2 = adfRcOk →
        (L.names image).Adds root (L.names (L.adfCreateFile image parent name).1) .file parent name)
  createDir : ∀ image parent name, Sound image → (L.names image).Live root parent →
    name.length ≤ adfMaxNameLen →
    Sound (L.adfCreateDir image parent name).1 ∧
      (L.names image).Agree root (L.names (L.adfCreateDir image parent name).1)
        (fun dir name' ↦ dir = parent ∧ L.sameName name' name ∧ L.names image dir name' = none) ∧
      ((L.adfCreateDir image parent name).2 = adfRcOk →
        (L.names image).Adds root (L.names (L.adfCreateDir image parent name).1) .dir parent name)
  removeEntry : ∀ image parent name, Sound image → (L.names image).Live root parent →
    Sound (L.adfRemoveEntry image parent name).1 ∧
      (L.names image).Agree root (L.names (L.adfRemoveEntry image parent name).1)
        (fun dir name' ↦ dir = parent ∧ L.sameName name' name ∧
          L.names (L.adfRemoveEntry image parent name).1 dir name' = none) ∧
      ((L.adfRemoveEntry image parent name).2 = adfRcOk →
        (L.names image parent name).isSome ∧
          L.names (L.adfRemoveEntry image parent name).1 parent name = none)
  renameEntry : ∀ image oldParent oldName newParent newName, Sound image →
    (L.names image).Live root oldParent → (L.names image).Live root newParent →
    newName.length ≤ adfMaxNameLen →
    Sound (L.adfRenameEntry image oldParent oldName newParent newName).1 ∧
      (L.names image).Agree root
        (L.names (L.adfRenameEntry image oldParent oldName newParent newName).1)
        (fun dir name ↦ dir = oldParent ∧ L.sameName name oldName ∨
          dir = newParent ∧ L.sameName name newName) ∧
      ((L.adfRenameEntry image oldParent oldName newParent newName).2 = adfRcOk →
        (L.names image).Moves root L.sameName
          (L.names (L.adfRenameEntry image oldParent oldName newParent newName).1)
          oldParent oldName newParent newName)

variable {L} {root : Sector} (naming : L.Naming root)

/-- The second image is sound too and has the names of the first. -/
def Naming.Unchanged (image image' : Image) : Prop :=
  naming.Sound image' ∧ (L.names image).Same root (L.names image')

variable {naming} {image between image' : Image}

theorem Naming.Unchanged.refl (h : naming.Sound image) : naming.Unchanged image image :=
  ⟨h, .refl _⟩

theorem Naming.Unchanged.trans (h : naming.Unchanged image between)
    (h' : naming.Unchanged between image') : naming.Unchanged image image' :=
  ⟨h'.1, h.2.trans h'.2⟩

end Adflib

/-! ## The library in memory -/

namespace RamDisk

/-- The cell of a name in a directory. -/
def cellOf (disk : RamDisk) (dir : Sector) (name : CStr) : Option (CStr × Sector) :=
  (disk.dirs dir).find? fun cell ↦ sameName name cell.1

/-- What does not change in a block. -/
def kindOf (disk : RamDisk) (sector : Sector) : Option (AdfSecType × Sector) :=
  (disk.blocks sector).map fun block ↦ (block.secType, block.realEntry)

def nodeOf (disk : RamDisk) (cell : CStr × Sector) : Option Node :=
  (disk.kindOf cell.2).map fun kind ↦ { name := cell.1, type := kind.1, sector := cell.2, real := kind.2 }

/-- All that is listed is there, and what is not in use is empty. -/
structure Tidy (root : Sector) (disk : RamDisk) : Prop where
  sound : disk.Sound
  blocked : ∀ dir, ∀ cell ∈ disk.dirs dir, ∃ kind, disk.kindOf cell.2 = some kind ∧ kind.1 ≠ .root
  named : ∀ dir, ∀ cell ∈ disk.dirs dir, cell.1 ≠ []
  root_lt : root < disk.nextFree
  links : ∀ sector kind, disk.kindOf sector = some kind → kind.1 = .ldir → kind.2 < disk.nextFree
  unused : ∀ dir, disk.nextFree ≤ dir → disk.dirs dir = []

variable {root : Sector} {disk disk' : RamDisk} {dir sector parent : Sector} {name name' : CStr}

theorem find_eq_cellOf : disk.find dir name = (disk.cellOf dir name).map Prod.snd := rfl

theorem mem_of_cellOf {cell : CStr × Sector} (h : disk.cellOf dir name = some cell) :
    cell ∈ disk.dirs dir := List.mem_of_find?_eq_some h

/-- The listing of a directory whose entries have blocks. -/
theorem find?_listing {cells : List (CStr × Sector)}
    (h : ∀ cell ∈ cells, ∃ kind, disk.kindOf cell.2 = some kind ∧ kind.1 ≠ .root) :
    ((cells.filterMap (disk.entry dir)).find? fun entry ↦ sameName name entry.name).map AdfEntry.node =
      (cells.find? fun cell ↦ sameName name cell.1).bind disk.nodeOf := by
  induction cells with
  | nil => rfl
  | cons cell cells ih =>
    obtain ⟨kind, hkind, -⟩ := h cell List.mem_cons_self
    obtain ⟨block, hblock, rfl⟩ := Option.map_eq_some_iff.mp hkind
    obtain ⟨entry, hsome, hname, htype, hsector, hreal⟩ := entry_eq dir hblock
    have hrest := ih fun other hother ↦ h other (List.mem_cons_of_mem cell hother)
    rw [List.filterMap_cons_some hsome, List.find?_cons, List.find?_cons, hname]
    cases sameName name cell.1 with
    | true =>
      dsimp only
      rw [Option.map_some, Option.bind_some, nodeOf, hkind, Option.map_some, AdfEntry.node, hname,
        htype, hsector, hreal]
    | false => exact hrest

theorem names_eq (h : disk.Tidy root) (dir : Sector) (name : CStr) :
    lib.names disk dir name = (disk.cellOf dir name).bind disk.nodeOf :=
  find?_listing (h.blocked dir)

theorem Tidy.names_of_cellOf (h : disk.Tidy root) {cell : CStr × Sector}
    (hcell : disk.cellOf dir name = some cell) :
    ∃ kind, disk.kindOf cell.2 = some kind ∧ lib.names disk dir name =
      some { name := cell.1, type := kind.1, sector := cell.2, real := kind.2 } := by
  obtain ⟨kind, hkind, -⟩ := h.blocked dir cell (mem_of_cellOf hcell)
  refine ⟨kind, hkind, ?_⟩
  rw [names_eq h, hcell, Option.bind_some, nodeOf, hkind, Option.map_some]

theorem Tidy.names_eq_none_iff (h : disk.Tidy root) :
    lib.names disk dir name = none ↔ disk.cellOf dir name = none := by
  cases hcell : disk.cellOf dir name with
  | none => rw [names_eq h, hcell]; simp
  | some cell =>
    obtain ⟨kind, -, hnames⟩ := h.names_of_cellOf hcell
    simp [hnames]

/-- Whatever is entered is in use. -/
theorem Tidy.lt_nextFree (h : disk.Tidy root) (hlive : (lib.names disk).Live root dir) :
    dir < disk.nextFree := by
  refine Reachable.induction (motive := (· < disk.nextFree)) h.root_lt ?_ hlive
  intro place name next _ hnext
  obtain ⟨node, hnode, htarget⟩ := Option.bind_eq_some_iff.mp hnext
  rw [names_eq h] at hnode
  obtain ⟨cell, hcell, hshown⟩ := Option.bind_eq_some_iff.mp hnode
  obtain ⟨kind, hkind, rfl⟩ := Option.map_eq_some_iff.mp hshown
  dsimp only [Node.target] at htarget
  split at htarget
  · obtain rfl := Option.some.inj htarget
    exact h.sound.used place cell (mem_of_cellOf hcell)
  · obtain rfl := Option.some.inj htarget
    exact h.links cell.2 kind hkind ‹_›
  · cases htarget

theorem target_eq (disk : RamDisk) (cell : CStr × Sector) :
    disk.target cell.2 = (disk.nodeOf cell).bind Node.target := by
  rw [target, nodeOf, kindOf]
  cases disk.blocks cell.2 with
  | none => rfl
  | some block => rfl

theorem Tidy.changeDir_eq (h : disk.Tidy root) (dir : Sector) (name : CStr) :
    disk.changeDir dir name = (lib.names disk).enter dir name := by
  rw [Names.enter, names_eq h, changeDir]
  split_ifs with hname
  · have hnone : disk.cellOf dir name = none := by
      rw [cellOf, List.find?_eq_none]
      intro cell hcell hsame
      rw [hname, sameName, beq_iff_eq, List.map_nil, eq_comm, List.map_eq_nil_iff] at hsame
      exact h.named dir cell hcell hsame
    rw [hnone]
    rfl
  · rw [find_eq_cellOf]
    cases disk.cellOf dir name with
    | none => rfl
    | some cell => exact target_eq disk cell

/-- Neither a table nor what does not change in a block has changed. -/
theorem tidy_of_eq (h : disk.Tidy root) (hsound : disk'.Sound) (hdirs : disk'.dirs = disk.dirs)
    (hfree : disk'.nextFree = disk.nextFree) (hkind : disk'.kindOf = disk.kindOf) :
    disk'.Tidy root ∧ (lib.names disk).Same root (lib.names disk') := by
  have htidy : disk'.Tidy root :=
    { sound := hsound
      blocked := by rw [hdirs, hkind]; exact h.blocked
      named := by rw [hdirs]; exact h.named
      root_lt := by rw [hfree]; exact h.root_lt
      links := by rw [hfree, hkind]; exact h.links
      unused := by rw [hfree, hdirs]; exact h.unused }
  refine ⟨htidy, fun dir _ name ↦ ?_⟩
  have hnode : disk'.nodeOf = disk.nodeOf := by
    funext cell
    rw [nodeOf, nodeOf, hkind]
  rw [names_eq htidy, names_eq h, hnode, cellOf, cellOf, hdirs]

theorem kindOf_changeAccess {block : AdfEntryBlock} (access : BitVec 32)
    (hread : disk.readEntryBlock sector = some block) :
    (disk.putBlock sector { block with access := access }).kindOf = disk.kindOf := by
  obtain ⟨old, hold, hblock⟩ := readEntryBlock_eq_some hread
  funext other
  by_cases hother : other = sector
  · simp [kindOf, putBlock, hother, hold, hblock]
  · simp [kindOf, putBlock, hother]

theorem cellOf_append (disk : RamDisk) (parent : Sector) (cell : CStr × Sector) (dir : Sector)
    (name : CStr) :
    (disk.putDir parent (disk.dirs parent ++ [cell])).cellOf dir name = (disk.cellOf dir name).or
      (if dir = parent ∧ sameName name cell.1 then some cell else none) := by
  by_cases hdir : dir = parent
  · subst hdir
    cases hsame : sameName name cell.1 <;> simp [cellOf, putDir, List.find?_append, hsame]
  · simp [cellOf, putDir, hdir]

theorem cellOf_filter (disk : RamDisk) (parent : Sector) (removed : CStr) (dir : Sector) (name : CStr) :
    (disk.putDir parent ((disk.dirs parent).filter fun cell ↦ !sameName removed cell.1)).cellOf dir name =
      if dir = parent ∧ sameName name removed then none else disk.cellOf dir name := by
  by_cases hdir : dir = parent
  · subst hdir
    simp only [cellOf, putDir, if_pos, List.find?_filter, true_and]
    split_ifs with hremoved
    · rw [List.find?_eq_none]
      intro cell _ hmatch
      obtain ⟨hother, hsame⟩ := of_decide_eq_true hmatch
      rw [sameName_trans (sameName_comm hremoved) hsame] at hother
      cases hother
    · congr 1
      funext cell
      cases hmatch : sameName name cell.1 with
      | false => simp
      | true =>
        cases hsame : sameName removed cell.1 with
        | false => simp
        | true => exact absurd (sameName_trans hmatch (sameName_comm hsame)) hremoved
  · simp [cellOf, putDir, hdir]

theorem kindOf_create (type : AdfSecType) (hnew : ¬ (name = [] ∨ (disk.find parent name).isSome))
    (sector : Sector) :
    (create type disk parent name).1.kindOf sector =
      if sector = disk.nextFree then some (type, 0) else disk.kindOf sector := by
  rw [create, if_neg hnew]
  by_cases hsector : sector = disk.nextFree <;> simp [kindOf, putDir, putBlock, newBlock, hsector]

theorem cellOf_create (type : AdfSecType) (hnew : ¬ (name = [] ∨ (disk.find parent name).isSome))
    (dir : Sector) (name' : CStr) :
    (create type disk parent name).1.cellOf dir name' = (disk.cellOf dir name').or
      (if dir = parent ∧ sameName name' name then some (name, disk.nextFree) else none) := by
  rw [create, if_neg hnew]
  exact cellOf_append ({ disk with nextFree := disk.nextFree + 1 }.putBlock disk.nextFree
    (newBlock type name)) parent (name, disk.nextFree) dir name'

/-- A directory that is in use has got one more name for a block. -/
theorem tidy_append (h : disk.Tidy root) (hsound : disk'.Sound) {cell : CStr × Sector}
    (hdirs : disk'.dirs = (disk.putDir parent (disk.dirs parent ++ [cell])).dirs)
    (hfree : disk'.nextFree = disk.nextFree) (hkind : disk'.kindOf = disk.kindOf)
    (hparent : parent < disk.nextFree)
    (hblocked : ∃ kind, disk.kindOf cell.2 = some kind ∧ kind.1 ≠ .root)
    (hnamed : cell.1 ≠ []) : disk'.Tidy root := by
  have hcells : ∀ dir, ∀ other ∈ disk'.dirs dir, (∃ dir, other ∈ disk.dirs dir) ∨ other = cell := by
    intro dir other hother
    rw [hdirs] at hother
    dsimp only [putDir] at hother
    split_ifs at hother
    · rcases List.mem_append.mp hother with hold | hlast
      · exact Or.inl ⟨parent, hold⟩
      · exact Or.inr (List.mem_singleton.mp hlast)
    · exact Or.inl ⟨dir, hother⟩
  refine
    { sound := hsound
      blocked := fun dir other hother ↦ ?_
      named := fun dir other hother ↦ ?_
      root_lt := by rw [hfree]; exact h.root_lt
      links := by rw [hfree, hkind]; exact h.links
      unused := fun dir hdir ↦ ?_ }
  · rw [hkind]
    rcases hcells dir other hother with ⟨dir', hold⟩ | rfl
    · exact h.blocked dir' other hold
    · exact hblocked
  · rcases hcells dir other hother with ⟨dir', hold⟩ | rfl
    · exact h.named dir' other hold
    · exact hnamed
  · rw [hfree] at hdir
    rw [hdirs]
    exact (if_neg (Int.ne_of_gt (Int.lt_of_lt_of_le hparent hdir))).trans (h.unused dir hdir)

/-- A block for a new entry, which no directory lists yet. -/
theorem tidy_newBlock {type : AdfSecType} (htype : type = .file ∨ type = .dir) (h : disk.Tidy root)
    (name : CStr) :
    ({ disk with nextFree := disk.nextFree + 1 }.putBlock disk.nextFree (newBlock type name)).Tidy
      root := by
  have hkinds (sector : Sector) :
      ({ disk with nextFree := disk.nextFree + 1 }.putBlock disk.nextFree (newBlock type name)).kindOf
        sector = if sector = disk.nextFree then some (type, 0) else disk.kindOf sector := by
    by_cases hsector : sector = disk.nextFree <;> simp [kindOf, putBlock, newBlock, hsector]
  refine
    { sound :=
        { used := fun dir cell hcell ↦ Int.lt_trans (h.sound.used dir cell hcell) (Int.lt_succ _)
          unique := h.sound.unique }
      blocked := fun dir cell hcell ↦ ?_
      named := h.named
      root_lt := Int.lt_trans h.root_lt (Int.lt_succ _)
      links := fun sector kind hkind hlink ↦ ?_
      unused := fun dir hdir ↦ h.unused dir (Int.le_of_lt (Int.lt_of_lt_of_le (Int.lt_succ _) hdir)) }
  · rw [hkinds]
    split_ifs
    · exact ⟨_, rfl, by rcases htype with rfl | rfl <;> decide⟩
    · exact h.blocked dir cell hcell
  · rw [hkinds] at hkind
    split_ifs at hkind
    · obtain rfl := Option.some.inj hkind
      rcases htype with rfl | rfl <;> cases hlink
    · exact Int.lt_trans (h.links sector kind hkind hlink) (Int.lt_succ _)

theorem tidy_create {type : AdfSecType} (htype : type = .file ∨ type = .dir) (h : disk.Tidy root)
    (hparent : parent < disk.nextFree)
    (hnew : ¬ (name = [] ∨ (disk.find parent name).isSome)) :
    (create type disk parent name).1.Tidy root := by
  have hsound := sound_create type h.sound parent name
  rw [create, if_neg hnew] at hsound ⊢
  apply tidy_append (tidy_newBlock htype h name) hsound rfl rfl rfl
  · exact Int.lt_trans hparent (Int.lt_succ _)
  · exact ⟨(type, 0), by simp [kindOf, putBlock, newBlock], by rcases htype with rfl | rfl <;> decide⟩
  · exact fun hempty ↦ hnew (Or.inl hempty)

/-- Only a free name can be given to a new entry. -/
theorem naming_create {type : AdfSecType} (htype : type = .file ∨ type = .dir) (h : disk.Tidy root)
    (hlive : (lib.names disk).Live root parent) (name : CStr) :
    (create type disk parent name).1.Tidy root ∧
      (lib.names disk).Agree root (lib.names (create type disk parent name).1)
        (fun dir name' ↦ dir = parent ∧ sameName name' name ∧ lib.names disk dir name' = none) ∧
      ((create type disk parent name).2 = adfRcOk →
        (lib.names disk).Adds root (lib.names (create type disk parent name).1) type parent name) := by
  by_cases hrefused : name = [] ∨ (disk.find parent name).isSome
  · rw [create_of_refused hrefused]
    exact ⟨h, (Names.Same.refl _).agree _, fun hfailed ↦ absurd hfailed failed_ne_ok⟩
  · have hparent := h.lt_nextFree hlive
    have htidy := tidy_create htype h hparent hrefused
    have hcells := cellOf_create type hrefused
    have hkinds := kindOf_create type hrefused
    have hfree : disk.cellOf parent name = none := by
      simpa [find_eq_cellOf] using fun hsome ↦ hrefused (Or.inr hsome)
    have hnone := h.names_eq_none_iff.mpr hfree
    refine ⟨htidy, fun dir _ name' ↦ ?_, fun _ ↦ ⟨hnone, ?_⟩⟩
    · cases hcell : disk.cellOf dir name' with
      | some cell =>
        have hused := h.sound.used dir cell (mem_of_cellOf hcell)
        left
        rw [names_eq htidy, names_eq h, hcells, hcell, Option.some_or, Option.bind_some,
          Option.bind_some, nodeOf, nodeOf, hkinds, if_neg (Int.ne_of_lt hused)]
      | none =>
        by_cases hname : dir = parent ∧ sameName name' name = true
        · exact Or.inr ⟨hname.1, hname.2, h.names_eq_none_iff.mpr hcell⟩
        · left
          rw [names_eq htidy, names_eq h, hcells, hcell, if_neg hname]
          rfl
    · refine ⟨{ name := name, type := type, sector := disk.nextFree, real := 0 }, ?_, rfl, rfl, ?_, ?_⟩
      · have hsame : sameName name name = true := by rw [sameName, beq_self_eq_true]
        rw [names_eq htidy, hcells, hfree, Option.none_or, if_pos ⟨rfl, hsame⟩, Option.bind_some,
          nodeOf, hkinds, if_pos rfl]
        rfl
      · exact fun hused ↦ absurd (h.lt_nextFree hused) (Int.lt_irrefl _)
      · intro _ inner
        have hempty : disk.cellOf disk.nextFree inner = none := by
          rw [cellOf, h.unused _ (Int.le_refl _)]
          rfl
        rw [htidy.names_eq_none_iff, hcells, hempty, Option.none_or,
          if_neg fun hinner ↦ Int.ne_of_gt hparent hinner.1]

/-- A file that is opened for writing was there, or is created. -/
theorem naming_openWrite (h : disk.Tidy root) (hlive : (lib.names disk).Live root dir) (name : CStr) :
    (disk.fileOpen dir name .write).1.Tidy root ∧
      (lib.names disk).Agree root (lib.names (disk.fileOpen dir name .write).1)
        (fun dir' name' ↦ dir' = dir ∧ sameName name' name ∧ lib.names disk dir' name' = none) ∧
      ((disk.fileOpen dir name .write).2.isSome →
        (lib.names disk).Same root (lib.names (disk.fileOpen dir name .write).1) ∨
          (lib.names disk).Adds root (lib.names (disk.fileOpen dir name .write).1) .file dir name) := by
  rcases disk.fileOpen_cases dir name .write with hsame | ⟨-, hfind, -, hcreated⟩
  · rw [hsame]
    exact ⟨h, (Names.Same.refl _).agree _, fun _ ↦ Or.inl (.refl _)⟩
  · obtain ⟨htidy, hagree, hadds⟩ := naming_create (Or.inl rfl) h hlive name
    rw [hcreated]
    refine ⟨htidy, hagree, fun hopened ↦ ?_⟩
    by_cases hrefused : name = [] ∨ (disk.find dir name).isSome
    · rw [create_of_refused hrefused]
      exact Or.inl (.refl _)
    · exact Or.inr (hadds (by rw [create, if_neg hrefused]))

/-- A directory without one of its names. -/
def without (disk : RamDisk) (parent : Sector) (removed : CStr) : RamDisk :=
  disk.putDir parent ((disk.dirs parent).filter fun cell ↦ !sameName removed cell.1)

theorem mem_without {removed : CStr} {cell : CStr × Sector}
    (h : cell ∈ (disk.without parent removed).dirs dir) : cell ∈ disk.dirs dir := by
  dsimp only [without, putDir] at h
  split_ifs at h with hdir
  · rw [hdir]
    exact List.mem_of_mem_filter h
  · exact h

theorem tidy_without (h : disk.Tidy root) (parent : Sector) (removed : CStr) :
    (disk.without parent removed).Tidy root where
  sound := sound_filter h.sound parent removed
  blocked dir cell hcell := h.blocked dir cell (mem_without hcell)
  named dir cell hcell := h.named dir cell (mem_without hcell)
  root_lt := h.root_lt
  links := h.links
  unused dir hdir := by
    rw [List.eq_nil_iff_forall_not_mem]
    intro cell hcell
    have hold := mem_without hcell
    rw [h.unused dir hdir] at hold
    exact absurd hold List.not_mem_nil

theorem names_without (h : disk.Tidy root) (parent : Sector) (removed : CStr) (dir : Sector)
    (name : CStr) :
    lib.names (disk.without parent removed) dir name =
      if dir = parent ∧ sameName name removed then none else lib.names disk dir name := by
  rw [names_eq (tidy_without h parent removed), without, cellOf_filter, names_eq h]
  split_ifs <;> rfl

theorem sameName_refl (name : CStr) : sameName name name = true := by
  rw [sameName, beq_self_eq_true]

theorem naming_remove (h : disk.Tidy root) (parent : Sector) (name : CStr) :
    (disk.removeEntry parent name).1.Tidy root ∧
      (lib.names disk).Agree root (lib.names (disk.removeEntry parent name).1)
        (fun dir name' ↦ dir = parent ∧ sameName name' name ∧
          lib.names (disk.removeEntry parent name).1 dir name' = none) ∧
      ((disk.removeEntry parent name).2 = adfRcOk → (lib.names disk parent name).isSome ∧
        lib.names (disk.removeEntry parent name).1 parent name = none) := by
  rw [removeEntry]
  cases hfind : disk.find parent name with
  | none => exact ⟨h, (Names.Same.refl _).agree _, fun hfailed ↦ absurd hfailed failed_ne_ok⟩
  | some sector =>
    dsimp only
    split_ifs
    · have hnames := names_without h parent name
      refine ⟨tidy_without h parent name, fun dir _ name' ↦ ?_, fun _ ↦ ⟨?_, ?_⟩⟩
      · by_cases hname : dir = parent ∧ sameName name' name = true
        · exact Or.inr ⟨hname.1, hname.2, (hnames dir name').trans (if_pos hname)⟩
        · exact Or.inl ((hnames dir name').trans (if_neg hname))
      · obtain ⟨cell, hcell, -⟩ := Option.map_eq_some_iff.mp hfind
        obtain ⟨kind, -, hnode⟩ := h.names_of_cellOf hcell
        rw [hnode]
        rfl
      · exact (hnames parent name).trans (if_pos ⟨rfl, sameName_refl name⟩)
    · exact ⟨h, (Names.Same.refl _).agree _, fun hfailed ↦ absurd hfailed failed_ne_ok⟩

/-- The disk after an entry has been given another name. -/
theorem renameEntry_eq {oldParent newParent : Sector} {oldName newName : CStr}
    (hfind : disk.find oldParent oldName = some sector)
    (hnew : ¬ (newName = [] ∨ (disk.find newParent newName).isSome)) :
    ∃ renamed, disk.renameEntry oldParent oldName newParent newName = (renamed, adfRcOk) ∧
      renamed.dirs = ((disk.without oldParent oldName).putDir newParent
        ((disk.without oldParent oldName).dirs newParent ++ [(newName, sector)])).dirs ∧
      renamed.nextFree = disk.nextFree ∧ renamed.kindOf = disk.kindOf := by
  rw [renameEntry, hfind]
  dsimp only
  rw [if_neg hnew]
  refine ⟨_, rfl, rfl, rfl, funext fun other ↦ ?_⟩
  dsimp only [kindOf]
  split_ifs with hother
  · rw [hother, Option.map_map]
    rfl
  · rfl

theorem naming_rename (h : disk.Tidy root) {oldParent newParent : Sector}
    (hlive : (lib.names disk).Live root newParent) (oldName newName : CStr) :
    (disk.renameEntry oldParent oldName newParent newName).1.Tidy root ∧
      (lib.names disk).Agree root (lib.names (disk.renameEntry oldParent oldName newParent newName).1)
        (fun dir name ↦ dir = oldParent ∧ sameName name oldName ∨
          dir = newParent ∧ sameName name newName) ∧
      ((disk.renameEntry oldParent oldName newParent newName).2 = adfRcOk →
        (lib.names disk).Moves root sameName
          (lib.names (disk.renameEntry oldParent oldName newParent newName).1)
          oldParent oldName newParent newName) := by
  have hsound := (renameEntry_keeps h.sound oldParent oldName newParent newName).1
  cases hcell : disk.cellOf oldParent oldName with
  | none =>
    have hfind : disk.find oldParent oldName = none := by rw [find_eq_cellOf, hcell]; rfl
    simp only [renameEntry, hfind]
    exact ⟨h, (Names.Same.refl _).agree _, fun hfailed ↦ absurd hfailed failed_ne_ok⟩
  | some moved =>
    have hfind : disk.find oldParent oldName = some moved.2 := by rw [find_eq_cellOf, hcell]; rfl
    by_cases hrefused : newName = [] ∨ (disk.find newParent newName).isSome
    · simp only [renameEntry, hfind, if_pos hrefused]
      exact ⟨h, (Names.Same.refl _).agree _, fun hfailed ↦ absurd hfailed failed_ne_ok⟩
    · obtain ⟨renamed, hrenamed, hdirs, hfree, hkind⟩ := renameEntry_eq hfind hrefused
      rw [hrenamed] at hsound ⊢
      dsimp only at hsound ⊢
      have hwithout := tidy_without h oldParent oldName
      have hnewFree : disk.cellOf newParent newName = none := by
        simpa [find_eq_cellOf] using fun hsome ↦ hrefused (Or.inr hsome)
      have hcells (dir : Sector) (name : CStr) : renamed.cellOf dir name =
          ((disk.without oldParent oldName).cellOf dir name).or
            (if dir = newParent ∧ sameName name newName then some (newName, moved.2) else none) := by
        rw [cellOf, hdirs]
        exact cellOf_append (disk.without oldParent oldName) newParent (newName, moved.2) dir name
      have htidy : renamed.Tidy root := by
        apply tidy_append hwithout hsound hdirs hfree hkind (h.lt_nextFree hlive)
        · exact h.blocked oldParent moved (mem_of_cellOf hcell)
        · exact fun hempty ↦ hrefused (Or.inl hempty)
      have hnode : renamed.nodeOf = disk.nodeOf := by
        funext cell
        rw [nodeOf, nodeOf, hkind]
      refine ⟨htidy, fun dir _ name ↦ ?_, fun _ ↦ Or.inr ?_⟩
      · by_cases hold : dir = oldParent ∧ sameName name oldName = true
        · exact Or.inr (Or.inl hold)
        · by_cases hnew : dir = newParent ∧ sameName name newName = true
          · exact Or.inr (Or.inr hnew)
          · left
            rw [names_eq htidy, names_eq h, hcells, hnode, without, cellOf_filter, if_neg hold,
              if_neg hnew, Option.or_none]
      · obtain ⟨kind, hmoved, hnames⟩ := h.names_of_cellOf hcell
        refine ⟨_, hnames, ?_, fun hdifferent ↦ ⟨h.names_eq_none_iff.mpr hnewFree, ?_⟩⟩
        · have hnone : (disk.without oldParent oldName).cellOf newParent newName = none := by
            rw [without, cellOf_filter, hnewFree, ite_self]
          rw [names_eq htidy, hcells, hnone, Option.none_or, if_pos ⟨rfl, sameName_refl newName⟩,
            Option.bind_some, hnode, nodeOf, hmoved, Option.map_some]
        · rw [htidy.names_eq_none_iff, hcells, without, cellOf_filter,
            if_pos ⟨rfl, sameName_refl oldName⟩, if_neg hdifferent, Option.none_or]

/-- What the library does to names. -/
def naming (root : Sector) : lib.Naming root where
  Sound := Tidy root
  same_refl := sameName_refl
  same_symm _ _ := sameName_comm
  same_trans _ _ _ := sameName_trans
  unique disk dir h _ := by
    apply List.pairwise_filterMap.mpr
    refine (h.sound.unique dir).imp fun {cell cell'} hne entry hentry entry' hentry' ↦ ?_
    rw [entry_name hentry, entry_name hentry']
    exact hne
  ne_root disk dir name node h _ hnode := by
    rw [names_eq h] at hnode
    obtain ⟨cell, hcell, hshown⟩ := Option.bind_eq_some_iff.mp hnode
    obtain ⟨kind, hkind, rfl⟩ := Option.map_eq_some_iff.mp hshown
    obtain ⟨kind', hkind', hroot⟩ := h.blocked dir cell (mem_of_cellOf hcell)
    obtain rfl := Option.some.inj (hkind.symm.trans hkind')
    exact hroot
  changeDir disk dir name h _ := h.changeDir_eq dir name
  openRead disk dir name h := by
    change (disk.fileOpen dir name .read).1.Tidy root ∧
      (lib.names disk).Same root (lib.names (disk.fileOpen dir name .read).1)
    rcases disk.fileOpen_cases dir name .read with hsame | ⟨hwrite, -⟩
    · rw [hsame]
      exact ⟨h, .refl _⟩
    · cases hwrite
  openWrite disk dir name h hlive _ := naming_openWrite h hlive name
  fileSeek _ _ _ h := tidy_of_eq h h.sound rfl rfl rfl
  fileRead _ _ _ h := ⟨h, .refl _⟩
  fileWrite disk file size buffer h := by
    have hsound := (fileWrite_keeps h.sound file size buffer).1
    refine tidy_of_eq h hsound ?_ ?_ ?_ <;> (dsimp only [lib, fileWrite]; split_ifs <;> rfl)
  fileTruncate disk file size h := by
    have hsound := (fileTruncate_keeps h.sound file size).1
    refine tidy_of_eq h hsound ?_ ?_ ?_ <;> (dsimp only [lib, fileTruncate]; split_ifs <;> rfl)
  fileClose _ _ h := ⟨h, .refl _⟩
  changeAccess disk sector block access h hread := by
    have hsound := (changeAccess_keeps h.sound access hread).1
    have hwrite := writeEntryBlock_eq hread { block with access := access }
    change (disk.writeEntryBlock sector { block with access := access }).1.Tidy root ∧
      (lib.names disk).Same root
        (lib.names (disk.writeEntryBlock sector { block with access := access }).1)
    rw [hwrite] at hsound ⊢
    exact tidy_of_eq h hsound rfl rfl (kindOf_changeAccess access hread)
  createFile disk parent name h hlive _ := naming_create (Or.inl rfl) h hlive name
  createDir disk parent name h hlive _ := naming_create (Or.inr rfl) h hlive name
  removeEntry disk parent name h _ := naming_remove h parent name
  renameEntry disk oldParent oldName newParent newName h _ hlive _ :=
    naming_rename h hlive oldName newName

theorem tidy_sample : sample.Tidy 880 where
  sound := sound_sample
  blocked dir cell hcell := by
    simp only [sample] at hcell
    split_ifs at hcell
    · simp only [List.mem_cons, List.not_mem_nil, or_false] at hcell
      rcases hcell with rfl | rfl | rfl <;> exact ⟨_, rfl, by decide⟩
    · rw [List.mem_singleton.mp hcell]
      exact ⟨_, rfl, by decide⟩
    · exact absurd hcell List.not_mem_nil
  named dir cell hcell := by
    simp only [sample] at hcell
    split_ifs at hcell
    · simp only [List.mem_cons, List.not_mem_nil, or_false] at hcell
      rcases hcell with rfl | rfl | rfl <;> decide
    · rw [List.mem_singleton.mp hcell]
      decide
    · exact absurd hcell List.not_mem_nil
  root_lt := by decide
  links sector kind hkind hlink := by
    obtain ⟨block, hblock, rfl⟩ := Option.map_eq_some_iff.mp hkind
    simp only [sample] at hblock
    split_ifs at hblock <;> (obtain rfl := Option.some.inj hblock; cases hlink)
  unused dir hdir := by
    have hroot : dir ≠ 880 := fun h ↦ absurd hdir (by rw [h]; decide)
    have hplot : dir ≠ 882 := fun h ↦ absurd hdir (by rw [h]; decide)
    simp only [sample, if_neg hroot, if_neg hplot]

end RamDisk

end FuseAdf
