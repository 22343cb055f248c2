import FuseAdf.Adffs.Contents
import FuseAdf.Adffs.Names

/-!
# Files under other names

A renaming moves a name and does not touch what the name leads to.  So who asks for the new name reads
what the file held before, and by the old name no file is found any more.  It takes both views of a
volume to see this: that of names to follow where the entry has gone, that of contents to follow the
bytes.
-/

namespace FuseAdf

open Adfimage GuardedRun NameWalk

/-- Files are found by the names in the listings.  What leads to a file leads to no directory. -/
structure Adflib.FileNames {Image File : Type} {L : Adflib Image File} {files : L.Files} {root : Sector}
    (naming : L.Naming root) (storage : Adflib.Storage files) where
  header : AdfSecType → Sector → Sector → Option Sector
  not_entered : ∀ node : Node, (header node.type node.sector node.real).isSome → node.target = none
  locate_eq : ∀ image dir name, naming.Sound image → (L.names image).Live root dir →
    storage.locate image dir name = (L.names image dir name).bind fun node ↦
      header node.type node.sector node.real

namespace Names

variable (header : AdfSecType → Sector → Sector → Option Sector)

/-- The file that is found in a directory under a name. -/
def file (names : Names) (dir : Sector) (name : CStr) : Option Sector :=
  (names dir name).bind fun node ↦ header node.type node.sector node.real

/-- The file at the end of a path. -/
def fileAt (names : Names) (root : Sector) (path : List CStr) : Option Sector :=
  (names.dirAt root path.dropLast).bind fun dir ↦ names.file header dir (entryName path)

variable {header} {root : Sector} {same : CStr → CStr → Bool} {names before after : Names}
  {path srcPath dstPath : List CStr} {dir dir' sector : Sector}

/-- Where both lookups of a directory succeed they find the same one. -/
theorem eq_of_dirNear (hdir : names.dirAt root path = some dir)
    (hnear : names.dirNear root path = some dir') : dir = dir' := by
  rw [dirNear] at hnear
  split_ifs at hnear with hpath
  · rw [hpath] at hdir
    exact Option.some.inj (hdir.symm.trans hnear)
  · obtain ⟨node, hexact, htarget⟩ := Option.bind_eq_some_iff.mp hnear
    obtain ⟨hnode, -⟩ := Option.filter_eq_some_iff.mp hexact
    have hconcat : path.dropLast ++ [entryName path] = path := by
      rw [entryName, List.getLastD_eq_getLast?, List.getLast?_eq_some_getLast hpath,
        Option.getD_some, List.dropLast_append_getLast]
    rw [dirAt, ← hconcat, walk_append] at hdir
    obtain ⟨middle, hmiddle, hlast⟩ := Option.bind_eq_some_iff.mp hdir
    rw [reach_of_walk hmiddle] at hnode
    obtain ⟨next, hnext, hend⟩ := Option.bind_eq_some_iff.mp hlast
    obtain rfl := Option.some.inj hend
    rw [enter, hnode, Option.bind_some, htarget] at hnext
    exact (Option.some.inj hnext).symm

theorem file_eq_some_iff {name : CStr} : names.file header dir name = some sector ↔
    ∃ node, names dir name = some node ∧ header node.type node.sector node.real = some sector :=
  Option.bind_eq_some_iff

theorem fileAt_eq_some_iff : names.fileAt header root path = some sector ↔
    ∃ dir, names.dirAt root path.dropLast = some dir ∧
      names.file header dir (entryName path) = some sector :=
  Option.bind_eq_some_iff

/-- A file that is renamed is no directory on the way to anything. -/
theorem Moves.dirAt {oldDir newDir : Sector} {oldName newName : CStr}
    (hmoves : before.Moves root same after oldDir oldName newDir newName)
    (hagree : before.Agree root after fun dir name ↦
      dir = oldDir ∧ same name oldName ∨ dir = newDir ∧ same name newName)
    (hsame : ∀ dir name name', same name name' → before dir name = before dir name')
    (hfile : ∀ node, before oldDir oldName = some node → node.target = none)
    (hdir : before.dirAt root path = some dir) : after.dirAt root path = some dir := by
  refine walk_mono_reachable (fun place hplace name next hnext ↦ ?_) hdir
  obtain ⟨node, hnode, htarget⟩ := Option.bind_eq_some_iff.mp hnext
  have hold (hmoved : before oldDir oldName = some node) : after.enter place name = some next := by
    rw [hfile node hmoved] at htarget
    cases htarget
  rcases hmoves with ⟨-, -, hunchanged⟩ | ⟨moved, hmoved, -, hnew⟩
  · rw [enter, hunchanged place hplace name, hnode, Option.bind_some, htarget]
  · rcases hagree place hplace name with hkept | ⟨rfl, hname⟩ | ⟨rfl, hname⟩
    · rw [enter, hkept, hnode, Option.bind_some, htarget]
    · exact hold (hsame place name oldName hname ▸ hnode)
    · rw [hsame place name newName hname] at hnode
      -- the new name was taken, so it is the old one
      by_cases hagain : oldDir = place ∧ same oldName newName
      · rw [hagain.1] at hold
        exact hold (hsame place oldName newName hagain.2 ▸ hnode)
      · rw [(hnew hagain).1] at hnode
        cases hnode

/-- The file has gone from the old path to the new one. -/
theorem Renames.fileAt {ret : ℤ} (h : before.Renames root same after srcPath dstPath ret)
    (hret : ret = 0) (hrefl : ∀ name, same name name)
    (hsame : ∀ dir name name', same name name' → before dir name = before dir name')
    (hentered : ∀ node : Node, (header node.type node.sector node.real).isSome → node.target = none)
    (hsrc : before.fileAt header root srcPath = some sector)
    (hdst : before.dirAt root dstPath.dropLast = some dir) :
    after.fileAt header root dstPath = some sector ∧
      (before.dirAt root srcPath.dropLast = some dir ∧ same (entryName srcPath) (entryName dstPath) ∨
        after.fileAt header root srcPath = none) := by
  obtain ⟨srcDir, dstDir, hsrcDir, hdstDir, hmoves⟩ := h.2 hret
  obtain ⟨oldDir, hold, hfile⟩ := fileAt_eq_some_iff.mp hsrc
  obtain rfl := eq_of_dirNear hold hsrcDir
  obtain rfl := eq_of_dirNear hdst hdstDir
  obtain ⟨node, hnode, hheader⟩ := file_eq_some_iff.mp hfile
  have hagree : before.Agree root after fun dir' name ↦ dir' = oldDir ∧ same name (entryName srcPath) ∨
      dir' = dir ∧ same name (entryName dstPath) := by
    intro dir' hlive name
    rcases h.1 dir' hlive name with hkept | ⟨hnear, hname⟩ | ⟨hnear, hname⟩
    · exact Or.inl hkept
    · exact Or.inr (Or.inl ⟨Option.some.inj (hnear.symm.trans hsrcDir), hname⟩)
    · exact Or.inr (Or.inr ⟨Option.some.inj (hnear.symm.trans hdstDir), hname⟩)
  have hleads (node' : Node) (hnode' : before oldDir (entryName srcPath) = some node') :
      node'.target = none := by
    obtain rfl := Option.some.inj (hnode.symm.trans hnode')
    exact hentered node (by rw [hheader]; rfl)
  have hwalk {names : List CStr} {dir' : Sector} (hdir' : before.dirAt root names = some dir') :
      after.dirAt root names = some dir' := hmoves.dirAt hagree hsame hleads hdir'
  rcases hmoves with ⟨rfl, hname, hunchanged⟩ | ⟨moved, hmoved, hthere, hgone⟩
  · refine ⟨fileAt_eq_some_iff.mpr ⟨oldDir, hwalk hdst, ?_⟩, Or.inl ⟨hold, hname ▸ hrefl _⟩⟩
    rw [file, hunchanged oldDir (live_of_dirAt hold), ← hname]
    exact hfile
  · obtain rfl := Option.some.inj (hnode.symm.trans hmoved)
    refine ⟨fileAt_eq_some_iff.mpr ⟨dir, hwalk hdst, file_eq_some_iff.mpr ⟨_, hthere, hheader⟩⟩, ?_⟩
    by_cases hagain : oldDir = dir ∧ same (entryName srcPath) (entryName dstPath)
    · exact Or.inl ⟨hagain.1 ▸ hold, hagain.2⟩
    · right
      rw [Names.fileAt, hwalk hold, Option.bind_some, file, (hgone hagain).2, Option.bind_none]

end Names

variable {Image File : Type} {L : Adflib Image File} {files : L.Files}
  {storage : Adflib.Storage files} {image : Image}

theorem fileAt_eq (mount : Mount) {naming : L.Naming mount.rootBlock}
    (found : Adflib.FileNames naming storage) (hsound : naming.Sound image) (path : List CStr) :
    mount.fileAt storage image path =
      (L.names image).fileAt found.header mount.rootBlock path := by
  rw [Mount.fileAt, dirAt_eq hsound, Names.fileAt]
  cases hdir : (L.names image).dirAt mount.rootBlock path.dropLast with
  | none => rfl
  | some dir => exact found.locate_eq image dir _ hsound (live_of_dirAt hdir)

namespace RamDisk

/-- The files of the disk are those that are listed as files. -/
def fileNames (root : Sector) : Adflib.FileNames (naming root) RamDisk.storage where
  header type sector _ := if type = .file then some sector else none
  not_entered node hfile := by
    split_ifs at hfile with htype
    · rw [Node.target, htype]
    · cases hfile
  locate_eq disk dir name h _ := by
    rw [names_eq h]
    change disk.locate dir name = _
    rw [locate, find_eq_cellOf]
    cases disk.cellOf dir name with
    | none => rfl
    | some cell =>
      rw [Option.map_some, Option.bind_some, nodeOf, kindOf, Option.filter]
      cases hblock : disk.blocks cell.2 with
      | none => simp
      | some block => simp

end RamDisk

/-! ## Reading under the new name -/

variable (storage) (sector : Sector) (env : Env)

end FuseAdf
