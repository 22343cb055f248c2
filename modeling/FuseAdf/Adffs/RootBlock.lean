import FuseAdf.Adffs.Callbacks
import FuseAdf.Adfimage.Resolution

/-!
# Permissions and the root block

A change of permissions reads the block of the entry that a path is looked up as, replaces the access
word and writes the block back.  The root is looked up like any other entry, and its block has no
access word.
-/

namespace FuseAdf

open Adfimage NameWalk

variable {Image File Raw : Type} {L : Adflib Image File}

/-- No byte of the root block has changed, and so none of its bitmap pointers and flags. -/
def RootKept (blocks : L.RawBlocks Raw) (before after : Adfimage Image) : Prop :=
  blocks.raw after.vol.image before.vol.rootBlock =
      blocks.raw before.vol.image before.vol.rootBlock ∧
    L.adfReadRootBlock after.vol.image before.vol.rootBlock =
      L.adfReadRootBlock before.vol.image before.vol.rootBlock

variable (L) in
/-- The path is looked up as the root: it is `/` and the root block can be read, or the last
directory reached lists an entry with its name that has the sector of the root block. -/
def TargetsRoot (adfimage : Adfimage Image) (path : CStr) : Prop :=
  (path = ['/'] ∧ (adfimageGetRootDentry L adfimage).type = .directory) ∨
    (path ≠ ['/'] ∧ ∃ entry, entryAt L adfimage path = some entry ∧
      dentryType entry.type ≠ .unknown ∧ entry.sector = adfimage.vol.rootBlock)

/-- The root block is read and written back with another word in the place of the access word or
another checksum. -/
def RootOverwritten (blocks : L.RawBlocks Raw) (adfimage : Adfimage Image) (perms : BitVec 32) :
    Prop :=
  ∃ block, L.adfReadEntryBlock adfimage.vol.image adfimage.vol.rootBlock = some block ∧
    let new := { block with access := setpermAccess L perms block.access }
    (L.adfWriteEntryBlock adfimage.vol.image adfimage.vol.rootBlock new).2 = adfRcOk ∧
      ¬ (new.access = block.access ∧ blocks.sum new = block.checkSum)

/-- The paths that are looked up as the root. -/
theorem targetsRoot_iff (adfimage : Adfimage Image) (path : CStr) :
    TargetsRoot L adfimage path ↔
      adfimageDentryValid (dentryAt L adfimage path) = true ∧
        (dentryAt L adfimage path).adflibEntry.sector = adfimage.vol.rootBlock := by
  unfold TargetsRoot
  rw [dentryAt]
  split_ifs with hpath
  · simp only [hpath, true_and, ne_eq, not_true_eq_false, false_and, or_false]
    rw [getRootDentry_valid_iff]
    exact ⟨fun h ↦ ⟨h, getRootDentry_sector h⟩, And.left⟩
  · simp only [hpath, false_and, ne_eq, not_false_eq_true, true_and, false_or]
    cases entryAt L adfimage path with
    | none => simp [dentryOf, AdfimageDentry.missing, adfimageDentryValid]
    | some entry => simp [dentryOf, adfimageDentryValid, dentryType_ne_none]

section Setperm

variable (blocks : L.RawBlocks Raw)

theorem rootKept_iff_raw (before after : Adfimage Image) :
    RootKept blocks before after ↔
      blocks.raw after.vol.image before.vol.rootBlock =
        blocks.raw before.vol.image before.vol.rootBlock :=
  ⟨And.left, fun h ↦ ⟨h, blocks.readRoot _ _ _ h⟩⟩

/-- The root block changes only when it is the block that is written, successfully and with other
words. -/
theorem rootKept_setperm_iff (adfimage : Adfimage Image) (path : CStr) (perms : BitVec 32) :
    RootKept blocks adfimage (adfimageSetperm L adfimage path perms).2 ↔
      ¬ (TargetsRoot L adfimage path ∧ RootOverwritten blocks adfimage perms) := by
  have hsame : blocks.raw (adfimageGetdentry L adfimage path).2.vol.image adfimage.vol.rootBlock =
      blocks.raw adfimage.vol.image adfimage.vol.rootBlock := by
    rw [getdentry_image]
  rw [rootKept_iff_raw, targetsRoot_iff, setperm_eq]
  dsimp only
  cases adfimageDentryValid (dentryAt L adfimage path) with
  | false =>
    rw [if_neg Bool.false_ne_true]
    exact iff_of_true hsame (by simp)
  | true =>
    simp only [if_true, true_and]
    generalize (dentryAt L adfimage path).adflibEntry.sector = sector
    unfold RootOverwritten
    cases hread : L.adfReadEntryBlock adfimage.vol.image sector with
    | none =>
      refine iff_of_true hsame ?_
      rintro ⟨rfl, block, hblock, -⟩
      exact absurd (hread.symm.trans hblock) (by simp)
    | some block =>
      rw [setImage_image]
      by_cases hsector : sector = adfimage.vol.rootBlock
      · subst hsector
        by_cases hrc : (L.adfWriteEntryBlock adfimage.vol.image adfimage.vol.rootBlock
            { block with access := setpermAccess L perms block.access }).2 = adfRcOk
        · rw [blocks.write_same _ _ _ _ hread hrc, blocks.replace_eq_self _ _ _ _ _ hread]
          simp [hread, hrc]
        · rw [blocks.write_failed _ _ _ _ hread hrc]
          simp [hread, hrc]
      · rw [blocks.write_other _ _ _ _ _ hread (Ne.symm hsector)]
        simp [hsector]

/-- Neither a change of permissions nor `adffs_chmod` changes the root block, unless the path is
looked up as the root and the block is written with other words. -/
theorem rootKept_iff (adfimage : Adfimage Image) (path : CStr) :
    (∀ perms, RootKept blocks adfimage (adfimageSetperm L adfimage path perms).2 ↔
      ¬ (TargetsRoot L adfimage path ∧ RootOverwritten blocks adfimage perms)) ∧
    ∀ mode, RootKept blocks adfimage (adffsChmod L adfimage path mode).2 ↔
      ¬ (TargetsRoot L adfimage path ∧ RootOverwritten blocks adfimage (chmodPerms mode)) := by
  refine ⟨rootKept_setperm_iff blocks adfimage path, fun mode ↦ ?_⟩
  rw [← rootKept_setperm_iff blocks adfimage path (chmodPerms mode), adffsChmod]
  rcases adfimageSetperm L adfimage path (chmodPerms mode) with ⟨written, after⟩
  cases written <;> rfl

end Setperm

theorem rootKept_foo :
    RootKept RamDisk.rawBlocks RamDisk.mounted
      (adffsChmod RamDisk.lib RamDisk.mounted "/foo".toList 0o600).2 := by
  apply ((rootKept_iff RamDisk.rawBlocks RamDisk.mounted "/foo".toList).2 0o600).mpr
  rintro ⟨⟨hroot, -⟩ | ⟨-, entry, hentry, -, hsector⟩, -⟩
  · exact absurd hroot (by decide)
  · have hfound : (entryAt RamDisk.lib RamDisk.mounted "/foo".toList).map AdfEntry.sector =
        some 883 := by decide
    rw [hentry, Option.map_some, hsector] at hfound
    exact absurd hfound (by decide)

/-- The mode 0600 for the mount point sets a bit of a bitmap pointer, in both functions. -/
theorem not_rootKept_mounted :
    ¬ RootKept RamDisk.rawBlocks RamDisk.mounted
        (adfimageSetperm RamDisk.lib RamDisk.mounted "/".toList (chmodPerms 0o600)).2 ∧
      ¬ RootKept RamDisk.rawBlocks RamDisk.mounted
        (adffsChmod RamDisk.lib RamDisk.mounted "/".toList 0o600).2 := by
  constructor
  · intro h
    have hraw := congrArg (fun raw ↦ raw.2.map AdfEntryBlock.access) h.1
    revert hraw
    decide
  · intro h
    have hraw := congrArg (fun raw ↦ raw.2.map AdfEntryBlock.access) h.1
    revert hraw
    decide

end FuseAdf
