import FuseAdf.Adffs.History
import FuseAdf.Adffs.Lookup

/-!
# Listing and lookup

A listing walks to the directory itself; the attributes of one of its names are found by splitting
the joined path again, walking to the directory part and searching the list for the name.  The two
agree on every directory that is written without a trailing slash.
-/

namespace FuseAdf

open Adfimage NameWalk

variable {Image File : Type} (L : Adflib Image File) (env : Env)

/-- The path of a name in a directory. -/
def joinPath (dirpath name : CStr) : CStr :=
  if dirpath = ['/'] then '/' :: name else dirpath ++ '/' :: name

/-- The directory is the root or is written without a trailing slash. -/
def NoTrailingSlash (dirpath : CStr) : Prop := dirpath = ['/'] ∨ dirpath.getLast? ≠ some '/'

/-- Joining and splitting are inverse. -/
theorem dirname_joinPath {dirpath name : CStr} (habs : dirpath.head? = some '/')
    (htrail : NoTrailingSlash dirpath) (hne : name ≠ []) (hslash : '/' ∉ name) :
    dirname (joinPath dirpath name) = dirpath := by
  rw [joinPath]
  split_ifs with hroot
  · subst hroot
    have hsplit := splits_join [] hne hslash
    rw [List.nil_append] at hsplit
    rw [hsplit.dirname_eq, if_neg (by simp)]
    rfl
  · have hdir : dirpath ≠ [] := by
      rintro rfl
      simp at habs
    have hlast : dirpath.getLast hdir ≠ '/' := by
      intro h
      apply htrail.resolve_left hroot
      rw [List.getLast?_eq_some_getLast hdir, h]
    rw [(splits_join dirpath hne hslash).dirname_eq, if_neg (by simp)]
    exact trimDir_concat_slash hdir hlast

theorem basename_joinPath (dirpath : CStr) {name : CStr} (hne : name ≠ [])
    (hslash : '/' ∉ name) : basename (joinPath dirpath name) = name := by
  rw [joinPath]
  split_ifs
  · exact (splits_join [] hne hslash).basename_eq
  · exact (splits_join dirpath hne hslash).basename_eq

theorem getRelative_joinPath (dirpath : CStr) {name : CStr} (hne : name ≠ [])
    (hslash : '/' ∉ name) : pathstrGetRelative (joinPath dirpath name) ≠ [] := by
  obtain ⟨c, rest, rfl⟩ := List.exists_cons_of_ne_nil hne
  have hc : c ≠ '/' := fun h ↦ hslash (by simp [h])
  intro hnil
  apply hc
  apply isSlash_iff.mp
  apply List.dropWhile_eq_nil_iff.mp hnil
  rw [joinPath]
  split_ifs <;> simp

/-- A name is found in a list exactly when an entry has it. -/
theorem adflibListFind_eq_none_iff (name : CStr) (entries : List AdfEntry) :
    adflibListFind name entries = none ↔ name ∉ entries.map AdfEntry.name := by
  rw [adflibListFind_eq_find, List.find?_eq_none]
  simp only [beq_iff_eq, List.mem_map, not_exists, not_and]

/-- A listing that succeeds tells which names have attributes: exactly the names that it hands over
after its two own ones, and every other name is not found.  The working directory may have changed
between the two calls. -/
theorem getattr_iff_listed (adfimage : Adfimage Image) (cwd : CStr) (curDirPtr : Sector)
    {dirpath name : CStr} (habs : dirpath.head? = some '/') (htrail : NoTrailingSlash dirpath)
    (hne : name ≠ []) (hslash : '/' ∉ name) {filler : List CStr → CStr → Bool}
    (hlist : (adffsReaddir L adfimage dirpath filler).1 = 0) :
    (adffsGetattr L env (adfimage.relocate cwd curDirPtr) (joinPath dirpath name)).1 =
      if name ∈ (adffsReaddir L adfimage dirpath filler).2.1.drop 2 then 0 else -eNoEnt := by
  have hdirpath : dirpath ≠ [] := by
    rintro rfl
    simp at habs
  obtain ⟨dir, hdir, hnames⟩ := readdir_success L hdirpath hlist
  have hparent : namedDir L (adfimage.relocate cwd curDirPtr)
      (dirname (joinPath dirpath name)) = some dir := by
    rw [dirname_joinPath habs htrail hne hslash, ← hdir, namedDir_of_absolute L _ habs,
      namedDir_of_absolute L _ habs]
    rfl
  obtain ⟨here, _, _, hattr⟩ := getattr_of_namedDir L env (adfimage.relocate cwd curDirPtr)
    (getRelative_joinPath dirpath hne hslash) hparent
  have hmem := adflibListFind_eq_none_iff name (L.adfGetDirEnt adfimage.vol.image dir)
  rw [hattr, statFound_fst, hnames, basename_joinPath dirpath hne hslash]
  simp only [dentryOf_type_eq_none, List.drop_succ_cons, List.drop_zero]
  change (if adflibListFind name (L.adfGetDirEnt adfimage.vol.image dir) = none then _ else _) = _
  simp only [hmem, ite_not]

/-- In the sample volume `map` is listed in `Plot`. -/
theorem getattr_iff_listed_map :
    (adffsReaddir RamDisk.lib RamDisk.mounted "/Plot".toList fun _ _ ↦ false).1 = 0 ∧
      (adffsGetattr RamDisk.lib default (RamDisk.mounted.relocate "/".toList 885)
        (joinPath "/Plot".toList "map".toList)).1 = 0 := by
  have hlist : (adffsReaddir RamDisk.lib RamDisk.mounted "/Plot".toList fun _ _ ↦ false).1 = 0 := by
    decide
  refine ⟨hlist, ?_⟩
  rw [getattr_iff_listed RamDisk.lib default RamDisk.mounted "/".toList 885 rfl
    (Or.inr (by decide)) (by decide) (by decide) hlist]
  decide

end FuseAdf
