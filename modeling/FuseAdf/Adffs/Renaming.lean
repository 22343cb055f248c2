import FuseAdf.Adffs.History
import FuseAdf.Adfimage.NameLookup
import FuseAdf.Path.Converting

/-!
# Renaming between two directories

For paths as FUSE sends them a renaming looks up both directory parts and asks the library once, with
the sectors it has found.  It gets so far only if the conversion of the directory parts ends, and then
they are looked up as they were given.
-/

namespace FuseAdf

open Adfimage NameWalk

variable {Image File : Type} (L : Adflib Image File)

/-- The directory part of the path is spelled as its own directory lists it, or it is the root, whose
block can be read. -/
def ParentSpelled (adfimage : Adfimage Image) (path : CStr) : Prop :=
  if dirname path = ['/'] then (adfimageGetRootDentry L adfimage).type = .directory
  else ∃ dir, namedDir L adfimage (dirname (dirname path)) = some dir ∧
    ∃ entry ∈ L.adfGetDirEnt adfimage.vol.image dir, entry.name = basename (dirname path)

/-- The parent of the path exists in the spelling that the path gives it. -/
structure ParentIs (adfimage : Adfimage Image) (path : CStr) (sector : Sector) : Prop where
  named : namedDir L adfimage (dirname path) = some sector
  spelled : ParentSpelled L adfimage path

/-- A renaming returns, has asked the library once, to rename the entry between these two
directories, and returns 0 exactly if the library has done so. -/
def RenamesBetween (adfimage : Adfimage Image) (srcPath dstPath : CStr) (srcDir dstDir : Sector) :
    Prop :=
  let renamed := L.adfRenameEntry adfimage.vol.image srcDir (basename srcPath) dstDir
    (basename dstPath)
  (∃ fuel, (adfimageFileRename L fuel adfimage srcPath dstPath).isSome) ∧
    ∀ fuel ret after, adfimageFileRename L fuel adfimage srcPath dstPath = some (ret, after) →
      after.calls = adfimage.calls ++
        [.renameEntry srcDir (basename srcPath) dstDir (basename dstPath)] ∧
      after.vol.image = renamed.1 ∧ (ret = 0 ↔ renamed.2 = adfRcOk)

variable {L}

/-- Only the first character is a leading slash. -/
theorem getRelative_of_fusePath {path : CStr} (h : IsFusePath path) :
    pathstrGetRelative path = path.tail := by
  have hhead : path.tail.head? ≠ some '/' := by
    intro hslash
    have hempty : [] ∈ path.tail.splitOn '/' := by
      rw [eq_cons_tail hslash, ← List.nil_append ('/' :: _), List.splitOn_append_cons_self]
      simp
    exact (h.components [] hempty).1 rfl
  calc
    pathstrGetRelative path = pathstrGetRelative (['/'] ++ path.tail) :=
      congrArg pathstrGetRelative (eq_cons_tail h.absolute)
    _ = pathstrGetRelative path.tail := getRelative_slashes_append (by simp) _
    _ = path.tail := getRelative_of_relative hhead

theorem getRelative_ne_nil_of_fusePath {path : CStr} (h : IsFusePath path) :
    pathstrGetRelative path ≠ [] := by
  rw [getRelative_of_fusePath h]
  intro hnil
  exact (h.components [] (by rw [hnil]; decide)).1 rfl

theorem components_of_fusePath {path : CStr} (h : IsFusePath path) :
    components path = path.tail.splitOn '/' := by
  rw [components_eq_splitOn (getRelative_ne_nil_of_fusePath h), getRelative_of_fusePath h]

/-- Such a path is walked along its directory part and then through its last component. -/
theorem namedDir_of_fusePath {adfimage : Adfimage Image} {path : CStr} (h : IsFusePath path) :
    namedDir L adfimage path =
      (namedDir L adfimage (dirname path)).bind fun dir ↦
        look L adfimage dir (basename path) := by
  have hempty : [] ∉ components path := by
    rw [components_of_fusePath h]
    exact fun hmem ↦ (h.components [] hmem).1 rfl
  have hdot : ['.'] ∉ components path := by
    rw [components_of_fusePath h]
    exact fun hmem ↦ (h.components ['.'] hmem).2.1 rfl
  rw [namedDir_of_absolute L adfimage h.absolute,
    namedDir_of_absolute L adfimage (head_dirname h.absolute),
    chdirPieces_concat (getRelative_ne_nil_of_fusePath h) hempty hdot, walk_append]
  congr 1
  funext dir
  rw [walk_cons]
  cases look L adfimage dir (basename path) <;> rfl

/-- A directory that exists in this spelling is looked up as one, with the sector it is entered at. -/
theorem ParentIs.found {adfimage : Adfimage Image} {path : CStr} {sector : Sector}
    (h : ParentIs L adfimage path sector) (hL : L.NameLookup adfimage.vol.image)
    (hpath : IsFusePath path) :
    checkParent (dentryAt L adfimage (dirname path)) = none ∧
      parentSector (dentryAt L adfimage (dirname path)) = sector := by
  have hspelled := h.spelled
  have hnamed := h.named
  unfold ParentSpelled at hspelled
  rw [dentryAt]
  split_ifs at hspelled ⊢ with hroot
  · rw [hroot] at hnamed
    have hsector : adfimage.vol.rootBlock = sector := Option.some.inj hnamed
    rw [checkParent, parentSector, hspelled, getRootDentry_sector hspelled, hsector]
    exact ⟨rfl, rfl⟩
  · have hdir : IsFusePath (dirname path) := hpath.dirname_eq.resolve_left hroot
    obtain ⟨dir, hparent, entry, hentry, hname⟩ := hspelled
    rw [namedDir_of_fusePath hdir, hparent, Option.bind_some] at hnamed
    obtain ⟨entered, hentered, htype⟩ := hL.changeDir dir _ sector hnamed
    obtain ⟨hmem, hsame⟩ := of_lookupName hentered
    have hentered' : entered = entry := by
      apply eq_of_sameName hL hmem hsame hentry
      rw [hname]
      exact hL.refl _
    have hlisted : adflibListFind (basename (dirname path))
        (L.adfGetDirEnt adfimage.vol.image dir) = some entered := by
      rw [hentered', ← hname]
      exact listFind_of_mem hL hentry
    rw [entryAt, lastDir_of_namedDir L hparent, hlisted]
    rcases htype with ⟨htype, rfl⟩ | ⟨htype, rfl⟩ <;>
      simp [dentryOf, dentryType, htype, checkParent, parentSector]

/-! ## The renaming -/

/-- What an absolute path is looked up as does not depend on the lookups before it. -/
theorem dentryAt_after_getdentry (adfimage : Adfimage Image) (first : CStr) {path : CStr}
    (habs : path.head? = some '/') :
    dentryAt L (adfimageGetdentry L adfimage first).2 path = dentryAt L adfimage path := by
  rw [← getdentry_fst_eq_dentryAt, ← getdentry_fst_eq_dentryAt]
  exact getdentry_elsewhere L (elsewhere_getdentry L adfimage first).symm habs

/-- The renaming of two converted paths whose parents exist. -/
theorem renameConverted_between {adfimage : Adfimage Image} (hL : L.NameLookup adfimage.vol.image)
    {srcPath dstPath : CStr} {srcDir dstDir : Sector} (hsrc : IsFusePath srcPath)
    (hdst : IsFusePath dstPath) (hsrcDir : ParentIs L adfimage srcPath srcDir)
    (hdstDir : ParentIs L adfimage dstPath dstDir) (hsrcLow : 2 ≤ srcDir) (hdstLow : 2 ≤ dstDir) :
    let converted := renameConverted L adfimage (pathCreate srcPath) (pathCreate dstPath)
    let renamed := L.adfRenameEntry adfimage.vol.image srcDir (basename srcPath) dstDir
      (basename dstPath)
    converted.1 = (if renamed.2 = adfRcOk then 0 else -1) ∧
      converted.2.calls = adfimage.calls ++
        [.renameEntry srcDir (basename srcPath) dstDir (basename dstPath)] ∧
      converted.2.vol.image = renamed.1 := by
  intro converted renamed
  obtain ⟨hsrcCheck, hsrcSector⟩ := hsrcDir.found hL hsrc
  obtain ⟨hdstCheck, hdstSector⟩ := hdstDir.found hL hdst
  have hmiddle := dentryAt_after_getdentry (L := L) adfimage (dirname srcPath)
    (head_dirname hdst.absolute)
  rw [← hmiddle] at hdstCheck hdstSector
  have hconverted : converted = _ := renameConverted_of_found
    (pathCreate srcPath) (pathCreate dstPath)
    ⟨hsrcCheck, hsrcSector ▸ hsrcLow⟩ ⟨hdstCheck, hdstSector ▸ hdstLow⟩
  rw [hconverted]
  dsimp only [pathCreate_dirpath, pathCreate_entryname]
  rw [hsrcSector, hdstSector]
  exact ⟨rfl, by simp, rfl⟩

theorem two_le_of_named {adfimage : Adfimage Image} {path : CStr} {sector : Sector}
    (hlow : ∀ dir name next, L.adfChangeDir adfimage.vol.image dir name = some next → 2 ≤ next)
    (hroot : 2 ≤ adfimage.vol.rootBlock) (hpath : IsFusePath path)
    (h : namedDir L adfimage (dirname path) = some sector) : 2 ≤ sector := by
  rcases hpath.dirname_eq with hdirname | hdirname
  · rw [hdirname] at h
    obtain rfl := Option.some.inj h
    exact hroot
  · rw [namedDir_of_fusePath hdirname] at h
    obtain ⟨dir, -, hnext⟩ := Option.bind_eq_some_iff.mp h
    exact hlow dir _ sector hnext

/-- For paths as FUSE sends them whose parents exist in the spelling given, a renaming acts on the
named directories exactly if neither directory part has a component that begins with two dots or,
before its last, ends with two dots. -/
theorem renamesBetween_iff (adfimage : Adfimage Image) (hL : L.NameLookup adfimage.vol.image)
    (hlow : ∀ dir name next, L.adfChangeDir adfimage.vol.image dir name = some next → 2 ≤ next)
    (hroot : 2 ≤ adfimage.vol.rootBlock) (srcPath dstPath : CStr) (srcDir dstDir : Sector)
    (hsrc : IsFusePath srcPath) (hdst : IsFusePath dstPath)
    (hsrcDir : ParentIs L adfimage srcPath srcDir) (hdstDir : ParentIs L adfimage dstPath dstDir) :
    RenamesBetween L adfimage srcPath dstPath srcDir dstDir ↔
      IsConvertible (dirname srcPath) ∧ IsConvertible (dirname dstPath) := by
  constructor
  · intro ⟨⟨fuel, hreturns⟩, _⟩
    obtain ⟨⟨ret, after⟩, hrun⟩ := Option.isSome_iff_exists.mp hreturns
    obtain ⟨srcDirpath, dstDirpath, hsrcConverts, hdstConverts, _⟩ := fileRename_of_converts hrun
    exact ⟨(hsrc.convertsTo_dirname_iff.mp hsrcConverts).1,
      (hdst.convertsTo_dirname_iff.mp hdstConverts).1⟩
  · intro ⟨hsrcConvertible, hdstConvertible⟩
    have hsrcConverts := hsrc.convertsTo_dirname_iff.mpr ⟨hsrcConvertible, rfl⟩
    have hdstConverts := hdst.convertsTo_dirname_iff.mpr ⟨hdstConvertible, rfl⟩
    refine ⟨fileRename_isSome adfimage hsrcConverts hdstConverts, ?_⟩
    intro fuel ret after hrun
    obtain ⟨srcDirpath, dstDirpath, hsrc', hdst', hresult⟩ := fileRename_of_converts hrun
    obtain rfl := hsrc'.unique hsrcConverts
    obtain rfl := hdst'.unique hdstConverts
    obtain ⟨hret, hcalls, himage⟩ := renameConverted_between hL hsrc hdst hsrcDir hdstDir
      (two_le_of_named hlow hroot hsrc hsrcDir.named)
      (two_le_of_named hlow hroot hdst hdstDir.named)
    change renameConverted L adfimage (pathCreate srcPath) (pathCreate dstPath) = _ at hresult
    rw [hresult] at hret hcalls himage
    refine ⟨hcalls, himage, ?_⟩
    have hret' : ret = _ := hret
    rw [hret']
    split_ifs with hok <;> simp [hok]

theorem renamesBetween_map :
    RenamesBetween RamDisk.lib RamDisk.mounted "/Plot/map".toList "/Attic/chart".toList 882 885 := by
  apply (renamesBetween_iff RamDisk.mounted (RamDisk.nameLookup RamDisk.consistent_sample)
    RamDisk.two_le_of_changeDir_sample (by decide) "/Plot/map".toList "/Attic/chart".toList 882 885
    ⟨by decide, by decide, by decide⟩ ⟨by decide, by decide, by decide⟩
    ⟨by decide, ?_⟩ ⟨by decide, ?_⟩).mpr
  · constructor <;> constructor <;> decide +kernel
  · have hlisted : ∃ entry ∈ RamDisk.sample.getDirEnt 880, entry.name = "Plot".toList := by decide
    exact ⟨880, by decide, hlisted⟩
  · have hlisted : ∃ entry ∈ RamDisk.sample.getDirEnt 880, entry.name = "Attic".toList := by decide
    exact ⟨880, by decide, hlisted⟩

/-- The sample volume with a directory `..x` in the root. -/
def dotted : RamDisk := (RamDisk.create .dir RamDisk.sample 880 "..x".toList).1

theorem dirs_dotted (dir : Sector) : dotted.dirs dir =
    if dir = 880 then RamDisk.sample.dirs 880 ++ [("..x".toList, 886)]
    else RamDisk.sample.dirs dir := rfl

theorem consistent_dotted : dotted.Consistent where
  named dir cell hcell := by
    rw [dirs_dotted] at hcell
    simp only [RamDisk.sample] at hcell
    split_ifs at hcell
    · simp only [List.mem_append, List.mem_cons, List.not_mem_nil, or_false] at hcell
      rcases hcell with (rfl | rfl | rfl) | rfl <;> decide
    · rw [List.mem_singleton.mp hcell]
      decide
    · exact absurd hcell List.not_mem_nil
  unique dir := by
    rw [dirs_dotted]
    simp only [RamDisk.sample]
    split_ifs <;> decide

theorem two_le_of_changeDir_dotted (dir : Sector) (name : CStr) (next : Sector)
    (h : dotted.changeDir dir name = some next) : 2 ≤ next := by
  apply RamDisk.two_le_of_changeDir consistent_dotted ?_ name next h
  by_cases hroot : dir = 880
  · subst hroot
    decide +kernel
  · by_cases hplot : dir = 882
    · subst hplot
      decide +kernel
    · have hempty : dotted.dirs dir = [] := by
        rw [dirs_dotted, if_neg hroot, RamDisk.sample]
        simp only [if_neg hroot, if_neg hplot]
      simp [RamDisk.getDirEnt, hempty]

/-- Moving `/..x/a` to `/b` never returns: the `/..` of its directory part is found again and
again. -/
theorem not_renamesBetween_dotted :
    ¬ ∀ (adfimage : Adfimage RamDisk) (srcPath dstPath : CStr) (srcDir dstDir : Sector),
      RamDisk.lib.NameLookup adfimage.vol.image →
      (∀ dir name next, RamDisk.lib.adfChangeDir adfimage.vol.image dir name = some next →
        2 ≤ next) →
      2 ≤ adfimage.vol.rootBlock → IsFusePath srcPath → IsFusePath dstPath →
      ParentIs RamDisk.lib adfimage srcPath srcDir →
      ParentIs RamDisk.lib adfimage dstPath dstDir →
      RenamesBetween RamDisk.lib adfimage srcPath dstPath srcDir dstDir := by
  intro h
  have hsrc : IsFusePath "/..x/a".toList := ⟨by decide, by decide, by decide⟩
  have hsrcDir : ParentIs RamDisk.lib (RamDisk.mounted.setImage dotted) "/..x/a".toList 886 := by
    have hlisted : ∃ entry ∈ dotted.getDirEnt 880, entry.name = "..x".toList := by decide
    exact ⟨by decide, 880, by decide, hlisted⟩
  have hdstDir : ParentIs RamDisk.lib (RamDisk.mounted.setImage dotted) "/b".toList 880 := by
    have hroot : (adfimageGetRootDentry RamDisk.lib (RamDisk.mounted.setImage dotted)).type =
        .directory := by decide
    exact ⟨by decide, hroot⟩
  obtain ⟨⟨fuel, hreturns⟩, -⟩ := h (RamDisk.mounted.setImage dotted) "/..x/a".toList
    "/b".toList 886 880 (RamDisk.nameLookup consistent_dotted) two_le_of_changeDir_dotted
    (by decide) hsrc ⟨by decide, by decide, by decide⟩ hsrcDir hdstDir
  obtain ⟨⟨ret, after⟩, hrun⟩ := Option.isSome_iff_exists.mp hreturns
  obtain ⟨srcDirpath, dstDirpath, hconverts, -⟩ := fileRename_of_converts hrun
  obtain ⟨hconvertible, -⟩ := hsrc.convertsTo_dirname_iff.mp hconverts
  exact hconvertible.2 (by decide)

end FuseAdf
