import FuseAdf.Adfimage.Lookup
import FuseAdf.Adflib.RamDisk

/-!
# Paths whose directory part does not resolve

`adfimageGetdentry` does not look at whether the directory part of its path could be entered and
searches wherever the walk has stopped.  So a path with a missing directory is refused only if the
directory the walk stops in has no entry with the last component's name, and `adfimageSetperm` and
`adfimageFileRename` inherit this.  The other operations check the walk first.
-/

namespace FuseAdf

open Adfimage NameWalk

variable {Image File : Type} (L : Adflib Image File)

/-- The handle is as before but for the working directory: no library call has named an object,
and the image is the same. -/
def Untouched (before after : Adfimage Image) : Prop :=
  after.calls = before.calls ∧ after.vol.image = before.vol.image

/-- A lookup of the path finds nothing and a change of its permissions fails and writes nothing. -/
def LookupRefused (adfimage : Adfimage Image) (path : CStr) : Prop :=
  (adfimageGetdentry L adfimage path).1.type = .none ∧
    ∀ perms, (adfimageSetperm L adfimage path perms).1 = false ∧
      Untouched adfimage (adfimageSetperm L adfimage path perms).2

/-- A renaming returns, with an error and without having renamed anything. -/
def RenameRefused (adfimage : Adfimage Image) (srcPath dstPath : CStr) : Prop :=
  (∃ fuel, (adfimageFileRename L fuel adfimage srcPath dstPath).isSome) ∧
    ∀ fuel ret after, adfimageFileRename L fuel adfimage srcPath dstPath = some (ret, after) →
      ret ≠ 0 ∧ Untouched adfimage after

/-- What a path is looked up as. -/
def dentryAt (adfimage : Adfimage Image) (path : CStr) : AdfimageDentry :=
  if path = ['/'] then adfimageGetRootDentry L adfimage else dentryOf (entryAt L adfimage path)

/-- A path is looked up as something that can be the parent in a renaming. -/
def ParentFound (adfimage : Adfimage Image) (dirpath : CStr) : Prop :=
  checkParent (dentryAt L adfimage dirpath) = none ∧
    2 ≤ parentSector (dentryAt L adfimage dirpath)

variable {L}

theorem getdentry_fst_eq_dentryAt (adfimage : Adfimage Image) (path : CStr) :
    (adfimageGetdentry L adfimage path).1 = dentryAt L adfimage path := by
  unfold dentryAt
  split_ifs with h
  · rw [h, getdentry_root]
  · rw [getdentry_fst L adfimage h]

/-- The root resolves, so an unresolved path is not the root's. -/
theorem ne_root_of_unresolved {adfimage : Adfimage Image} {path : CStr}
    (h : namedDir L adfimage (dirname path) = none) : path ≠ ['/'] := by
  rintro rfl
  simp [namedDir, chdirPieces, dirname, trimDir, pathstrGetRelative, List.rdropWhile] at h

theorem getRootDentry_valid_iff (adfimage : Adfimage Image) :
    adfimageDentryValid (adfimageGetRootDentry L adfimage) = true ↔
      (adfimageGetRootDentry L adfimage).type = .directory := by
  unfold adfimageDentryValid adfimageGetRootDentry
  cases L.adfReadRootBlock adfimage.vol.image adfimage.vol.rootBlock with
  | none => simp [AdfimageDentry.missing]
  | some root =>
    dsimp only
    cases L.adfEntBlock2Entry root.asEntryBlock with
    | none => simp [AdfimageDentry.missing]
    | some entry =>
      dsimp only
      split_ifs <;> simp

theorem getRootDentry_sector {adfimage : Adfimage Image}
    (h : (adfimageGetRootDentry L adfimage).type = .directory) :
    (adfimageGetRootDentry L adfimage).adflibEntry.sector = adfimage.vol.rootBlock := by
  unfold adfimageGetRootDentry at h ⊢
  cases hroot : L.adfReadRootBlock adfimage.vol.image adfimage.vol.rootBlock with
  | none => simp [hroot, AdfimageDentry.missing] at h
  | some root =>
    rw [hroot] at h
    dsimp only at h ⊢
    cases hentry : L.adfEntBlock2Entry root.asEntryBlock with
    | none => simp [hentry, AdfimageDentry.missing] at h
    | some entry =>
      rw [hentry] at h
      dsimp only at h ⊢
      split_ifs at h ⊢
      rfl

/-- A change of permissions, in terms of what the path is looked up as. -/
theorem setperm_eq (adfimage : Adfimage Image) (path : CStr) (perms : BitVec 32) :
    adfimageSetperm L adfimage path perms =
      let found := (adfimageGetdentry L adfimage path).2
      let sector := (dentryAt L adfimage path).adflibEntry.sector
      if adfimageDentryValid (dentryAt L adfimage path) then
        match L.adfReadEntryBlock adfimage.vol.image sector with
        | none => (false, found)
        | some block =>
            let new := { block with access := setpermAccess L perms block.access }
            let written := L.adfWriteEntryBlock adfimage.vol.image sector new
            (written.2 == adfRcOk,
              (found.record (.writeEntryBlock sector new)).setImage written.1)
      else (false, found) := by
  rw [adfimageSetperm]
  dsimp only
  rw [getdentry_fst_eq_dentryAt, getdentry_image]
  cases adfimageDentryValid (dentryAt L adfimage path) with
  | false => rfl
  | true =>
    cases L.adfReadEntryBlock adfimage.vol.image (dentryAt L adfimage path).adflibEntry.sector with
    | none => rfl
    | some block => rfl

theorem setperm_of_missing {adfimage : Adfimage Image} {path : CStr}
    (h : (adfimageGetdentry L adfimage path).1.type = .none) (perms : BitVec 32) :
    adfimageSetperm L adfimage path perms = (false, (adfimageGetdentry L adfimage path).2) := by
  unfold adfimageSetperm adfimageDentryValid
  simp [h]

theorem lookupRefused_iff {adfimage : Adfimage Image} {path : CStr}
    (h : namedDir L adfimage (dirname path) = none) :
    LookupRefused L adfimage path ↔ entryAt L adfimage path = none := by
  have hfst := getdentry_fst L adfimage (ne_root_of_unresolved h)
  have htype : (adfimageGetdentry L adfimage path).1.type = .none ↔ entryAt L adfimage path = none := by
    rw [hfst]
    exact dentryOf_type_eq_none _
  constructor
  · intro hrefused
    exact htype.mp hrefused.1
  · intro hmissing
    refine ⟨htype.mpr hmissing, fun perms ↦ ?_⟩
    rw [setperm_of_missing (htype.mpr hmissing) perms]
    exact ⟨rfl, getdentry_calls L adfimage path, getdentry_image L adfimage path⟩

/-- The errors with which a renaming is refused before the library is asked. -/
theorem checkParent_eq_some {dentry : AdfimageDentry} {error : ℤ}
    (h : checkParent dentry = some error) : error = -eNoEnt ∨ error = -eInval := by
  unfold checkParent at h
  split_ifs at h
  · exact Or.inl (Option.some.inj h).symm
  · exact Or.inr (Option.some.inj h).symm

/-- If both parents are found, the second looked up from where the first lookup leaves the volume,
the library is asked to rename. -/
theorem renameConverted_of_found {adfimage : Adfimage Image} (srcPath dstPath : Path)
    (hsrc : ParentFound L adfimage srcPath.dirpath)
    (hdst : ParentFound L (adfimageGetdentry L adfimage srcPath.dirpath).2 dstPath.dirpath) :
    renameConverted L adfimage srcPath dstPath =
      let middle := (adfimageGetdentry L adfimage srcPath.dirpath).2
      let srcSector := parentSector (dentryAt L adfimage srcPath.dirpath)
      let dstSector := parentSector (dentryAt L middle dstPath.dirpath)
      let renamed := L.adfRenameEntry adfimage.vol.image srcSector srcPath.entryname dstSector
        dstPath.entryname
      (if renamed.2 = adfRcOk then 0 else -1,
        ((adfimageGetdentry L middle dstPath.dirpath).2.record (.renameEntry srcSector
          srcPath.entryname dstSector dstPath.entryname)).setImage renamed.1) := by
  obtain ⟨hcheck, hlow⟩ := hsrc
  obtain ⟨hcheck', hlow'⟩ := hdst
  rw [renameConverted]
  dsimp only
  rw [getdentry_fst_eq_dentryAt, getdentry_fst_eq_dentryAt, hcheck]
  dsimp only
  rw [hcheck']
  dsimp only
  rw [if_neg (Int.not_lt.mpr hlow), if_neg (Int.not_lt.mpr hlow'), getdentry_image, getdentry_image]

/-- Otherwise it returns an error and the library is not asked. -/
theorem renameConverted_of_not_found {adfimage : Adfimage Image} (srcPath dstPath : Path)
    (h : ¬ (ParentFound L adfimage srcPath.dirpath ∧
      ParentFound L (adfimageGetdentry L adfimage srcPath.dirpath).2 dstPath.dirpath)) :
    (renameConverted L adfimage srcPath dstPath).1 ∈ [-eNoEnt, -eInval, -1] ∧
      Untouched adfimage (renameConverted L adfimage srcPath dstPath).2 := by
  have hcalls := getdentry_calls L adfimage srcPath.dirpath
  have himage := getdentry_image L adfimage srcPath.dirpath
  have hcalls' := getdentry_calls L (adfimageGetdentry L adfimage srcPath.dirpath).2 dstPath.dirpath
  have himage' := getdentry_image L (adfimageGetdentry L adfimage srcPath.dirpath).2 dstPath.dirpath
  have hfirst : Untouched adfimage (adfimageGetdentry L adfimage srcPath.dirpath).2 :=
    ⟨hcalls, himage⟩
  have hsecond : Untouched adfimage
      (adfimageGetdentry L (adfimageGetdentry L adfimage srcPath.dirpath).2 dstPath.dirpath).2 :=
    ⟨hcalls'.trans hcalls, himage'.trans himage⟩
  unfold ParentFound at h
  rw [renameConverted]
  dsimp only
  rw [getdentry_fst_eq_dentryAt, getdentry_fst_eq_dentryAt]
  cases hcheck : checkParent (dentryAt L adfimage srcPath.dirpath) with
  | some error =>
    refine ⟨?_, hfirst⟩
    rcases checkParent_eq_some hcheck with rfl | rfl <;> simp
  | none =>
    dsimp only
    cases hcheck' : checkParent
        (dentryAt L (adfimageGetdentry L adfimage srcPath.dirpath).2 dstPath.dirpath) with
    | some error =>
      refine ⟨?_, hsecond⟩
      rcases checkParent_eq_some hcheck' with rfl | rfl <;> simp
    | none =>
      dsimp only
      split_ifs with hlow hlow'
      · exact ⟨by simp, hsecond⟩
      · exact ⟨by simp, hsecond⟩
      all_goals exact absurd ⟨⟨hcheck, Int.not_lt.mp hlow⟩, hcheck', Int.not_lt.mp hlow'⟩ h

/-- The library is asked to rename exactly when both parents are found. -/
theorem renameConverted_refused_iff (adfimage : Adfimage Image) (srcPath dstPath : Path) :
    ((renameConverted L adfimage srcPath dstPath).1 ≠ 0 ∧
      Untouched adfimage (renameConverted L adfimage srcPath dstPath).2) ↔
    ¬ (ParentFound L adfimage srcPath.dirpath ∧
      ParentFound L (adfimageGetdentry L adfimage srcPath.dirpath).2 dstPath.dirpath) := by
  constructor
  · intro ⟨_, hcalls, _⟩ ⟨hsrc, hdst⟩
    rw [renameConverted_of_found _ _ hsrc hdst] at hcalls
    simp at hcalls
  · intro h
    obtain ⟨hret, huntouched⟩ := renameConverted_of_not_found _ _ h
    refine ⟨?_, huntouched⟩
    intro hzero
    rw [hzero] at hret
    revert hret
    decide

theorem fileRename_of_converts {adfimage : Adfimage Image} {srcPath dstPath : CStr} {fuel : ℕ}
    {ret : ℤ} {after : Adfimage Image}
    (h : adfimageFileRename L fuel adfimage srcPath dstPath = some (ret, after)) :
    ∃ srcDirpath dstDirpath, ConvertsTo (dirname srcPath) srcDirpath ∧
      ConvertsTo (dirname dstPath) dstDirpath ∧
      renameConverted L adfimage { pathCreate srcPath with dirpath := srcDirpath }
        { pathCreate dstPath with dirpath := dstDirpath } = (ret, after) := by
  rw [fileRename_eq] at h
  obtain ⟨srcDirpath, hsrc, hrest⟩ := Option.bind_eq_some_iff.mp h
  obtain ⟨dstDirpath, hdst, hresult⟩ := Option.bind_eq_some_iff.mp hrest
  exact ⟨srcDirpath, dstDirpath, ⟨fuel, hsrc⟩, ⟨fuel, hdst⟩, Option.some.inj hresult⟩

/-- With enough fuel for both conversions the renaming returns. -/
theorem fileRename_isSome (adfimage : Adfimage Image) {srcPath dstPath srcDirpath dstDirpath : CStr}
    (hsrc : ConvertsTo (dirname srcPath) srcDirpath)
    (hdst : ConvertsTo (dirname dstPath) dstDirpath) :
    ∃ fuel, (adfimageFileRename L fuel adfimage srcPath dstPath).isSome := by
  obtain ⟨fuel, hfuel⟩ := hsrc
  obtain ⟨fuel', hfuel'⟩ := hdst
  refine ⟨max fuel fuel', ?_⟩
  rw [fileRename_eq, pathstrFuse2amigados_mono (Nat.le_max_left fuel fuel') hfuel,
    pathstrFuse2amigados_mono (Nat.le_max_right fuel fuel') hfuel']
  rfl

theorem renameRefused_iff (adfimage : Adfimage Image) (srcPath dstPath : CStr) :
    RenameRefused L adfimage srcPath dstPath ↔
      ∃ srcDirpath dstDirpath, ConvertsTo (dirname srcPath) srcDirpath ∧
        ConvertsTo (dirname dstPath) dstDirpath ∧
        ¬ (ParentFound L adfimage srcDirpath ∧
          ParentFound L (adfimageGetdentry L adfimage srcDirpath).2 dstDirpath) := by
  constructor
  · intro ⟨⟨fuel, hreturns⟩, hrefused⟩
    obtain ⟨⟨ret, after⟩, hrun⟩ := Option.isSome_iff_exists.mp hreturns
    obtain ⟨srcDirpath, dstDirpath, hsrc, hdst, hresult⟩ := fileRename_of_converts hrun
    refine ⟨srcDirpath, dstDirpath, hsrc, hdst, ?_⟩
    apply (renameConverted_refused_iff adfimage { pathCreate srcPath with dirpath := srcDirpath }
      { pathCreate dstPath with dirpath := dstDirpath }).mp
    rw [hresult]
    exact hrefused fuel ret after hrun
  · intro ⟨srcDirpath, dstDirpath, hsrc, hdst, hnotFound⟩
    refine ⟨fileRename_isSome adfimage hsrc hdst, ?_⟩
    intro fuel ret after hrun
    obtain ⟨srcDirpath', dstDirpath', hsrc', hdst', hresult⟩ := fileRename_of_converts hrun
    obtain rfl := hsrc.unique hsrc'
    obtain rfl := hdst.unique hdst'
    have hrefused := (renameConverted_refused_iff adfimage
      { pathCreate srcPath with dirpath := srcDirpath }
      { pathCreate dstPath with dirpath := dstDirpath }).mpr hnotFound
    rwa [hresult] at hrefused

/-! ## When an unresolved path is refused -/

/-- For a path whose directory part does not resolve: a lookup and a change of permissions are
refused exactly if the last directory reached has no entry with the last component's name, and a
renaming with such a parent exactly if it returns at all and one of the parents is not found. -/
theorem unresolved_refused_iff (adfimage : Adfimage Image) :
    (∀ path, namedDir L adfimage (dirname path) = none →
      (LookupRefused L adfimage path ↔ entryAt L adfimage path = none)) ∧
    (∀ srcPath dstPath, namedDir L adfimage (dirname (dirname srcPath)) = none ∨
        namedDir L adfimage (dirname (dirname dstPath)) = none →
      (RenameRefused L adfimage srcPath dstPath ↔
        ∃ srcDirpath dstDirpath, ConvertsTo (dirname srcPath) srcDirpath ∧
          ConvertsTo (dirname dstPath) dstDirpath ∧
          ¬ (ParentFound L adfimage srcDirpath ∧
            ParentFound L (adfimageGetdentry L adfimage srcDirpath).2 dstDirpath))) :=
  ⟨fun _ h ↦ lookupRefused_iff h, fun srcPath dstPath _ ↦ renameRefused_iff adfimage srcPath dstPath⟩

theorem unresolved_refused_nothing :
    LookupRefused RamDisk.lib RamDisk.mounted "/missing/nothing".toList ∧
      RenameRefused RamDisk.lib RamDisk.mounted "/missing/dir/foo".toList "/foo".toList := by
  obtain ⟨hlookup, hrename⟩ := unresolved_refused_iff (L := RamDisk.lib) RamDisk.mounted
  constructor
  · exact (hlookup _ (by decide)).mpr (by decide)
  · apply (hrename _ _ (Or.inl (by decide))).mpr
    refine ⟨"/missing/dir".toList, "/".toList, ⟨1, by decide⟩, ⟨1, by decide⟩, ?_⟩
    intro hfound
    exact absurd hfound.1.1 (by decide)

/-- `foo` is in the root, and so `/missing/foo` is found and its permissions change. -/
theorem unresolved_not_refused_foo :
    ¬ ∀ (adfimage : Adfimage RamDisk) (path : CStr),
      namedDir RamDisk.lib adfimage (dirname path) = none →
      LookupRefused RamDisk.lib adfimage path := by
  intro h
  have hfoo := (h RamDisk.mounted "/missing/foo".toList (by decide)).1
  revert hfoo
  decide

end FuseAdf
