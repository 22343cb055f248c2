import FuseAdf.Adfimage.Resolution
import FuseAdf.Adfimage.Targets

/-!
# The names that reach the library

`basename` gives a name that can be an entry's for every path but the empty one and those of slashes
only, for which it gives `.` and `/`.  Creating and removing refuse these paths before they split
them.  A renaming means to refuse an empty entry name, but its check reads the directory part, which
is never empty either.
-/

namespace FuseAdf

open Adfimage NameWalk

variable {Image File : Type} (L : Adflib Image File)

/-- A name that an entry of a directory can have. -/
def IsEntryName (name : CStr) : Prop := name ≠ [] ∧ '/' ∉ name

/-- The names that a call gives to an entry, or by which it removes one. -/
def AdfCall.entryNames : AdfCall → List CStr
  | .createDir _ name => [name]
  | .removeEntry _ name => [name]
  | .createFile _ name => [name]
  | .renameEntry _ oldName _ newName => [oldName, newName]
  | _ => []

/-- Every entry name in the calls that were made in between is one. -/
def PassesEntryNames (before after : Adfimage Image) : Prop :=
  ∃ made, after.calls = before.calls ++ made ∧
    ∀ call ∈ made, ∀ name ∈ call.entryNames, IsEntryName name

/-- The path is empty or made of slashes only. -/
def NamesRoot (path : CStr) : Prop := pathstrGetRelative path = []

instance (path : CStr) : Decidable (NamesRoot path) := inferInstanceAs (Decidable (_ = _))

/-- The return value of one of the operations that create or remove an entry. -/
def Mutation.ret (adfimage : Adfimage Image) (path : CStr) : Mutation → ℤ
  | mkdir => (adfimageMkdir L adfimage path).1
  | rmdir => (adfimageRmdir L adfimage path).1
  | unlink => (adfimageUnlink L adfimage path).1
  | create => (adfimageCreate L adfimage path).1

/-- Only entry names are passed on, and the root is refused. -/
def Mutation.NamesEntries (adfimage : Adfimage Image) (path : CStr) (mutation : Mutation) : Prop :=
  PassesEntryNames adfimage (mutation.run L adfimage path) ∧
    (NamesRoot path → mutation.ret L adfimage path ≠ 0 ∧
      Untouched adfimage (mutation.run L adfimage path))

/-- Only entry names are passed on, and a renaming from or to the root is refused. -/
def RenameNamesEntries (adfimage : Adfimage Image) (srcPath dstPath : CStr) : Prop :=
  (∀ fuel ret after, adfimageFileRename L fuel adfimage srcPath dstPath = some (ret, after) →
    PassesEntryNames adfimage after) ∧
  (NamesRoot srcPath ∨ NamesRoot dstPath → RenameRefused L adfimage srcPath dstPath)

variable {L}

theorem isEntryName_basename {path : CStr} (h : ¬ NamesRoot path) : IsEntryName (basename path) :=
  ⟨basename_ne_nil (exists_ne_slash h), slash_not_mem_basename (exists_ne_slash h)⟩

/-- Without its leading slashes a path has the same last component. -/
theorem not_namesRoot_getRelative {path : CStr} (h : ¬ NamesRoot path) :
    ¬ NamesRoot (pathstrGetRelative path) := by
  rw [NamesRoot, getRelative_of_relative (head_getRelative path)]
  exact h

theorem mutation_namesEntries (adfimage : Adfimage Image) (path : CStr) (mutation : Mutation) :
    mutation.NamesEntries L adfimage path := by
  by_cases hroot : NamesRoot path
  · have hrefused : ∀ (emptyPath : ℤ) call event (result : RetCode → ℤ),
        inParentFromRoot L adfimage path emptyPath call event result = (-emptyPath, adfimage) :=
      fun _ _ _ _ ↦ inParentFromRoot_of_root L adfimage _ _ _ _ hroot
    have hrun : mutation.run L adfimage path = adfimage := by
      cases mutation <;> exact congrArg Prod.snd (hrefused _ _ _ _)
    have hret : mutation.ret L adfimage path ≠ 0 := by
      have hexist : -eExist ≠ 0 := by decide
      have hperm : -ePerm ≠ 0 := by decide
      have hinval : -eInval ≠ 0 := by decide
      cases mutation with
      | mkdir => exact (congrArg Prod.fst (hrefused eExist _ _ _)).trans_ne hexist
      | rmdir => exact (congrArg Prod.fst (hrefused ePerm _ _ _)).trans_ne hperm
      | unlink => exact (congrArg Prod.fst (hrefused ePerm _ _ _)).trans_ne hperm
      | create => exact (congrArg Prod.fst (hrefused eInval _ _ _)).trans_ne hinval
    rw [Mutation.NamesEntries, hrun]
    exact ⟨⟨[], by simp, by simp⟩, fun _ ↦ ⟨hret, rfl, rfl⟩⟩
  · refine ⟨⟨_, mutation_calls L adfimage hroot mutation, ?_⟩, fun h ↦ absurd h hroot⟩
    have hname := isEntryName_basename (not_namesRoot_getRelative hroot)
    intro call hcall name hmem
    rw [mutationTarget_eq, Option.map_map] at hcall
    obtain ⟨dir, _, rfl⟩ := Option.map_eq_some_iff.mp (Option.mem_toList.mp hcall)
    have hbase : name = basename (pathstrGetRelative path) := by
      cases mutation <;> exact List.mem_singleton.mp hmem
    rw [hbase]
    exact hname

theorem PassesEntryNames.of_untouched {before after : Adfimage Image}
    (h : Untouched before after) : PassesEntryNames before after :=
  ⟨[], by rw [h.1, List.append_nil], by simp⟩

/-- A renaming makes no other call than one with the two last components. -/
theorem renameConverted_calls (adfimage : Adfimage Image) (srcPath dstPath : Path) :
    (renameConverted L adfimage srcPath dstPath).2.calls = adfimage.calls ∨
      ∃ srcSector dstSector, (renameConverted L adfimage srcPath dstPath).2.calls =
        adfimage.calls ++
          [.renameEntry srcSector srcPath.entryname dstSector dstPath.entryname] := by
  by_cases hfound : ParentFound L adfimage srcPath.dirpath ∧
      ParentFound L (adfimageGetdentry L adfimage srcPath.dirpath).2 dstPath.dirpath
  · right
    rw [renameConverted_of_found _ _ hfound.1 hfound.2]
    exact ⟨_, _, by rw [setImage_calls, record_calls, getdentry_calls, getdentry_calls]⟩
  · exact Or.inl (renameConverted_of_not_found _ _ hfound).2.1

theorem fileRename_passesEntryNames {adfimage after : Adfimage Image} {srcPath dstPath : CStr}
    {fuel : ℕ} {ret : ℤ} (hsrc : ¬ NamesRoot srcPath) (hdst : ¬ NamesRoot dstPath)
    (h : adfimageFileRename L fuel adfimage srcPath dstPath = some (ret, after)) :
    PassesEntryNames adfimage after := by
  obtain ⟨srcDirpath, dstDirpath, _, _, hresult⟩ := fileRename_of_converts h
  have hcalls := renameConverted_calls (L := L) adfimage
    { pathCreate srcPath with dirpath := srcDirpath }
    { pathCreate dstPath with dirpath := dstDirpath }
  rw [hresult] at hcalls
  rcases hcalls with hnone | ⟨srcSector, dstSector, hone⟩
  · exact ⟨[], by rw [hnone, List.append_nil], by simp⟩
  · refine ⟨_, hone, ?_⟩
    intro call hcall name hname
    rw [List.mem_singleton.mp hcall] at hname
    rcases List.mem_pair.mp hname with rfl | rfl
    · exact isEntryName_basename hsrc
    · exact isEntryName_basename hdst

theorem renameNamesEntries_iff (adfimage : Adfimage Image) (srcPath dstPath : CStr) :
    RenameNamesEntries L adfimage srcPath dstPath ↔
      (¬ NamesRoot srcPath ∧ ¬ NamesRoot dstPath) ∨ RenameRefused L adfimage srcPath dstPath := by
  constructor
  · intro ⟨_, hroot⟩
    by_cases h : NamesRoot srcPath ∨ NamesRoot dstPath
    · exact Or.inr (hroot h)
    · exact Or.inl (not_or.mp h)
  · rintro (⟨hsrc, hdst⟩ | hrefused)
    · exact ⟨fun fuel ret after h ↦ fileRename_passesEntryNames hsrc hdst h,
        fun h ↦ absurd h (not_or.mpr ⟨hsrc, hdst⟩)⟩
    · exact ⟨fun fuel ret after h ↦ .of_untouched (hrefused.2 fuel ret after h).2,
        fun _ ↦ hrefused⟩

/-! ## Valid names only -/

/-- Creating and removing pass entry names only and refuse the root, whatever the path.  A renaming
does exactly if neither of its paths is the root's, or if it is refused because its directory parts
are converted and one of them is not looked up as a directory. -/
theorem namesEntries_iff (adfimage : Adfimage Image) :
    (∀ (mutation : Mutation) (path : CStr), mutation.NamesEntries L adfimage path) ∧
    ∀ srcPath dstPath, RenameNamesEntries L adfimage srcPath dstPath ↔
      (¬ NamesRoot srcPath ∧ ¬ NamesRoot dstPath) ∨
      ∃ srcDirpath dstDirpath, ConvertsTo (dirname srcPath) srcDirpath ∧
        ConvertsTo (dirname dstPath) dstDirpath ∧
        ¬ (ParentFound L adfimage srcDirpath ∧
          ParentFound L (adfimageGetdentry L adfimage srcDirpath).2 dstDirpath) := by
  refine ⟨fun mutation path ↦ mutation_namesEntries adfimage path mutation, ?_⟩
  intro srcPath dstPath
  rw [renameNamesEntries_iff, renameRefused_iff]

/-- The file `foo` is renamed to a slash. -/
theorem not_renameNamesEntries_slash :
    ¬ RenameNamesEntries RamDisk.lib RamDisk.mounted "/foo".toList "/".toList := by
  intro h
  obtain ⟨made, hcalls, hnames⟩ := h.1 1 _ _ rfl
  have hmade : made = [.renameEntry 880 "foo".toList 880 "/".toList] := by
    rw [← List.nil_append made]
    exact hcalls.symm
  rw [hmade] at hnames
  have hslash := (hnames _ List.mem_cons_self "/".toList (by decide)).2
  exact absurd hslash (by decide)

end FuseAdf
