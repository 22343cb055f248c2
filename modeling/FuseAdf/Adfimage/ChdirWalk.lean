import FuseAdf.Adfimage.WorkingDirectory
import FuseAdf.Adflib.RamDisk

/-!
# Changing the directory as a walk along the components

`adfimageChdir` is compared with the walk that a reader would expect: split what is left of the path
after its leading slashes, look the pieces up one after another, and join them to the string.  The
two agree for every path, and the string names the current directory afterwards even if the walk
fails half way.  What a failed walk has entered by then stays entered.
-/

namespace FuseAdf

open Adfimage NameWalk

variable {Image File : Type} (L : Adflib Image File)

/-- The directory that a walk along a path starts from. -/
def startDir (adfimage : Adfimage Image) (path : CStr) : Sector :=
  if path.head? = some '/' then adfimage.vol.rootBlock else adfimage.vol.curDirPtr

/-- The string of that directory. -/
def startCwd (adfimage : Adfimage Image) (path : CStr) : CStr :=
  if path.head? = some '/' then ['/'] else adfimage.cwd

/-- A directory's string with more components, joined with single slashes. -/
def joinPieces (cwd : CStr) (pieces : List CStr) : CStr :=
  if pieces = [] then cwd
  else (if cwd ≠ ['/'] then cwd ++ ['/'] else cwd) ++ ['/'].intercalate pieces

theorem chdirStart_curDirPtr (adfimage : Adfimage Image) (path : CStr) :
    (chdirStart adfimage path).vol.curDirPtr = startDir adfimage path := by
  unfold chdirStart startDir
  split_ifs <;> rfl

theorem chdirStart_cwd_eq (adfimage : Adfimage Image) (path : CStr) :
    (chdirStart adfimage path).cwd = startCwd adfimage path := by
  unfold chdirStart startCwd
  split_ifs <;> rfl

/-- A string that has a component is not the root's. -/
theorem joinDir_ne_root {cwd name : CStr} (hslash : '/' ∉ name)
    (hne : name ≠ [] ∨ components cwd ≠ []) : joinDir cwd name ≠ ['/'] := by
  intro h
  have hcomponents := components_joinDir hslash hne
  rw [h] at hcomponents
  exact absurd hcomponents.symm (by simp [components, pathstrGetRelative, isSlash])

/-- `append_dir` joins with single slashes; only the first piece can be joined to the root. -/
theorem foldl_joinDir {pieces : List CStr} {cwd : CStr} (hslash : ∀ piece ∈ pieces, '/' ∉ piece)
    (hhead : pieces.head? ≠ some [] ∨ components cwd ≠ []) :
    pieces.foldl joinDir cwd = joinPieces cwd pieces := by
  induction pieces generalizing cwd with
  | nil => rfl
  | cons piece pieces ih =>
    have hpiece : '/' ∉ piece := hslash piece (by simp)
    have hne : piece ≠ [] ∨ components cwd ≠ [] := by simpa using hhead
    have hroot : joinDir cwd piece ≠ ['/'] := joinDir_ne_root hpiece hne
    have hjoin := components_joinDir hpiece hne
    rw [List.foldl_cons, ih (fun other h ↦ hslash other (by simp [h])) (Or.inr (by simp [hjoin]))]
    cases pieces with
    | nil => simp [joinPieces, joinDir]
    | cons next pieces =>
      simp only [joinPieces, ne_eq, hroot, not_false_eq_true, if_true, reduceCtorEq, if_false,
        List.intercalate_cons_cons]
      simp [joinDir]

/-- The string after a walk along these names. -/
theorem arrive_chdirStart_cwd (adfimage : Adfimage Image) (path : CStr) :
    (arrive L (chdirStart adfimage path) (chdirPieces path)).cwd =
      joinPieces (startCwd adfimage path)
        (walked (look L adfimage) (startDir adfimage path) (chdirPieces path)) := by
  have hnames := areDirNames_walked (look L adfimage) (startDir adfimage path) path
  rw [← foldl_joinDir hnames.slash (Or.inl hnames.head), ← chdirStart_cwd_eq,
    ← chdirStart_curDirPtr, ← look_chdirStart L adfimage path]
  rfl

variable {L}

/-- Whatever the path and however far it can be followed, the string names the current directory
afterwards if it did before. -/
theorem NamesCurDir.chdir {adfimage : Adfimage Image} (h : NamesCurDir L adfimage) {path : CStr}
    (hpath : path ≠ []) : NamesCurDir L (adfimageChdir L adfimage path).2 := by
  have hstart : NamesCurDir L (chdirStart adfimage path) := by
    unfold chdirStart
    split_ifs
    · rfl
    · exact h
  have hnames := areDirNames_walked (look L (chdirStart adfimage path))
    (chdirStart adfimage path).vol.curDirPtr path
  rw [adfimageChdir_eq L adfimage hpath, NamesCurDir, look_arrive, arrive_rootBlock]
  change walk _ _ (components (List.foldl joinDir _ _)) = _
  rw [components_foldl_joinDir _ hnames.slash (Or.inl hnames.head), walk_append, hstart]
  exact walk_walked _ _ _

/-- The loop of `adfimage_chdir` is the walk along the pieces of the path. -/
theorem chdir_eq_walk (adfimage : Adfimage Image) (path : CStr) (hpath : path ≠ [])
    (hnames : NamesCurDir L adfimage) :
    ((adfimageChdir L adfimage path).1 = true ↔
        pathstrGetRelative path = [] ∨ pathstrGetRelative path = ['.'] ∨
          (walk (look L adfimage) (startDir adfimage path)
            ((pathstrGetRelative path).splitOn '/')).isSome) ∧
      (∀ target, walk (look L adfimage) (startDir adfimage path) (chdirPieces path) = some target →
        (adfimageChdir L adfimage path).2.vol.curDirPtr = target ∧
          (adfimageChdir L adfimage path).2.cwd =
            joinPieces (startCwd adfimage path) (chdirPieces path)) ∧
      NamesCurDir L (adfimageChdir L adfimage path).2 := by
  refine ⟨?_, ?_, hnames.chdir hpath⟩
  · rw [chdir_fst L adfimage hpath, namedDir, chdirStart_curDirPtr, chdirPieces]
    split_ifs with hrel
    · simp only [walk_nil, Option.isSome_some, true_iff]
      exact hrel.elim Or.inl fun h ↦ Or.inr (Or.inl h)
    · push Not at hrel
      simp only [hrel, false_or]
  · intro target htarget
    constructor
    · rw [chdir_curDirPtr L adfimage hpath, lastDir, chdirStart_curDirPtr]
      exact reach_of_walk htarget
    · rw [adfimageChdir_eq L adfimage hpath, arrive_chdirStart_cwd, walked_of_walk htarget]

theorem chdir_eq_walk_plot :
    (adfimageChdir RamDisk.lib RamDisk.mounted "//Plot".toList).1 = true ∧
      (adfimageChdir RamDisk.lib RamDisk.mounted "//Plot".toList).2.cwd = "/Plot".toList := by
  obtain ⟨hfound, hreached, -⟩ := chdir_eq_walk (L := RamDisk.lib) RamDisk.mounted "//Plot".toList
    (by decide) (by decide)
  refine ⟨hfound.mpr (by decide), ?_⟩
  rw [(hreached 882 (by decide)).2]
  decide

/-! ## A walk that fails -/

/-- Neither copy of the working directory has moved. -/
def Unmoved (before after : Adfimage Image) : Prop :=
  after.cwd = before.cwd ∧ after.vol.curDirPtr = before.vol.curDirPtr

variable (L) in
/-- The pieces of a path that can be followed are `front`, and lead to `dir`. -/
def FailsAfter (adfimage : Adfimage Image) (path : CStr) (front : List CStr) (dir : Sector) :
    Prop :=
  ∃ name back, chdirPieces path = front ++ name :: back ∧
    walk (look L adfimage) (startDir adfimage path) front = some dir ∧
    look L adfimage dir name = none

/-- A change of directory that fails fails at a piece. -/
theorem exists_failsAfter {adfimage : Adfimage Image} {path : CStr} (hpath : path ≠ [])
    (h : (adfimageChdir L adfimage path).1 = false) :
    ∃ front dir, FailsAfter L adfimage path front dir := by
  have hwalk : walk (look L adfimage) (startDir adfimage path) (chdirPieces path) = none := by
    rw [chdir_fst L adfimage hpath, namedDir, chdirStart_curDirPtr] at h
    exact Option.not_isSome_iff_eq_none.mp (by simp [h])
  obtain ⟨name, back, hnames, hmissing⟩ := exists_missing_of_walk hwalk
  exact ⟨_, _, name, back, hnames, walk_walked _ _ _, hmissing⟩

/-- What a failed change of directory has done. -/
theorem FailsAfter.chdir {adfimage : Adfimage Image} {path : CStr} {front : List CStr}
    {dir : Sector} (h : FailsAfter L adfimage path front dir) (hpath : path ≠ []) :
    (adfimageChdir L adfimage path).2.cwd = joinPieces (startCwd adfimage path) front ∧
      (adfimageChdir L adfimage path).2.vol.curDirPtr = dir := by
  obtain ⟨name, back, hpieces, hfront, hname⟩ := h
  obtain ⟨hwalked, hreach⟩ := walked_of_missing hfront hname back
  rw [← hpieces] at hwalked hreach
  constructor
  · rw [adfimageChdir_eq L adfimage hpath, arrive_chdirStart_cwd, hwalked]
  · rw [chdir_curDirPtr L adfimage hpath, lastDir, chdirStart_curDirPtr, hreach]

/-- More components make a longer string. -/
theorem joinPieces_eq_self_iff {cwd : CStr} {pieces : List CStr} (h : AreDirNames pieces) :
    joinPieces cwd pieces = cwd ↔ pieces = [] := by
  constructor
  · intro hjoin
    have hcomponents := components_foldl_joinDir cwd h.slash (Or.inl h.head)
    rw [foldl_joinDir h.slash (Or.inl h.head), hjoin] at hcomponents
    exact List.self_eq_append_right.mp hcomponents
  · rintro rfl
    rfl

/-- A failed change of directory leaves the state alone exactly if the path is empty, if it is
relative and its first component is missing, or if it is absolute and the components before the
missing one lead to the current directory and are the string that it is recorded by. -/
theorem chdir_failure_unmoved_iff (adfimage : Adfimage Image) (path : CStr)
    (h : (adfimageChdir L adfimage path).1 = false) :
    Unmoved adfimage (adfimageChdir L adfimage path).2 ↔
      path = [] ∨
      (path.head? ≠ some '/' ∧ FailsAfter L adfimage path [] adfimage.vol.curDirPtr) ∨
      (path.head? = some '/' ∧ ∃ front, joinPieces ['/'] front = adfimage.cwd ∧
        FailsAfter L adfimage path front adfimage.vol.curDirPtr) := by
  rcases eq_or_ne path [] with rfl | hpath
  · exact ⟨fun _ ↦ Or.inl rfl, fun _ ↦ ⟨rfl, rfl⟩⟩
  · obtain ⟨front, dir, hfails⟩ := exists_failsAfter hpath h
    obtain ⟨hcwd, hdir⟩ := hfails.chdir hpath
    have hfront : AreDirNames front := by
      obtain ⟨name, back, hpieces, -⟩ := hfails
      apply (areDirNames_chdirPieces path).of_front
      rw [hpieces]
      exact List.prefix_append front _
    constructor
    · intro ⟨hsame, hcur⟩
      rw [hcwd] at hsame
      rw [hdir] at hcur
      subst hcur
      by_cases habs : path.head? = some '/'
      · rw [startCwd, if_pos habs] at hsame
        exact Or.inr (Or.inr ⟨habs, front, hsame, hfails⟩)
      · rw [startCwd, if_neg habs, joinPieces_eq_self_iff hfront] at hsame
        rw [hsame] at hfails
        exact Or.inr (Or.inl ⟨habs, hfails⟩)
    · rintro (hnil | ⟨habs, hfirst⟩ | ⟨habs, front', hjoin, hfails'⟩)
      · exact absurd hnil hpath
      · obtain ⟨hcwd', hdir'⟩ := hfirst.chdir hpath
        rw [startCwd, if_neg habs] at hcwd'
        exact ⟨hcwd', hdir'⟩
      · obtain ⟨hcwd', hdir'⟩ := hfails'.chdir hpath
        rw [startCwd, if_pos habs, hjoin] at hcwd'
        exact ⟨hcwd', hdir'⟩

theorem chdir_failure_unmoved_missing :
    Unmoved RamDisk.mounted (adfimageChdir RamDisk.lib RamDisk.mounted "missing".toList).2 :=
  (chdir_failure_unmoved_iff (L := RamDisk.lib) RamDisk.mounted "missing".toList (by decide)).mpr
    (Or.inr (Or.inl ⟨by decide, "missing".toList, [], by decide, by decide, by decide⟩))

/-- A walk to `/Plot/missing` fails and stays in `Plot`. -/
theorem chdir_failure_moved_plot :
    ¬ ∀ (adfimage : Adfimage RamDisk) (path : CStr),
      (adfimageChdir RamDisk.lib adfimage path).1 = false →
      Unmoved adfimage (adfimageChdir RamDisk.lib adfimage path).2 := by
  intro h
  have hplot := (h RamDisk.mounted "/Plot/missing".toList (by decide)).1
  revert hplot
  decide

end FuseAdf
