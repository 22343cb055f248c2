import FuseAdf.Adfimage.ChdirWalk
import Mathlib.Algebra.GroupWithZero.Nat

/-!
# The strings that a change of directory writes

`cwd` is an array of `ADFIMAGE_MAX_PATH` characters, and `append_dir` does not look at its length.
`chdirStrings` lists what one call of `adfimage_chdir` writes there, with the strings in between.
They all fit exactly if the directories that the path finds fit behind the string it starts from,
and going back to a string always fits where that string did.
-/

namespace FuseAdf

open Adfimage NameWalk

variable {Image File : Type} (L : Adflib Image File)

/-- `ADFIMAGE_MAX_PATH`. -/
def adfimageMaxPath : ℕ := 1024

/-- The strings that the loop of `adfimage_chdir` and the step after it write. -/
def chdirLoopStrings (adfimage : Adfimage Image) (dir : CStr) : CStr → List CStr
  | [] =>
      match enterDir L adfimage dir with
      | (false, _) => []
      | (true, adfimage) => [adfimage.cwd]
  | c :: rest =>
      if c = '/' then
        match enterDir L adfimage dir with
        | (false, _) => []
        | (true, adfimage) => adfimage.cwd :: chdirLoopStrings adfimage [] rest
      else chdirLoopStrings adfimage (dir ++ [c]) rest

/-- The strings that `adfimage_chdir` writes into `cwd`. -/
def chdirStrings (adfimage : Adfimage Image) (path : CStr) : List CStr :=
  if path.length < 1 then []
  else
    let start := if path.head? = some '/' then { adfToRootDir adfimage with cwd := ['/'] }
      else adfimage
    let rest := if path.head? = some '/' then path.dropWhile isSlash else path
    (if path.head? = some '/' then [['/']] else []) ++
      if rest = [] ∨ rest = ['.'] then [] else chdirLoopStrings L start [] rest

/-- The directories of a path that exist, each with a slash, fit behind the string that the walk
starts from. -/
def FitsCwd (adfimage : Adfimage Image) (path : CStr) : Prop :=
  let names := walked (look L adfimage) (startDir adfimage path) (chdirPieces path)
  names ≠ [] →
    (if startCwd adfimage path = ['/'] then 0 else (startCwd adfimage path).length) +
      (names.map fun name ↦ name.length + 1).sum < adfimageMaxPath

/-- The strings that `append_dir` builds for these names. -/
def built (cwd : CStr) : List CStr → List CStr
  | [] => []
  | name :: names => joinDir cwd name :: built (joinDir cwd name) names

theorem foldl_eq_getLastD_built (cwd : CStr) (names : List CStr) :
    names.foldl joinDir cwd = (built cwd names).getLastD cwd := by
  induction names generalizing cwd with
  | nil => rfl
  | cons name names ih =>
    rw [List.foldl_cons, ih, built, List.getLastD_cons]

theorem getLastD_append (front back : List CStr) (string : CStr) :
    (front ++ back).getLastD string = back.getLastD (front.getLastD string) := by
  induction front generalizing string with
  | nil => rfl
  | cons first front ih => rw [List.cons_append, List.getLastD_cons, ih, List.getLastD_cons]

theorem foldl_mem_built (cwd : CStr) {names : List CStr} (hne : names ≠ []) :
    names.foldl joinDir cwd ∈ built cwd names := by
  obtain ⟨name, names, rfl⟩ := List.exists_cons_of_ne_nil hne
  rw [foldl_eq_getLastD_built, built, List.getLastD_cons]
  exact List.getLastD_mem_cons

theorem head_of_mem_built {cwd : CStr} (hcwd : cwd.head? = some '/') {names : List CStr} :
    ∀ string ∈ built cwd names, string.head? = some '/' := by
  induction names generalizing cwd with
  | nil => simp [built]
  | cons name names ih =>
    intro string hstring
    rcases List.mem_cons.mp hstring with rfl | hrest
    · exact head_joinDir hcwd name
    · exact ih (head_joinDir hcwd name) string hrest

theorem length_joinDir (cwd name : CStr) :
    (joinDir cwd name).length = (if cwd = ['/'] then 0 else cwd.length) + (name.length + 1) := by
  by_cases hroot : cwd = ['/']
  · subst hroot
    simp [joinDir]
  · simp [joinDir, hroot]

/-- No string is longer than those built after it. -/
theorem length_le_of_mem_built {cwd : CStr} {names : List CStr} :
    ∀ string ∈ cwd :: built cwd names, string.length ≤ (names.foldl joinDir cwd).length := by
  induction names generalizing cwd with
  | nil => simp [built]
  | cons name names ih =>
    have hfirst : cwd.length ≤ (joinDir cwd name).length := by
      rw [length_joinDir]
      split_ifs with hroot
      · rw [hroot, List.length_singleton]
        omega
      · omega
    intro string hstring
    rw [List.foldl_cons]
    rcases List.mem_cons.mp hstring with rfl | hrest
    · exact hfirst.trans (ih _ (by simp))
    · exact ih string hrest

/-- Behind a string that is not the root's, every name adds its length and a slash. -/
theorem length_foldl_of_long {cwd : CStr} (hcwd : 2 ≤ cwd.length) (names : List CStr) :
    (names.foldl joinDir cwd).length =
      cwd.length + (names.map fun name ↦ name.length + 1).sum := by
  induction names generalizing cwd with
  | nil => simp
  | cons name names ih =>
    have hroot : cwd ≠ ['/'] := by
      rintro rfl
      simp at hcwd
    have hlength := length_joinDir cwd name
    rw [if_neg hroot] at hlength
    rw [List.foldl_cons, ih (by omega), hlength, List.map_cons, List.sum_cons, Nat.add_assoc]

theorem length_foldl_joinDir {names : List CStr} (hne : names ≠ []) (hhead : names.head? ≠ some [])
    (cwd : CStr) :
    (names.foldl joinDir cwd).length = (if cwd = ['/'] then 0 else cwd.length) +
      (names.map fun name ↦ name.length + 1).sum := by
  obtain ⟨name, names, rfl⟩ := List.exists_cons_of_ne_nil hne
  have hname : 0 < name.length := by
    apply List.length_pos_iff.mpr
    rintro rfl
    exact hhead rfl
  have hlength := length_joinDir cwd name
  rw [List.foldl_cons, length_foldl_of_long (by omega), hlength, List.map_cons, List.sum_cons,
    Nat.add_assoc]

/-- The loop writes the strings of the names that it enters. -/
theorem chdirLoopStrings_eq (adfimage : Adfimage Image) {dir : CStr} (hdir : '/' ∉ dir)
    (rest : CStr) :
    chdirLoopStrings L adfimage dir rest = built adfimage.cwd
      (walked (look L adfimage) adfimage.vol.curDirPtr ((dir ++ rest).splitOn '/')) := by
  induction rest generalizing adfimage dir with
  | nil =>
    rw [List.append_nil, List.splitOn_eq_singleton hdir, chdirLoopStrings]
    cases h : look L adfimage adfimage.vol.curDirPtr dir with
    | none =>
      rw [enterDir_of_none L h, walked_cons_of_none _ _ _ _ h]
      rfl
    | some sector =>
      rw [enterDir_of_some L h, walked_cons_of_some _ _ h]
      rfl
  | cons c rest ih =>
    by_cases hc : c = '/'
    · subst hc
      rw [List.splitOn_append_cons_self_of_not_mem hdir, chdirLoopStrings, if_pos rfl]
      cases h : look L adfimage adfimage.vol.curDirPtr dir with
      | none =>
        rw [enterDir_of_none L h, walked_cons_of_none _ _ _ _ h]
        rfl
      | some sector =>
        rw [enterDir_of_some L h, walked_cons_of_some _ _ h]
        exact congrArg (List.cons _) (ih _ List.not_mem_nil)
    · have hdir' : '/' ∉ dir ++ [c] := by
        simpa [hdir] using fun h ↦ hc h.symm
      rw [chdirLoopStrings, if_neg hc, ih adfimage hdir', List.append_assoc, List.singleton_append]

theorem chdirStrings_eq (adfimage : Adfimage Image) {path : CStr} (h : path ≠ []) :
    chdirStrings L adfimage path = (if path.head? = some '/' then [['/']] else []) ++
      built (startCwd adfimage path)
        (walked (look L adfimage) (startDir adfimage path) (chdirPieces path)) := by
  have hlength : ¬ path.length < 1 := by
    have := List.length_pos_iff.mpr h
    omega
  have hpath : (if path.head? = some '/' then path.dropWhile isSlash else path) =
      pathstrGetRelative path := by
    split_ifs with habs
    · rfl
    · exact (getRelative_of_relative habs).symm
  rw [chdirStrings, if_neg hlength]
  simp only [hpath]
  congr 1
  change (if _ then [] else chdirLoopStrings L (chdirStart adfimage path) [] _) = _
  rw [chdirPieces]
  split_ifs with hrel
  · rfl
  · rw [chdirLoopStrings_eq L _ List.not_mem_nil, List.nil_append, look_chdirStart,
      chdirStart_curDirPtr, chdirStart_cwd_eq]

theorem chdir_cwd_eq_foldl (adfimage : Adfimage Image) {path : CStr} (h : path ≠ []) :
    (adfimageChdir L adfimage path).2.cwd =
      (walked (look L adfimage) (startDir adfimage path) (chdirPieces path)).foldl joinDir
        (startCwd adfimage path) := by
  rw [adfimageChdir_eq L adfimage h, ← chdirStart_cwd_eq, ← chdirStart_curDirPtr,
    ← look_chdirStart L adfimage path]
  rfl

/-- The last string that is written stays. -/
theorem chdir_cwd_eq_getLastD (adfimage : Adfimage Image) (path : CStr) :
    (adfimageChdir L adfimage path).2.cwd =
      (chdirStrings L adfimage path).getLastD adfimage.cwd := by
  rcases eq_or_ne path [] with rfl | h
  · rfl
  · have hstart : (if path.head? = some '/' then [['/']] else []).getLastD adfimage.cwd =
        startCwd adfimage path := by
      unfold startCwd
      split_ifs <;> rfl
    rw [chdirStrings_eq L adfimage h, chdir_cwd_eq_foldl L adfimage h, foldl_eq_getLastD_built,
      getLastD_append, hstart]

/-! ## When they fit -/

variable {L}

/-- All strings that a call writes fit exactly if the directories that it finds do. -/
theorem fitsCwd_iff (adfimage : Adfimage Image) (path : CStr) :
    (∀ string ∈ chdirStrings L adfimage path, string.length < adfimageMaxPath) ↔
      FitsCwd L adfimage path := by
  have hhead := (areDirNames_walked (look L adfimage) (startDir adfimage path) path).head
  unfold FitsCwd
  dsimp only
  rcases eq_or_ne path [] with rfl | hpath
  · exact iff_of_true (fun string h ↦ absurd h List.not_mem_nil) fun h ↦ absurd rfl h
  · rw [chdirStrings_eq L adfimage hpath]
    generalize walked (look L adfimage) (startDir adfimage path) (chdirPieces path) = names at *
    constructor
    · intro h hne
      rw [← length_foldl_joinDir hne hhead]
      exact h _ (List.mem_append_right _ (foldl_mem_built _ hne))
    · intro h string hstring
      rcases List.mem_append.mp hstring with hroot | hbuilt
      · split_ifs at hroot
        · rw [List.mem_singleton.mp hroot]
          decide
        · exact absurd hroot List.not_mem_nil
      · have hne : names ≠ [] := by
          rintro rfl
          exact absurd hbuilt List.not_mem_nil
        calc
          string.length ≤ (names.foldl joinDir (startCwd adfimage path)).length :=
            length_le_of_mem_built string (List.mem_cons_of_mem _ hbuilt)
          _ < adfimageMaxPath := by
            rw [length_foldl_joinDir hne hhead]
            exact h hne

/-- The pieces of a string, each with a slash, are one longer than the string. -/
theorem sum_length_splitOn (string : CStr) :
    ((string.splitOn '/').map fun piece ↦ piece.length + 1).sum = string.length + 1 := by
  induction string with
  | nil => simp
  | cons c rest ih =>
    rw [List.splitOn_cons_eq_if_modifyHead]
    split_ifs with hc
    · rw [List.map_cons, List.sum_cons, ih, List.length_nil, List.length_cons]
      omega
    · obtain ⟨piece, pieces, hpieces⟩ := List.exists_cons_of_ne_nil (List.splitOn_ne_nil '/' rest)
      rw [hpieces, List.map_cons, List.sum_cons] at ih
      rw [hpieces, List.modifyHead_cons, List.map_cons, List.sum_cons, List.length_cons,
        List.length_cons]
      omega

theorem sum_length_chdirPieces_le (path : CStr) :
    ((chdirPieces path).map fun piece ↦ piece.length + 1).sum ≤
      (pathstrGetRelative path).length + 1 := by
  unfold chdirPieces
  split_ifs
  · simp
  · exact (sum_length_splitOn _).le

/-- Going to a string writes nothing longer than it. -/
theorem length_le_of_mem_back (adfimage : Adfimage Image) {cwd : CStr}
    (hcwd : cwd.head? = some '/') :
    ∀ string ∈ chdirStrings L adfimage cwd, string.length ≤ cwd.length := by
  have hne : cwd ≠ [] := by
    rintro rfl
    simp at hcwd
  have hrelative : (pathstrGetRelative cwd).length + 1 ≤ cwd.length := by
    obtain ⟨rest, rfl⟩ := List.head?_eq_some_iff.mp hcwd
    have hskip : pathstrGetRelative ('/' :: rest) = rest.dropWhile isSlash :=
      List.dropWhile_cons_of_pos isSlash_slash
    rw [hskip]
    exact Nat.succ_le_succ (List.dropWhile_sublist isSlash).length_le
  have hnames := areDirNames_walked (look L adfimage) (startDir adfimage cwd) cwd
  have hfront : walked (look L adfimage) (startDir adfimage cwd) (chdirPieces cwd) <+:
      chdirPieces cwd := walked_isPrefix _ _ _
  rw [chdirStrings_eq L adfimage hne, startCwd, if_pos hcwd, if_pos hcwd]
  generalize walked (look L adfimage) (startDir adfimage cwd) (chdirPieces cwd) = names at *
  intro string hstring
  rcases List.mem_append.mp hstring with hroot | hbuilt
  · rw [List.mem_singleton.mp hroot, List.length_singleton]
    omega
  · have hnonempty : names ≠ [] := by
      rintro rfl
      exact absurd hbuilt List.not_mem_nil
    calc
      string.length ≤ (names.foldl joinDir ['/']).length :=
        length_le_of_mem_built string (List.mem_cons_of_mem _ hbuilt)
      _ = (names.map fun name ↦ name.length + 1).sum := by
        rw [length_foldl_joinDir hnonempty hnames.head, if_pos rfl, Nat.zero_add]
      _ ≤ ((chdirPieces cwd).map fun piece ↦ piece.length + 1).sum := by
        obtain ⟨back, hback⟩ := hfront
        rw [← hback, List.map_append, List.sum_append]
        exact Nat.le_add_right _ _
      _ ≤ (pathstrGetRelative cwd).length + 1 := sum_length_chdirPieces_le cwd
      _ ≤ cwd.length := hrelative

/-- What is written begins with a slash. -/
theorem head_of_mem_chdirStrings {adfimage : Adfimage Image} {path : CStr}
    (hstart : (startCwd adfimage path).head? = some '/') :
    ∀ string ∈ chdirStrings L adfimage path, string.head? = some '/' := by
  rcases eq_or_ne path [] with rfl | hne
  · exact fun string h ↦ absurd h List.not_mem_nil
  · rw [chdirStrings_eq L adfimage hne]
    intro string hstring
    rcases List.mem_append.mp hstring with hroot | hbuilt
    · split_ifs at hroot
      · rw [List.mem_singleton.mp hroot]
        rfl
      · exact absurd hroot List.not_mem_nil
    · exact head_of_mem_built hstart string hbuilt

/-- The string is absolute and fits with its NUL. -/
structure InBuffer (cwd : CStr) : Prop where
  absolute : cwd.head? = some '/'
  short : cwd.length < adfimageMaxPath

theorem inBuffer_root : InBuffer ['/'] := ⟨rfl, by decide⟩

/-- A change of directory along a path that fits. -/
theorem InBuffer.of_enter {adfimage : Adfimage Image} (h : InBuffer adfimage.cwd) {path : CStr}
    (hfits : FitsCwd L adfimage path) :
    ∀ string ∈ chdirStrings L adfimage path, InBuffer string := by
  have hstart : (startCwd adfimage path).head? = some '/' := by
    unfold startCwd
    split_ifs
    · rfl
    · exact h.absolute
  intro string hstring
  exact ⟨head_of_mem_chdirStrings hstart string hstring,
    (fitsCwd_iff adfimage path).mpr hfits string hstring⟩

/-- A change of directory to a string that is in the buffer. -/
theorem InBuffer.of_back {cwd : CStr} (h : InBuffer cwd) (inside : Adfimage Image) :
    ∀ string ∈ chdirStrings L inside cwd, InBuffer string := by
  have hstart : (startCwd inside cwd).head? = some '/' := by
    rw [startCwd, if_pos h.absolute]
    rfl
  intro string hstring
  exact ⟨head_of_mem_chdirStrings hstart string hstring,
    (length_le_of_mem_back inside h.absolute string hstring).trans_lt h.short⟩

theorem InBuffer.chdir {adfimage : Adfimage Image} (h : InBuffer adfimage.cwd) {path : CStr}
    (hfits : FitsCwd L adfimage path) : InBuffer (adfimageChdir L adfimage path).2.cwd := by
  rw [chdir_cwd_eq_getLastD]
  rcases List.mem_cons.mp (List.getLastD_mem_cons (l := chdirStrings L adfimage path)
    (a := adfimage.cwd)) with heq | hmem
  · rw [heq]
    exact h
  · exact h.of_enter hfits _ hmem

theorem InBuffer.chdir_back {cwd : CStr} (h : InBuffer cwd) (inside : Adfimage Image) :
    InBuffer (adfimageChdir L inside cwd).2.cwd := by
  have hne : cwd ≠ [] := by
    rintro rfl
    exact absurd h.absolute (by simp)
  have hback := h.of_back (L := L) inside
  rw [chdir_cwd_eq_getLastD]
  rw [chdirStrings_eq L inside hne, if_pos h.absolute, List.singleton_append] at hback ⊢
  rw [List.getLastD_cons]
  exact hback _ List.getLastD_mem_cons

end FuseAdf
