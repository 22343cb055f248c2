import FuseAdf.Adfimage.Basic
import FuseAdf.Library.NameWalk

/-!
# What changing the directory does

`adfimageChdir` is a character loop that moves two copies of the working directory and can give
up half way.  Here it is shown to be a walk along the pieces of the path: `chdirStart` is the
handle the walk starts from, `chdirPieces` the names it looks up, and `arrive` the handle it
leaves, whether or not every name was found.  All later modules use these three and never the
loop.
-/

namespace FuseAdf

open Adfimage NameWalk

variable {Image File : Type} (L : Adflib Image File)

/-- The lookup function of a handle's image. -/
def look (adfimage : Adfimage Image) : Sector → CStr → Option Sector :=
  L.adfChangeDir adfimage.vol.image

/-- The string `cwd` after one more directory. -/
def joinDir (cwd dir : CStr) : CStr := (if cwd ≠ ['/'] then cwd ++ ['/'] else cwd) ++ dir

theorem appendDir_eq (adfimage : Adfimage Image) (dir : CStr) :
    appendDir adfimage dir = { adfimage with cwd := joinDir adfimage.cwd dir } := rfl

/-- The names that `adfimageChdir` looks up, empty ones included; `.` alone is not looked up. -/
def chdirPieces (path : CStr) : List CStr :=
  if pathstrGetRelative path = [] ∨ pathstrGetRelative path = ['.'] then []
  else (pathstrGetRelative path).splitOn '/'

/-- The handle before the first name is looked up: at the root for an absolute path. -/
def chdirStart (adfimage : Adfimage Image) (path : CStr) : Adfimage Image :=
  if path.head? = some '/' then { adfToRootDir adfimage with cwd := ['/'] } else adfimage

/-- The handle after a walk along the names, up to the first missing one. -/
def arrive (adfimage : Adfimage Image) (names : List CStr) : Adfimage Image :=
  { adfimage with
    vol := { adfimage.vol with
      curDirPtr := reach (look L adfimage) adfimage.vol.curDirPtr names }
    cwd := (walked (look L adfimage) adfimage.vol.curDirPtr names).foldl joinDir adfimage.cwd }

/-- The directory that a path names, if all of it resolves. -/
def namedDir (adfimage : Adfimage Image) (path : CStr) : Option Sector :=
  walk (look L adfimage) (chdirStart adfimage path).vol.curDirPtr (chdirPieces path)

/-- The last directory that a walk along a path gets to, whether or not all of it resolves. -/
def lastDir (adfimage : Adfimage Image) (path : CStr) : Sector :=
  reach (look L adfimage) (chdirStart adfimage path).vol.curDirPtr (chdirPieces path)

/-! ## The loop is a walk -/

theorem enterDir_of_none {adfimage : Adfimage Image} {dir : CStr}
    (h : look L adfimage adfimage.vol.curDirPtr dir = none) :
    enterDir L adfimage dir = (false, adfimage) := by
  rw [look] at h
  simp [enterDir, h]

theorem enterDir_of_some {adfimage : Adfimage Image} {dir : CStr} {sector : Sector}
    (h : look L adfimage adfimage.vol.curDirPtr dir = some sector) :
    enterDir L adfimage dir =
      (true, { adfimage with
        vol := { adfimage.vol with curDirPtr := sector }
        cwd := joinDir adfimage.cwd dir }) := by
  rw [look] at h
  simp [enterDir, h, appendDir_eq]

theorem arrive_nil (adfimage : Adfimage Image) : arrive L adfimage [] = adfimage := rfl

theorem arrive_cons_of_none {adfimage : Adfimage Image} {dir : CStr} (names : List CStr)
    (h : look L adfimage adfimage.vol.curDirPtr dir = none) :
    arrive L adfimage (dir :: names) = adfimage := by
  simp only [arrive, reach_cons_of_none _ _ _ _ h, walked_cons_of_none _ _ _ _ h, List.foldl_nil]

/-- The rest of a walk starts from where its first step leads. -/
theorem arrive_cons_of_some {adfimage : Adfimage Image} {dir : CStr} {sector : Sector}
    (names : List CStr) (h : look L adfimage adfimage.vol.curDirPtr dir = some sector) :
    arrive L adfimage (dir :: names) =
      arrive L { adfimage with
        vol := { adfimage.vol with curDirPtr := sector }
        cwd := joinDir adfimage.cwd dir } names := by
  simp only [arrive, reach_cons_of_some _ _ h, walked_cons_of_some _ _ h, List.foldl_cons]
  rfl

/-- The induction on the text still to be searched; the text before it has no slash. -/
theorem chdirLoop_eq (adfimage : Adfimage Image) {dir : CStr} (hdir : '/' ∉ dir) (rest : CStr) :
    chdirLoop L adfimage dir rest =
      ((walk (look L adfimage) adfimage.vol.curDirPtr ((dir ++ rest).splitOn '/')).isSome,
        arrive L adfimage ((dir ++ rest).splitOn '/')) := by
  induction rest generalizing adfimage dir with
  | nil =>
    rw [List.append_nil, List.splitOn_eq_singleton hdir, chdirLoop]
    cases h : look L adfimage adfimage.vol.curDirPtr dir with
    | none =>
      rw [enterDir_of_none L h, arrive_cons_of_none L [] h, walk_cons_of_none _ _ _ _ h]
      rfl
    | some sector =>
      rw [enterDir_of_some L h, arrive_cons_of_some L [] h, walk_cons_of_some _ _ h, arrive_nil]
      rfl
  | cons c rest ih =>
    by_cases hc : c = '/'
    · subst hc
      rw [List.splitOn_append_cons_self_of_not_mem hdir, chdirLoop, if_pos rfl]
      cases h : look L adfimage adfimage.vol.curDirPtr dir with
      | none =>
        rw [enterDir_of_none L h, arrive_cons_of_none L _ h, walk_cons_of_none _ _ _ _ h]
        rfl
      | some sector =>
        rw [enterDir_of_some L h, arrive_cons_of_some L _ h, walk_cons_of_some _ _ h]
        exact ih _ (List.not_mem_nil)
    · have hdir' : '/' ∉ dir ++ [c] := by
        simpa [hdir] using fun h ↦ hc h.symm
      rw [chdirLoop, if_neg hc, ih adfimage hdir', List.append_assoc, List.singleton_append]

/-- Every path but the empty one is walked, from the root if it is absolute. -/
theorem adfimageChdir_eq (adfimage : Adfimage Image) {path : CStr} (h : path ≠ []) :
    adfimageChdir L adfimage path =
      ((namedDir L adfimage path).isSome,
        arrive L (chdirStart adfimage path) (chdirPieces path)) := by
  have hlength : ¬ path.length < 1 := by
    have := List.length_pos_iff.mpr h
    omega
  have hpath : (if path.head? = some '/' then path.dropWhile isSlash else path) =
      pathstrGetRelative path := by
    split_ifs with habs
    · rfl
    · exact (getRelative_of_relative habs).symm
  have hlook : look L adfimage = look L (chdirStart adfimage path) := by
    unfold chdirStart
    split_ifs <;> rfl
  rw [adfimageChdir, if_neg hlength]
  simp only [hpath]
  change (if _ then (true, chdirStart adfimage path)
    else chdirLoop L (chdirStart adfimage path) [] (pathstrGetRelative path)) = _
  rw [namedDir, hlook, chdirPieces]
  split_ifs with hrel
  · simp [arrive_nil]
  · rw [chdirLoop_eq L _ List.not_mem_nil]
    simp

@[simp] theorem arrive_image (adfimage : Adfimage Image) (names : List CStr) :
    (arrive L adfimage names).vol.image = adfimage.vol.image := rfl

@[simp] theorem arrive_rootBlock (adfimage : Adfimage Image) (names : List CStr) :
    (arrive L adfimage names).vol.rootBlock = adfimage.vol.rootBlock := rfl

@[simp] theorem arrive_calls (adfimage : Adfimage Image) (names : List CStr) :
    (arrive L adfimage names).calls = adfimage.calls := rfl

@[simp] theorem chdirStart_image (adfimage : Adfimage Image) (path : CStr) :
    (chdirStart adfimage path).vol.image = adfimage.vol.image := by
  unfold chdirStart; split_ifs <;> rfl

@[simp] theorem chdirStart_rootBlock (adfimage : Adfimage Image) (path : CStr) :
    (chdirStart adfimage path).vol.rootBlock = adfimage.vol.rootBlock := by
  unfold chdirStart; split_ifs <;> rfl

@[simp] theorem chdirStart_calls (adfimage : Adfimage Image) (path : CStr) :
    (chdirStart adfimage path).calls = adfimage.calls := by
  unfold chdirStart; split_ifs <;> rfl

@[simp] theorem look_chdirStart (adfimage : Adfimage Image) (path : CStr) :
    look L (chdirStart adfimage path) = look L adfimage := by
  simp only [look, chdirStart_image]

@[simp] theorem look_arrive (adfimage : Adfimage Image) (names : List CStr) :
    look L (arrive L adfimage names) = look L adfimage := rfl

@[simp] theorem chdir_image (adfimage : Adfimage Image) (path : CStr) :
    (adfimageChdir L adfimage path).2.vol.image = adfimage.vol.image := by
  rcases eq_or_ne path [] with rfl | h
  · rfl
  · simp [adfimageChdir_eq L adfimage h]

@[simp] theorem chdir_rootBlock (adfimage : Adfimage Image) (path : CStr) :
    (adfimageChdir L adfimage path).2.vol.rootBlock = adfimage.vol.rootBlock := by
  rcases eq_or_ne path [] with rfl | h
  · rfl
  · simp [adfimageChdir_eq L adfimage h]

@[simp] theorem chdir_calls (adfimage : Adfimage Image) (path : CStr) :
    (adfimageChdir L adfimage path).2.calls = adfimage.calls := by
  rcases eq_or_ne path [] with rfl | h
  · rfl
  · simp [adfimageChdir_eq L adfimage h]

/-- The directory after a walk, found or not. -/
theorem chdir_curDirPtr (adfimage : Adfimage Image) {path : CStr} (h : path ≠ []) :
    (adfimageChdir L adfimage path).2.vol.curDirPtr = lastDir L adfimage path := by
  rw [adfimageChdir_eq L adfimage h, lastDir, ← look_chdirStart L adfimage path]
  rfl

theorem chdir_fst (adfimage : Adfimage Image) {path : CStr} (h : path ≠ []) :
    (adfimageChdir L adfimage path).1 = (namedDir L adfimage path).isSome := by
  rw [adfimageChdir_eq L adfimage h]

/-- Whether the walk succeeds is known from the path's directory, before the handle is. -/
theorem chdir_eq_pair (adfimage : Adfimage Image) {path : CStr} (h : path ≠ []) :
    adfimageChdir L adfimage path =
      ((namedDir L adfimage path).isSome, (adfimageChdir L adfimage path).2) :=
  Prod.ext (chdir_fst L adfimage h) rfl

/-- A path that resolves is walked to the end. -/
theorem lastDir_of_namedDir {adfimage : Adfimage Image} {path : CStr} {sector : Sector}
    (h : namedDir L adfimage path = some sector) : lastDir L adfimage path = sector :=
  reach_of_walk h

/-- An absolute path is walked from the same handle wherever the working directory was. -/
theorem chdirStart_of_absolute (adfimage : Adfimage Image) {path : CStr}
    (h : path.head? = some '/') :
    chdirStart adfimage path = { adfToRootDir adfimage with cwd := ['/'] } := by
  rw [chdirStart, if_pos h]

/-- Where an absolute path leads depends on the image alone. -/
theorem namedDir_of_absolute (adfimage : Adfimage Image) {path : CStr}
    (h : path.head? = some '/') :
    namedDir L adfimage path =
      walk (look L adfimage) adfimage.vol.rootBlock (chdirPieces path) := by
  rw [namedDir, chdirStart_of_absolute adfimage h]
  rfl

theorem chdirStart_of_relative (adfimage : Adfimage Image) {path : CStr}
    (h : path.head? ≠ some '/') : chdirStart adfimage path = adfimage := by
  rw [chdirStart, if_neg h]

/-- Changing to `.` is no change. -/
theorem chdir_dot (adfimage : Adfimage Image) : adfimageChdir L adfimage ['.'] = (true, adfimage) :=
  rfl

end FuseAdf
