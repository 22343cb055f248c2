import FuseAdf.Adffs.History
import FuseAdf.Adffs.Lookup
import FuseAdf.Adfimage.WorkingDirectory
import FuseAdf.Adflib.RamDisk
import FuseAdf.Library.GuardedRun

/-!
# Directory sizes over whole runs

A listing walks to its directory.  The size of a directory below the root is counted after such a
walk too, but the size of the root is the number of entries of whatever directory the volume is at.
So the two agree as long as every callback leaves the volume at its root directory.  `ReturnsToRoot`
says when one does: most go back by walking along the saved string `cwd`, and some do not go back
when they fail.
-/

namespace FuseAdf

open Adfimage NameWalk GuardedRun

variable {Image File : Type} (L : Adflib Image File) (env : Env)

section Conditions

variable (adfimage : Adfimage Image)

/-- The last directory that a walk along the path gets to is the root. -/
def EndsAtRoot (path : CStr) : Prop := lastDir L adfimage path = adfimage.vol.rootBlock

/-- Going back along the saved string ends at the root. -/
def RestoresRoot : Prop := EndsAtRoot L adfimage adfimage.cwd

/-- For the callbacks that end with `adfToRootDir` unless they cannot enter the directory part
`dirpath`, from the handle `start`. -/
def WalksFromRoot (start : Adfimage Image) (path dirpath : CStr) : Prop :=
  pathstrGetRelative path = [] ∨ (namedDir L start dirpath).isSome ∨ EndsAtRoot L start dirpath

/-- Whether the library opens the file. -/
def OpensFile (path : CStr) (mode : AdfFileMode) : Prop :=
  ∃ dir, namedDir L adfimage (dirname path) = some dir ∧
    (L.adfFileOpen adfimage.vol.image dir (basename path) mode).2.isSome

/-- For the callbacks that open a file: they go back only when they can open it. -/
def ReturnsFromFile (path : CStr) (mode : AdfFileMode) : Prop :=
  (OpensFile L adfimage path mode → RestoresRoot L adfimage) ∧
    (¬ OpensFile L adfimage path mode → EndsAtRoot L adfimage (dirname path))

/-- For `adfimage_getdentry`, which does not go back from an empty directory. -/
def ReturnsFromLookup (path : CStr) : Prop :=
  path = ['/'] ∨
    if L.adfGetDirEnt adfimage.vol.image (lastDir L adfimage (dirname path)) = [] then
      EndsAtRoot L adfimage (dirname path)
    else RestoresRoot L adfimage

/-- For the two lookups of a renaming, the second of which follows if the first one's result can be
a parent. -/
def ReturnsFromRename (srcPath dstPath : CStr) : Prop :=
  ∀ srcDirpath dstDirpath, ConvertsTo (dirname srcPath) srcDirpath →
    ConvertsTo (dirname dstPath) dstDirpath →
    ReturnsFromLookup L adfimage srcDirpath ∧
      (checkParent (adfimageGetdentry L adfimage srcDirpath).1 = none →
        ReturnsFromLookup L (adfimageGetdentry L adfimage srcDirpath).2 dstDirpath)

end Conditions

/-- The conditions for all callbacks; those that are not named have none. -/
def ReturnsToRoot (adfimage : Adfimage Image) : Callback → Prop
  | .getattr path => WalksFromRoot L adfimage path (dirname path)
  | .mkdir path | .rmdir path | .unlink path | .create path =>
      WalksFromRoot L adfimage.adfToRootDir path (dirname (pathstrGetRelative path))
  | .readlink path _ _ =>
      if (namedDir L adfimage (dirname path)).isSome then RestoresRoot L adfimage
      else EndsAtRoot L adfimage (dirname path)
  | .open path | .read path _ _ => ReturnsFromFile L adfimage path .read
  | .write path _ _ _ | .truncate path _ => ReturnsFromFile L adfimage path .write
  | .chmod path _ => ReturnsFromLookup L adfimage path
  | .rename srcPath dstPath => ReturnsFromRename L adfimage srcPath dstPath
  | _ => True

/-! ## One step -/

variable {L env}

/-- The volume is at its root directory, and going back by name starts there. -/
structure AtRoot (adfimage : Adfimage Image) : Prop where
  curDirPtr : adfimage.vol.curDirPtr = adfimage.vol.rootBlock
  head_cwd : adfimage.cwd.head? = some '/'

/-- A later handle of the same operation: names lead where they led. -/
structure Follows (L : Adflib Image File) (before after : Adfimage Image) : Prop where
  look : look L after = look L before
  rootBlock : after.vol.rootBlock = before.vol.rootBlock
  head_cwd : after.cwd.head? = some '/'

theorem head_foldl_joinDir {cwd : CStr} (h : cwd.head? = some '/') (names : List CStr) :
    (names.foldl joinDir cwd).head? = some '/' := by
  induction names generalizing cwd with
  | nil => exact h
  | cons name names ih => exact ih (head_joinDir h name)

theorem head_cwd_chdir {adfimage : Adfimage Image} (h : adfimage.cwd.head? = some '/')
    (path : CStr) : (adfimageChdir L adfimage path).2.cwd.head? = some '/' := by
  rcases eq_or_ne path [] with rfl | hne
  · exact h
  · rw [adfimageChdir_eq L adfimage hne]
    apply head_foldl_joinDir
    unfold chdirStart
    split_ifs
    · rfl
    · exact h

theorem look_chdir (adfimage : Adfimage Image) (path : CStr) :
    look L (adfimageChdir L adfimage path).2 = look L adfimage := by
  rw [look, look, chdir_image]

theorem AtRoot.follows {adfimage : Adfimage Image} (h : AtRoot adfimage) :
    Follows L adfimage adfimage := ⟨rfl, rfl, h.head_cwd⟩

theorem Follows.chdir {before after : Adfimage Image} (h : Follows L before after)
    (path : CStr) : Follows L before (adfimageChdir L after path).2 where
  look := (look_chdir after path).trans h.look
  rootBlock := (chdir_rootBlock L after path).trans h.rootBlock
  head_cwd := head_cwd_chdir h.head_cwd path

theorem Follows.setImage {before after : Adfimage Image} (h : Follows L before after)
    {image : Image} (hsame : L.SameDirs after.vol.image image) :
    Follows L before (after.setImage image) where
  look := by
    rw [← h.look]
    funext dir name
    exact hsame dir name
  rootBlock := h.rootBlock
  head_cwd := h.head_cwd

theorem Follows.record {before after : Adfimage Image} (h : Follows L before after)
    (call : AdfCall) : Follows L before (after.record call) := ⟨h.look, h.rootBlock, h.head_cwd⟩

theorem Follows.afterOpen (hL : L.Directories) {before after : Adfimage Image}
    (h : Follows L before after) (name : CStr) (mode : AdfFileMode) :
    Follows L before (afterOpen L after name mode) :=
  (h.record _).setImage (hL.fileOpen _ _ _ _)

/-- A walk that ends at the root leaves the volume there. -/
theorem AtRoot.chdir {adfimage : Adfimage Image} (h : AtRoot adfimage) {path : CStr}
    (hne : path ≠ []) (hend : EndsAtRoot L adfimage path) :
    AtRoot (adfimageChdir L adfimage path).2 where
  curDirPtr := by
    rw [chdir_curDirPtr L adfimage hne, chdir_rootBlock]
    exact hend
  head_cwd := head_cwd_chdir h.head_cwd path

/-- Going back along the string that was saved at the root. -/
theorem Follows.restore {before after : Adfimage Image} (h : Follows L before after)
    (hcwd : before.cwd.head? = some '/') (hback : RestoresRoot L before) :
    AtRoot (leaveParent L after (some before.cwd)) where
  curDirPtr := by
    have hne : before.cwd ≠ [] := by
      intro hnil
      simp [hnil] at hcwd
    have hlast : lastDir L after before.cwd = lastDir L before before.cwd := by
      rw [lastDir, lastDir, chdirStart_of_absolute _ hcwd, chdirStart_of_absolute _ hcwd, h.look]
      change reach _ after.vol.rootBlock _ = reach _ before.vol.rootBlock _
      rw [h.rootBlock]
    change (adfimageChdir L after before.cwd).2.vol.curDirPtr =
      (adfimageChdir L after before.cwd).2.vol.rootBlock
    rw [chdir_curDirPtr L after hne, chdir_rootBlock, hlast, h.rootBlock]
    exact hback
  head_cwd := head_cwd_chdir h.head_cwd _

/-- After `adfToRootDir` only the string has to be looked at. -/
theorem atRoot_adfToRootDir {adfimage : Adfimage Image} (h : adfimage.cwd.head? = some '/') :
    AtRoot adfimage.adfToRootDir := ⟨rfl, h⟩

theorem AtRoot.setImage {adfimage : Adfimage Image} (h : AtRoot adfimage) (image : Image) :
    AtRoot (adfimage.setImage image) := ⟨h.curDirPtr, h.head_cwd⟩

theorem AtRoot.record {adfimage : Adfimage Image} (h : AtRoot adfimage) (call : AdfCall) :
    AtRoot (adfimage.record call) := ⟨h.curDirPtr, h.head_cwd⟩

theorem AtRoot.fileClose {adfimage : Adfimage Image} (h : AtRoot adfimage) (file : Option File) :
    AtRoot (adfimageFileClose L adfimage file) := by
  cases file with
  | none => exact h
  | some file => exact h.setImage _

theorem AtRoot.getdentry {adfimage : Adfimage Image} (h : AtRoot adfimage) {path : CStr}
    (hpath : ReturnsFromLookup L adfimage path) :
    AtRoot (adfimageGetdentry L adfimage path).2 := by
  rcases eq_or_ne path ['/'] with rfl | hne
  · exact h
  · have hback := hpath.resolve_left hne
    rw [getdentry_eq L adfimage hne]
    dsimp only
    split_ifs at hback ⊢ with hempty
    · exact h.chdir (dirname_ne_nil path) hback
    · exact (h.follows.chdir (dirname path)).restore h.head_cwd hback

theorem AtRoot.setperm {adfimage : Adfimage Image} (h : AtRoot adfimage) {path : CStr}
    (hpath : ReturnsFromLookup L adfimage path) (perms : BitVec 32) :
    AtRoot (adfimageSetperm L adfimage path perms).2 := by
  have hlookup := h.getdentry hpath
  rw [adfimageSetperm]
  generalize adfimageGetdentry L adfimage path = found at hlookup ⊢
  dsimp only
  split_ifs with hvalid
  · exact hlookup
  · cases L.adfReadEntryBlock found.2.vol.image found.1.adflibEntry.sector with
    | none => exact hlookup
    | some block => exact (hlookup.record _).setImage _

theorem AtRoot.chmod {adfimage : Adfimage Image} (h : AtRoot adfimage) {path : CStr}
    (hpath : ReturnsFromLookup L adfimage path) (mode : BitVec 32) :
    AtRoot (adffsChmod L adfimage path mode).2 := by
  have hsetperm := h.setperm hpath (chmodPerms mode)
  unfold adffsChmod
  generalize adfimageSetperm L adfimage path (chmodPerms mode) = result at hsetperm ⊢
  rcases result with ⟨done, after⟩
  cases done <;> exact hsetperm

/-- The common beginning of the file operations leaves the volume at the root unless it opens the
file; then the way back does. -/
theorem AtRoot.openInParent (hL : L.Directories) {adfimage : Adfimage Image}
    (h : AtRoot adfimage) {path : CStr} {mode : AdfFileMode}
    (hpath : ReturnsFromFile L adfimage path mode) :
    match openInParent L adfimage path mode with
    | .noDir after => AtRoot after
    | .noFile after => AtRoot after
    | .opened _ cwd after =>
        Follows L adfimage after ∧ cwd = some adfimage.cwd ∧ RestoresRoot L adfimage := by
  have hwalk := h.follows.chdir (L := L) (dirname path)
  rw [openInParent_eq]
  cases hdir : namedDir L adfimage (dirname path) with
  | none =>
    apply h.chdir (dirname_ne_nil path)
    apply hpath.2
    rintro ⟨dir, hsome, -⟩
    simp [hdir] at hsome
  | some dir =>
    dsimp only
    cases hfile : (L.adfFileOpen adfimage.vol.image dir (basename path) mode).2 with
    | none =>
      have hend : EndsAtRoot L adfimage (dirname path) := by
        apply hpath.2
        rintro ⟨dir', hsome, hopens⟩
        obtain rfl : dir = dir' := by simpa [hdir] using hsome
        simp [hfile] at hopens
      exact ((h.chdir (dirname_ne_nil path) hend).record _).setImage _
    | some file =>
      exact ⟨hwalk.afterOpen hL _ _, rfl, hpath.1 ⟨dir, hdir, by simp [hfile]⟩⟩

theorem AtRoot.afterFile (hL : L.Directories) {adfimage : Adfimage Image} (h : AtRoot adfimage)
    {path : CStr} {mode : AdfFileMode} (hpath : ReturnsFromFile L adfimage path mode)
    {after : Image → File → Image} (hafter : ∀ image file, L.SameDirs image (after image file)) :
    AtRoot (afterFile L adfimage path mode after) := by
  have hopen := h.openInParent hL hpath
  unfold FuseAdf.afterFile
  generalize FuseAdf.openInParent L adfimage path mode = opening at hopen ⊢
  cases opening with
  | noDir walked => exact hopen
  | noFile walked => exact hopen
  | opened file cwd opened =>
    obtain ⟨hfollows, rfl, hback⟩ := hopen
    exact (hfollows.setImage (hafter _ _)).restore h.head_cwd hback

theorem AtRoot.fileOpen (hL : L.Directories) {adfimage : Adfimage Image} (h : AtRoot adfimage)
    {path : CStr} {mode : AdfFileMode} (hpath : ReturnsFromFile L adfimage path mode) :
    AtRoot (adfimageFileOpen L adfimage path mode).2 := by
  rw [fileOpen_snd]
  exact h.afterFile hL hpath fun image _ ↦ sameDirs_refl image

theorem AtRoot.truncate (hL : L.Directories) {adfimage : Adfimage Image} (h : AtRoot adfimage)
    {path : CStr} (hpath : ReturnsFromFile L adfimage path .write) (newSize : BitVec 64) :
    AtRoot (adffsTruncate L adfimage path newSize).2 := by
  have hopen := h.fileOpen hL hpath
  rw [adffsTruncate, adfimageFileTruncate]
  generalize adfimageFileOpen L adfimage path .write = opening at hopen ⊢
  rcases opening with ⟨file, after⟩
  cases file with
  | none => exact hopen
  | some file => exact (hopen.setImage _).fileClose (some _)

theorem AtRoot.read (hL : L.Directories) {adfimage : Adfimage Image} (h : AtRoot adfimage)
    {path : CStr} (hpath : ReturnsFromFile L adfimage path .read) (size offset : BitVec 64) :
    AtRoot (adfimageRead L adfimage path size offset).2.2 := by
  rw [read_snd]
  exact h.afterFile hL hpath (sameDirs_afterRead hL size offset)

theorem AtRoot.write (hL : L.Directories) {adfimage : Adfimage Image} (h : AtRoot adfimage)
    {path : CStr} (hpath : ReturnsFromFile L adfimage path .write) (buffer : List UInt8)
    (size offset : BitVec 64) : AtRoot (adfimageWrite L adfimage path buffer size offset).2 := by
  rw [write_snd]
  exact h.afterFile hL hpath (sameDirs_afterWrite hL buffer size offset)

theorem Follows.readlinkEntry {before after : Adfimage Image} (h : Follows L before after)
    (entryname buffer : CStr) (lenMax : ℕ) :
    Follows L before (readlinkEntry L after entryname buffer lenMax).2.2 := by
  unfold FuseAdf.readlinkEntry
  cases L.adfReadEntryBlock after.vol.image after.vol.curDirPtr with
  | none => exact h
  | some parent =>
    dsimp only
    split
    · exact h.record _
    · split_ifs
      · exact h.record _
      · split <;> exact h.record _

theorem AtRoot.readlink {adfimage : Adfimage Image} (h : AtRoot adfimage) {path : CStr}
    (hpath : if (namedDir L adfimage (dirname path)).isSome then RestoresRoot L adfimage
      else EndsAtRoot L adfimage (dirname path)) (buffer : CStr) (lenMax : ℕ) :
    AtRoot (adfimageReadlink L adfimage path buffer lenMax).2.2 := by
  have hwalk := h.follows.chdir (L := L) (dirname path)
  rw [readlink_eq]
  cases hdir : namedDir L adfimage (dirname path) with
  | none =>
    rw [hdir, if_neg (by simp)] at hpath
    exact h.chdir (dirname_ne_nil path) hpath
  | some dir =>
    rw [hdir, if_pos (Option.isSome_some)] at hpath
    exact (hwalk.readlinkEntry _ _ _).restore h.head_cwd hpath

/-- The functions that create or remove an entry start at the root themselves. -/
theorem AtRoot.inParentFromRoot {adfimage : Adfimage Image} (h : AtRoot adfimage) {path : CStr}
    (hpath : WalksFromRoot L adfimage.adfToRootDir path (dirname (pathstrGetRelative path)))
    (emptyPath : ℤ) (call : Image → Sector → CStr → Image × RetCode)
    (event : Sector → CStr → AdfCall) (result : RetCode → ℤ) :
    AtRoot (inParentFromRoot L adfimage path emptyPath call event result).2 := by
  by_cases hrel : pathstrGetRelative path = []
  · rw [inParentFromRoot_of_root L adfimage _ _ _ _ hrel]
    exact h
  · have hroot : AtRoot adfimage.adfToRootDir := atRoot_adfToRootDir h.head_cwd
    rw [inParentFromRoot_eq L adfimage _ _ _ _ hrel]
    dsimp only
    cases hdir : namedDir L adfimage.adfToRootDir (dirname (pathstrGetRelative path)) with
    | none =>
      have hend := (hpath.resolve_left hrel).resolve_left (by simp [hdir])
      exact hroot.chdir (dirname_ne_nil _) hend
    | some dir =>
      apply atRoot_adfToRootDir
      exact head_cwd_chdir hroot.head_cwd _

theorem head_cwd_statFile {adfimage : Adfimage Image} (h : adfimage.cwd.head? = some '/')
    (name : CStr) (statbuf : Stat) :
    (statFile L adfimage name statbuf).2.cwd.head? = some '/' := by
  unfold statFile adfimageFileClose
  dsimp only
  split <;> exact h

theorem head_cwd_statEntry {adfimage : Adfimage Image} (h : adfimage.cwd.head? = some '/')
    (path name : CStr) (dentry : AdfimageDentry) :
    (statEntry L adfimage path name dentry).2.cwd.head? = some '/' := by
  unfold statEntry
  cases dentry.type with
  | file =>
    dsimp only
    exact head_cwd_statFile h _ _
  | linkfile =>
    dsimp only
    exact head_cwd_statFile h _ _
  | directory => exact head_cwd_chdir (head_cwd_chdir h _) _
  | linkdir => exact head_cwd_chdir (head_cwd_chdir h _) _
  | softlink => exact h
  | unknown => exact h
  | none => exact h

theorem AtRoot.getattr {adfimage : Adfimage Image} (h : AtRoot adfimage) {path : CStr}
    (hpath : WalksFromRoot L adfimage path (dirname path)) :
    AtRoot (adffsGetattr L env adfimage path).2.2 := by
  by_cases hrel : pathstrGetRelative path = []
  · rw [getattr_root L env adfimage hrel]
    exact h
  · rw [getattr_eq L env adfimage hrel]
    dsimp only
    cases hdir : namedDir L adfimage (dirname path) with
    | none =>
      have hend := (hpath.resolve_left hrel).resolve_left (by simp [hdir])
      exact h.chdir (dirname_ne_nil path) hend
    | some dir =>
      have hwalk := h.follows.chdir (L := L) (dirname path)
      have hlookup : (adfimageGetdentry L (adfimageChdir L adfimage (dirname path)).2
          (basename path)).2.cwd.head? = some '/' := by
        rcases eq_or_ne (basename path) ['/'] with hroot | hne
        · rw [hroot]
          exact hwalk.head_cwd
        · rw [getdentry_eq L _ hne]
          dsimp only
          split_ifs
          · exact head_cwd_chdir hwalk.head_cwd _
          · exact head_cwd_chdir (head_cwd_chdir hwalk.head_cwd _) _
      have hstat := head_cwd_statEntry (L := L) hlookup path (basename path)
        (adfimageGetdentry L (adfimageChdir L adfimage (dirname path)).2 (basename path)).1
      unfold statFound
      dsimp only
      generalize statEntry L _ path (basename path) _ = stat at hstat ⊢
      rcases stat with ⟨statbuf, after⟩
      cases statbuf <;> exact atRoot_adfToRootDir hstat

theorem AtRoot.readdir {adfimage : Adfimage Image} (h : AtRoot adfimage) (path : CStr)
    (filler : List CStr → CStr → Bool) : AtRoot (adffsReaddir L adfimage path filler).2.2 := by
  have hwalk := head_cwd_chdir (L := L) h.head_cwd path
  unfold adffsReaddir
  generalize adfimageChdir L adfimage path = walk at hwalk ⊢
  rcases walk with ⟨entered, after⟩
  cases entered with
  | false => exact atRoot_adfToRootDir hwalk
  | true =>
    dsimp only
    generalize readdirLoop filler _ _ = filled
    rcases filled with ⟨done, names⟩
    cases done <;> exact atRoot_adfToRootDir hwalk

theorem AtRoot.renameConverted {adfimage : Adfimage Image} (h : AtRoot adfimage)
    (srcPath dstPath : Path) (hsrc : ReturnsFromLookup L adfimage srcPath.dirpath)
    (hdst : checkParent (adfimageGetdentry L adfimage srcPath.dirpath).1 = none →
      ReturnsFromLookup L (adfimageGetdentry L adfimage srcPath.dirpath).2 dstPath.dirpath) :
    AtRoot (renameConverted L adfimage srcPath dstPath).2 := by
  have hfirst := h.getdentry hsrc
  rw [FuseAdf.renameConverted]
  generalize adfimageGetdentry L adfimage srcPath.dirpath = src at hfirst hdst ⊢
  rcases src with ⟨srcEntry, middle⟩
  dsimp only at hfirst hdst ⊢
  cases hcheck : checkParent srcEntry with
  | some error => exact hfirst
  | none =>
    have hsecond := hfirst.getdentry (hdst hcheck)
    generalize adfimageGetdentry L middle dstPath.dirpath = dst at hsecond ⊢
    rcases dst with ⟨dstEntry, last⟩
    dsimp only at hsecond ⊢
    cases checkParent dstEntry with
    | some error => exact hsecond
    | none =>
      dsimp only
      split_ifs
      · exact hsecond
      · exact hsecond
      · exact (hsecond.record _).setImage _
      · exact (hsecond.record _).setImage _

theorem AtRoot.fileRename {fuel : ℕ} {adfimage after : Adfimage Image} (h : AtRoot adfimage)
    {srcPath dstPath : CStr} {ret : ℤ} (hpath : ReturnsFromRename L adfimage srcPath dstPath)
    (hrun : adfimageFileRename L fuel adfimage srcPath dstPath = some (ret, after)) :
    AtRoot after := by
  rw [fileRename_eq] at hrun
  obtain ⟨srcDirpath, hsrc, hrun⟩ := Option.bind_eq_some_iff.mp hrun
  obtain ⟨dstDirpath, hdst, hrun⟩ := Option.bind_eq_some_iff.mp hrun
  obtain ⟨hfirst, hsecond⟩ := hpath srcDirpath dstDirpath ⟨fuel, hsrc⟩ ⟨fuel, hdst⟩
  have hconverted := h.renameConverted { pathCreate srcPath with dirpath := srcDirpath }
    { pathCreate dstPath with dirpath := dstDirpath } hfirst hsecond
  rw [Option.some.inj hrun] at hconverted
  exact hconverted

/-- The callback returns and leaves the second state. -/
def Callback.Step (L : Adflib Image File) (env : Env) (before : Adfimage Image)
    (callback : Callback) (after : Adfimage Image) : Prop :=
  ∃ fuel, (callback.run L env fuel before).map Prod.snd = some after

theorem AtRoot.of_some {adfimage after : Adfimage Image} (h : AtRoot adfimage)
    (hafter : some adfimage = some after) : AtRoot after := by
  rwa [← Option.some.inj hafter]

/-- Every callback that meets its condition leaves the volume at the root. -/
theorem AtRoot.step (hL : L.Directories) {before after : Adfimage Image} (h : AtRoot before)
    {callback : Callback} (hreturns : ReturnsToRoot L before callback)
    (hstep : callback.Step L env before after) : AtRoot after := by
  obtain ⟨fuel, hrun⟩ := hstep
  cases callback with
  | getattr path => exact (h.getattr hreturns).of_some hrun
  | readlink path buf len => exact (h.readlink hreturns _ _).of_some hrun
  | mkdir path => exact (h.inParentFromRoot hreturns _ _ _ _).of_some hrun
  | unlink path => exact (h.inParentFromRoot hreturns _ _ _ _).of_some hrun
  | rmdir path => exact (h.inParentFromRoot hreturns _ _ _ _).of_some hrun
  | rename srcPath dstPath =>
    obtain ⟨⟨reply, last⟩, hreply, rfl⟩ := Option.map_eq_some_iff.mp hrun
    obtain ⟨⟨ret, middle⟩, hrename, hresult⟩ := Option.map_eq_some_iff.mp hreply
    obtain ⟨-, rfl⟩ := Prod.mk.inj hresult
    exact h.fileRename hreturns hrename
  | chmod path mode => exact (h.chmod hreturns _).of_some hrun
  | chown path => exact h.of_some hrun
  | truncate path newSize => exact (h.truncate hL hreturns _).of_some hrun
  | «open» path => exact ((h.fileOpen hL hreturns).fileClose _).of_some hrun
  | read path size offset => exact (h.read hL hreturns _ _).of_some hrun
  | write path buffer size offset => exact (h.write hL hreturns _ _ _).of_some hrun
  | statfs path => exact h.of_some hrun
  | readdir path filler => exact (h.readdir _ _).of_some hrun
  | create path =>
    have hcreate : AtRoot (adfimageCreate L before path).2 :=
      h.inParentFromRoot hreturns _ _ _ _
    exact hcreate.of_some hrun
  | utimens path => exact h.of_some hrun

variable (L env)

/-- The path names a directory: the root, or an entry that is a directory or a link to one. -/
def NamesDirectory (adfimage : Adfimage Image) (path : CStr) : Prop :=
  pathstrGetRelative path = [] ∨
    ∃ dir, namedDir L adfimage (dirname path) = some dir ∧
      let dentry := dentryOf (adflibListFind (basename path)
        (L.adfGetDirEnt adfimage.vol.image dir))
      dentry.type = .directory ∨ dentry.type = .linkdir

/-- Where both succeed, the size that `adffs_getattr` reports for a directory is the number of names
that `adffs_readdir` hands over after its two own ones. -/
def SizesAgree (adfimage : Adfimage Image) : Prop :=
  ∀ path filler, path.head? = some '/' → NamesDirectory L adfimage path →
    (adffsGetattr L env adfimage path).1 = 0 → (adffsReaddir L adfimage path filler).1 = 0 →
    (adffsGetattr L env adfimage path).2.1.stSize =
      ((adffsReaddir L adfimage path filler).2.1.drop 2).length

variable {L env}

theorem adflistCountEntries_eq_length (entries : List AdfEntry) :
    adflistCountEntries entries = entries.length := by
  induction entries with
  | nil => rfl
  | cons entry entries ih =>
    rw [adflistCountEntries, ih, List.length_cons]
    push_cast
    rfl

/-- Below the root both walk to the directory. -/
theorem size_eq_of_relative {adfimage : Adfimage Image} {path : CStr}
    (habs : path.head? = some '/') (hrel : pathstrGetRelative path ≠ [])
    (hdirectory : NamesDirectory L adfimage path) {dir : Sector}
    (hdir : namedDir L adfimage path = some dir) :
    (adffsGetattr L env adfimage path).2.1.stSize =
      (L.adfGetDirEnt adfimage.vol.image dir).length := by
  obtain ⟨parent, hparent, htype⟩ := hdirectory.resolve_left hrel
  obtain ⟨here, himage, hroot, hattr⟩ := getattr_of_namedDir L env adfimage hrel hparent
  have hne : path ≠ [] := by
    intro h
    simp [h] at habs
  have hhere : namedDir L here path = some dir := by
    rw [← hdir, namedDir_of_absolute L here habs, namedDir_of_absolute L adfimage habs, look, look,
      himage, hroot]
  rw [hattr, statFound_size L env here path htype]
  change adfimageCountCwdEntries L (adfimageChdir L here path).2 = _
  rw [adfimageCountCwdEntries, chdir_curDirPtr L here hne, lastDir_of_namedDir L hhere,
    chdir_image, himage, adflistCountEntries_eq_length]

/-- At the root directory sizes and listings agree for every path. -/
theorem AtRoot.sizesAgree {adfimage : Adfimage Image} (h : AtRoot adfimage) :
    SizesAgree L env adfimage := by
  intro path filler habs hdirectory _ hlist
  have hne : path ≠ [] := by
    intro h
    simp [h] at habs
  obtain ⟨dir, hdir, hnames⟩ := readdir_success L hne hlist
  rw [hnames]
  simp only [List.drop_succ_cons, List.drop_zero, List.length_map]
  by_cases hrel : pathstrGetRelative path = []
  · have hpieces : chdirPieces path = [] := by rw [chdirPieces, if_pos (Or.inl hrel)]
    have hroot : dir = adfimage.vol.rootBlock := by
      rw [namedDir_of_absolute L adfimage habs, hpieces] at hdir
      exact (Option.some.inj hdir).symm
    rw [getattr_root L env adfimage hrel]
    change adfimageCountCwdEntries L adfimage = _
    rw [adfimageCountCwdEntries, h.curDirPtr, hroot, adflistCountEntries_eq_length]
  · exact size_eq_of_relative habs hrel hdirectory hdir

/-! ## Whole runs -/

/-- In a run from the state after mounting whose every step leaves the volume at the root, sizes
and listings agree in every state reached. -/
theorem sizesAgree_of_run (hL : L.Directories) {start last : Adfimage Image}
    {callbacks : List Callback} (hcwd : start.cwd = ['/'])
    (hcur : start.vol.curDirPtr = start.vol.rootBlock)
    (hrun : Run (Callback.Step L env) (ReturnsToRoot L) start callbacks last) :
    SizesAgree L env last := by
  have hroot : AtRoot last := hrun.invariant
    (fun _ _ _ hbefore hreturns hstep ↦ hbefore.step hL hreturns hstep)
    ⟨hcur, by rw [hcwd]; rfl⟩
  exact hroot.sizesAgree

theorem sizesAgree_of_run_map :
    SizesAgree RamDisk.lib default
      (adffsOpen RamDisk.lib RamDisk.mounted "/Plot/map".toList).2 := by
  have hrun : Run (Callback.Step RamDisk.lib default) (ReturnsToRoot RamDisk.lib) RamDisk.mounted
      [.open "/Plot/map".toList] (adffsOpen RamDisk.lib RamDisk.mounted "/Plot/map".toList).2 := by
    apply Run.single _ ⟨0, rfl⟩
    exact ⟨fun _ ↦ rfl, fun h ↦ absurd ⟨882, rfl, rfl⟩ h⟩
  exact sizesAgree_of_run RamDisk.directories rfl rfl hrun

/-- A failed `open` in `/Plot` leaves the volume there: the root is then reported with the size of
`/Plot`.  All paths of the run are absolute. -/
theorem not_sizesAgree_after_open :
    ¬ ∀ (callbacks : List Callback) (last : Adfimage RamDisk),
      Run (Callback.Step RamDisk.lib default) (fun _ callback ↦ callback.Absolute) RamDisk.mounted
        callbacks last →
      SizesAgree RamDisk.lib default last := by
  intro h
  have habsolute : (Callback.open "/Plot/missing".toList).Absolute := rfl
  have hopen := h [.open "/Plot/missing".toList]
    (adffsOpen RamDisk.lib RamDisk.mounted "/Plot/missing".toList).2
    (Run.single habsolute ⟨0, rfl⟩) "/".toList (fun _ _ ↦ false) rfl (Or.inl rfl) (by decide)
    (by decide)
  revert hopen
  decide

end FuseAdf
