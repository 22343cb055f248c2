import FuseAdf.Adffs.Lookup
import FuseAdf.Adfimage.WorkingDirectory
import FuseAdf.Adflib.RamDisk
import FuseAdf.Library.GuardedRun

/-!
# The recorded working directory over whole runs

A run is any sequence of callbacks and of calls of the adfimage functions.  `adfToRootDir` moves the
volume to the root and leaves the string where it is; five operations call it directly instead of
changing to `/`, and a renaming can take away a directory that the string names.  `KeepsStep` says
for a state and an operation that nothing of this happens.  As long as every step of a run does,
the string names the current directory.  The string is of any length here; `CwdBuffer` says in which
runs it fits into the array that the program has for it.
-/

namespace FuseAdf

open Adfimage NameWalk GuardedRun

variable {Image File : Type} (L : Adflib Image File) (env : Env)

/-- A callback, or a call of an adfimage function. -/
inductive Operation (File : Type)
  | adffs (callback : Callback)
  | adfimage (call : AdfimageCall File)

/-- The state that an operation leaves. -/
def Operation.run (fuel : ℕ) (adfimage : Adfimage Image) :
    Operation File → Option (Adfimage Image)
  | .adffs callback => (callback.run L env fuel adfimage).map Prod.snd
  | .adfimage call => call.run L fuel adfimage

/-- The operation returns and leaves the second state. -/
def Operation.Step (before : Adfimage Image) (operation : Operation File)
    (after : Adfimage Image) : Prop :=
  ∃ fuel, operation.run L env fuel before = some after

section Conditions

variable (adfimage : Adfimage Image) (path : CStr)

/-- The path is walked from a state whose string is the root. -/
def StartsAtRoot : Prop := path.head? = some '/' ∨ adfimage.cwd = ['/']

/-- For the functions that create or remove an entry: the path is the root's and refused, or they
start at the root and either enter no directory or cannot enter one on the way. -/
def ChangesAtRoot : Prop :=
  pathstrGetRelative path = [] ∨
    (adfimage.cwd = ['/'] ∧
      (chdirPieces (dirname (pathstrGetRelative path)) = [] ∨
        namedDir L adfimage.adfToRootDir (dirname (pathstrGetRelative path)) = none))

/-- For `adffs_getattr`: the path is the root's, or its directory cannot be entered, or is the
root. -/
def StatsAtRoot : Prop :=
  pathstrGetRelative path = [] ∨ namedDir L adfimage (dirname path) = none ∨
    (StartsAtRoot adfimage (dirname path) ∧ chdirPieces (dirname path) = [])

/-- For `adffs_readdir`: no directory below the root is entered. -/
def ListsAtRoot : Prop :=
  StartsAtRoot adfimage path ∧
    walked (look L adfimage) (chdirStart adfimage path).vol.curDirPtr (chdirPieces path) = []

/-- The sector that stands for a directory in a renaming. -/
def parentDir (dirpath : CStr) : Option Sector :=
  if dirpath = ['/'] then some adfimage.vol.rootBlock
  else (entryAt L adfimage dirpath).map fun entry ↦ parentSector (dentryOf (some entry))

/-- The entry that a renaming takes away is one of those that the string `cwd` goes through. -/
def RenamesComponent (srcPath : CStr) : Prop :=
  ∃ dirpath front name back dir, ConvertsTo (dirname srcPath) dirpath ∧
    components adfimage.cwd = front ++ name :: back ∧
    walk (look L adfimage) adfimage.vol.rootBlock front = some dir ∧
    parentDir L adfimage dirpath = some dir ∧ L.sameName name (basename srcPath) = true

end Conditions

/-- The conditions for all operations; those that are not named have none. -/
def KeepsStep (adfimage : Adfimage Image) : Operation File → Prop
  | .adffs (.getattr path) => StatsAtRoot L adfimage path
  | .adffs (.readdir path _) => ListsAtRoot L adfimage path
  | .adffs (.mkdir path) | .adffs (.rmdir path) | .adffs (.unlink path) | .adffs (.create path)
  | .adfimage (.mkdir path) | .adfimage (.rmdir path) | .adfimage (.unlink path)
  | .adfimage (.create path) => ChangesAtRoot L adfimage path
  | .adffs (.rename srcPath _) | .adfimage (.fileRename srcPath _) =>
      ¬ RenamesComponent L adfimage srcPath
  | _ => True

/-! ## One step -/

variable {L env}

theorem chdirStart_cwd {adfimage : Adfimage Image} {path : CStr}
    (h : StartsAtRoot adfimage path) : (chdirStart adfimage path).cwd = ['/'] := by
  unfold chdirStart
  split_ifs with habs
  · rfl
  · exact h.resolve_left habs

/-- A walk that enters nothing leaves the string as it was at the start. -/
theorem chdir_cwd_of_walked {adfimage : Adfimage Image} {path : CStr} (hne : path ≠ [])
    (h : walked (look L adfimage) (chdirStart adfimage path).vol.curDirPtr (chdirPieces path) = []) :
    (adfimageChdir L adfimage path).2.cwd = (chdirStart adfimage path).cwd := by
  rw [adfimageChdir_eq L adfimage hne]
  change List.foldl joinDir (chdirStart adfimage path).cwd
    (walked (look L (chdirStart adfimage path)) _ _) = _
  rw [look_chdirStart, h]
  rfl

/-- A name without slashes is looked up where the volume is, and a string at the root stays. -/
theorem getdentry_name_cwd {adfimage : Adfimage Image} {name : CStr} (hne : name ≠ [])
    (hslash : '/' ∉ name) (hcwd : adfimage.cwd = ['/']) :
    (adfimageGetdentry L adfimage name).2.cwd = ['/'] := by
  have hroot : name ≠ ['/'] := by
    intro h
    exact hslash (by simp [h])
  rw [getdentry_eq L adfimage hroot, dirname_name hne hslash, chdir_dot, hcwd]
  dsimp only
  split_ifs
  · exact hcwd
  · rfl

theorem statFile_cwd (adfimage : Adfimage Image) (name : CStr) (statbuf : Stat) :
    (statFile L adfimage name statbuf).2.cwd = adfimage.cwd := by
  unfold statFile adfimageFileClose
  dsimp only
  split <;> rfl

/-- At the root, filling in the attributes stays there. -/
theorem statEntry_cwd {adfimage : Adfimage Image} (path name : CStr) (dentry : AdfimageDentry)
    (hcwd : adfimage.cwd = ['/']) :
    (statEntry L adfimage path name dentry).2.cwd = ['/'] := by
  unfold statEntry
  cases dentry.type with
  | file =>
    dsimp only
    rw [statFile_cwd, hcwd]
  | linkfile =>
    dsimp only
    rw [statFile_cwd, hcwd]
  | directory =>
    simp only [adfimageCountDirEntries, hcwd]
    rfl
  | linkdir =>
    simp only [adfimageCountDirEntries, hcwd]
    rfl
  | softlink => exact hcwd
  | unknown => exact hcwd
  | none => exact hcwd

theorem InSync.adffsGetattr {adfimage : Adfimage Image}
    (h : InSync L adfimage) {path : CStr} (hpath : StatsAtRoot L adfimage path) :
    InSync L (adffsGetattr L env adfimage path).2.2 := by
  by_cases hrel : pathstrGetRelative path = []
  · rw [getattr_root L env adfimage hrel]
    exact h
  · rw [getattr_eq L env adfimage hrel]
    cases hdir : namedDir L adfimage (dirname path) with
    | none => exact h.chdir (dirname path)
    | some dir =>
      have hname := exists_ne_slash hrel
      obtain ⟨hstart, hpieces⟩ := (hpath.resolve_left hrel).resolve_left (by simp [hdir])
      have hwalk : (adfimageChdir L adfimage (dirname path)).2.cwd = ['/'] := by
        rw [chdir_cwd_of_walked (dirname_ne_nil path) (by rw [hpieces]; rfl)]
        exact chdirStart_cwd hstart
      have hlookup := getdentry_name_cwd (L := L) (basename_ne_nil hname)
        (slash_not_mem_basename hname) hwalk
      dsimp only
      generalize adfimageGetdentry L _ (basename path) = found at hlookup ⊢
      have hstat := statEntry_cwd (L := L) path (basename path) found.1 hlookup
      unfold statFound
      generalize statEntry L found.2 path (basename path) found.1 = stat at hstat ⊢
      rcases stat with ⟨statbuf, after⟩
      cases statbuf <;> exact InSync.of_root hstat rfl

/-- After a listing the volume is at the root, and so is the string. -/
theorem inSync_readdir {adfimage : Adfimage Image} {path : CStr}
    (hpath : ListsAtRoot L adfimage path) (filler : List CStr → CStr → Bool) :
    InSync L (adffsReaddir L adfimage path filler).2.2 := by
  have hcwd : (adfimageChdir L adfimage path).2.cwd = ['/'] := by
    rcases eq_or_ne path [] with rfl | hne
    · exact hpath.1.resolve_left (by simp)
    · rw [chdir_cwd_of_walked hne hpath.2]
      exact chdirStart_cwd hpath.1
  rcases eq_or_ne path [] with rfl | hne
  · exact InSync.of_root hcwd rfl
  · rw [readdir_eq L adfimage hne]
    cases namedDir L adfimage path <;> exact InSync.of_root hcwd rfl

theorem InSync.inParentFromRoot {adfimage : Adfimage Image}
    (h : InSync L adfimage) {path : CStr} (hpath : ChangesAtRoot L adfimage path) (emptyPath : ℤ)
    (call : Image → Sector → CStr → Image × RetCode) (event : Sector → CStr → AdfCall)
    (result : RetCode → ℤ) :
    InSync L (inParentFromRoot L adfimage path emptyPath call event result).2 := by
  by_cases hrel : pathstrGetRelative path = []
  · rw [inParentFromRoot_of_root L adfimage _ _ _ _ hrel]
    exact h
  · obtain ⟨hcwd, hdirs⟩ := hpath.resolve_left hrel
    have hroot : InSync L adfimage.adfToRootDir := InSync.of_root hcwd rfl
    have hne := dirname_ne_nil (pathstrGetRelative path)
    rw [inParentFromRoot_eq L adfimage _ _ _ _ hrel]
    dsimp only
    cases hdir : namedDir L adfimage.adfToRootDir (dirname (pathstrGetRelative path)) with
    | none => exact hroot.chdir _
    | some dir =>
      have hpieces := hdirs.resolve_right (by simp [hdir])
      have hstart : StartsAtRoot adfimage.adfToRootDir (dirname (pathstrGetRelative path)) :=
        Or.inr hcwd
      apply InSync.of_root _ rfl
      change (adfimageChdir L adfimage.adfToRootDir (dirname (pathstrGetRelative path))).2.cwd = _
      rw [chdir_cwd_of_walked hne (by rw [hpieces]; rfl)]
      exact chdirStart_cwd hstart

theorem type_ne_none_of_checkParent {dentry : AdfimageDentry} (h : checkParent dentry = none) :
    dentry.type ≠ .none := by
  intro hnone
  simp [checkParent, hnone] at h

/-- A lookup that finds a parent gives the sector that `parentDir` names. -/
theorem parentDir_of_getdentry (adfimage : Adfimage Image) (dirpath : CStr)
    (h : (adfimageGetdentry L adfimage dirpath).1.type ≠ .none) :
    parentDir L adfimage dirpath =
      some (parentSector (adfimageGetdentry L adfimage dirpath).1) := by
  rcases eq_or_ne dirpath ['/'] with rfl | hne
  · rw [parentDir, if_pos rfl]
    rw [getdentry_root] at h ⊢
    unfold adfimageGetRootDentry at h ⊢
    split at h
    · exact absurd rfl h
    · split at h
      · exact absurd rfl h
      · split_ifs at h ⊢ with hroot
        · simp [*, parentSector]
        · exact absurd rfl h
  · rw [parentDir, if_neg hne]
    rw [getdentry_fst L adfimage hne] at h ⊢
    cases hentry : entryAt L adfimage dirpath with
    | none =>
      rw [hentry] at h
      exact absurd rfl h
    | some entry => rfl

/-- The walk along the string survives the renaming of an entry that is not on it. -/
theorem Located.renameEntry (hL : L.Directories) {adfimage : Adfimage Image} {names : List CStr}
    (h : Located L adfimage names) {oldParent newParent : Sector} {oldName newName : CStr}
    (hspared : ∀ front name back, names = front ++ name :: back →
      NameWalk.walk (look L adfimage) adfimage.vol.rootBlock front = some oldParent →
      ¬ L.sameName name oldName = true) :
    Located L (adfimage.setImage
      (L.adfRenameEntry adfimage.vol.image oldParent oldName newParent newName).1) names where
  areDirNames := h.areDirNames
  cwd := h.cwd
  walk := by
    apply walk_of_agree fun dir name ↦ dir = oldParent ∧ L.sameName name oldName = true
    · intro dir name next hnext haffected
      exact hL.renameEntry _ _ _ _ _ _ _ _ hnext haffected
    · exact h.walk
    · intro front name back hnames dir hdir haffected
      exact hspared front name back hnames (haffected.1 ▸ hdir) haffected.2

theorem InSync.renameConverted (hL : L.Directories) {adfimage : Adfimage Image}
    (h : InSync L adfimage) (srcPath dstPath : Path)
    (hspared : ∀ front name back dir, components adfimage.cwd = front ++ name :: back →
      walk (look L adfimage) adfimage.vol.rootBlock front = some dir →
      parentDir L adfimage srcPath.dirpath = some dir →
      ¬ L.sameName name srcPath.entryname = true) :
    InSync L (renameConverted L adfimage srcPath dstPath).2 := by
  obtain ⟨names, hnames⟩ := h
  have hsrc := InSync.getdentry ⟨names, hnames⟩ srcPath.dirpath
  have hsrcImage := getdentry_image L adfimage srcPath.dirpath
  have hsrcRoot := getdentry_rootBlock L adfimage srcPath.dirpath
  have hsrcFound := hnames.getdentry srcPath.dirpath
  have hsrcDir := parentDir_of_getdentry (L := L) adfimage srcPath.dirpath
  unfold FuseAdf.renameConverted
  generalize adfimageGetdentry L adfimage srcPath.dirpath = found at *
  rcases found with ⟨srcParent, middle⟩
  dsimp only at *
  cases hcheck : checkParent srcParent with
  | some error => exact hsrc
  | none =>
    have htype := type_ne_none_of_checkParent hcheck
    obtain ⟨names', hnames', hsame⟩ := hsrcFound htype
    have hdst := InSync.getdentry ⟨names', hnames'⟩ dstPath.dirpath
    have hdstImage := getdentry_image L middle dstPath.dirpath
    have hdstRoot := getdentry_rootBlock L middle dstPath.dirpath
    have hdstFound := hnames'.getdentry dstPath.dirpath
    dsimp only
    generalize adfimageGetdentry L middle dstPath.dirpath = found' at *
    rcases found' with ⟨dstParent, last⟩
    dsimp only at *
    cases hcheck' : checkParent dstParent with
    | some error => exact hdst
    | none =>
      obtain ⟨names'', hnames'', hsame'⟩ := hdstFound (type_ne_none_of_checkParent hcheck')
      dsimp only
      have hrenamed : InSync L (last.setImage (L.adfRenameEntry last.vol.image
          (parentSector srcParent) srcPath.entryname (parentSector dstParent)
          dstPath.entryname).1) := by
        refine ⟨names'', hnames''.renameEntry hL ?_⟩
        intro front name back hsplit hfront
        have hlook : look L last = look L adfimage := by
          rw [look, look, hdstImage, hsrcImage]
        rw [hlook, hdstRoot, hsrcRoot] at hfront
        have hall : names'' = names ∨ names'' = [] := by
          rcases hsame' with rfl | rfl
          · exact hsame
          · exact Or.inr rfl
        rcases hall with rfl | rfl
        · apply hspared front name back (parentSector srcParent) _ hfront (hsrcDir htype)
          rw [hnames.cwd, components_cwdOf hnames.areDirNames, hsplit]
        · simp at hsplit
      split_ifs
      · exact hdst
      · exact hdst
      · exact hrenamed.record _
      · exact hrenamed.record _

theorem InSync.fileRename (hL : L.Directories) {fuel : ℕ} {adfimage after : Adfimage Image}
    (h : InSync L adfimage) {srcPath dstPath : CStr} {ret : ℤ}
    (hspared : ¬ RenamesComponent L adfimage srcPath)
    (hrun : adfimageFileRename L fuel adfimage srcPath dstPath = some (ret, after)) :
    InSync L after := by
  rw [fileRename_eq] at hrun
  obtain ⟨srcDirpath, hsrc, hrest⟩ := Option.bind_eq_some_iff.mp hrun
  obtain ⟨dstDirpath, hdst, hresult⟩ := Option.bind_eq_some_iff.mp hrest
  have hconverted := h.renameConverted hL { pathCreate srcPath with dirpath := srcDirpath }
    { pathCreate dstPath with dirpath := dstDirpath } (by
      intro front name back dir hsplit hfront hdir hsame
      exact hspared ⟨srcDirpath, front, name, back, dir, ⟨fuel, hsrc⟩, hsplit, hfront, hdir, hsame⟩)
  rw [Option.some.inj hresult] at hconverted
  exact hconverted

theorem InSync.chmod (hL : L.Directories) {adfimage : Adfimage Image} (h : InSync L adfimage)
    (path : CStr) (mode : BitVec 32) : InSync L (adffsChmod L adfimage path mode).2 := by
  have hsetperm := h.setperm hL path (chmodPerms mode)
  unfold adffsChmod
  generalize adfimageSetperm L adfimage path (chmodPerms mode) = result at hsetperm ⊢
  rcases result with ⟨done, after⟩
  cases done <;> exact hsetperm

/-- The state that a step which always returns leaves. -/
theorem InSync.of_some {adfimage after : Adfimage Image} (h : InSync L adfimage)
    (hafter : some adfimage = some after) : InSync L after := by
  rwa [← Option.some.inj hafter]

/-- Every callback keeps the two in step where the conditions hold. -/
theorem InSync.callback (hL : L.Directories) {fuel : ℕ} {before after : Adfimage Image}
    (h : InSync L before) {callback : Callback}
    (hkeeps : KeepsStep L before (.adffs callback : Operation File))
    (hrun : (callback.run L env fuel before).map Prod.snd = some after) : InSync L after := by
  cases callback with
  | getattr path => exact (h.adffsGetattr hkeeps).of_some hrun
  | readlink path buf len => exact (h.readlink _ _ _).of_some hrun
  | mkdir path => exact (h.inParentFromRoot hkeeps _ _ _ _).of_some hrun
  | unlink path => exact (h.inParentFromRoot hkeeps _ _ _ _).of_some hrun
  | rmdir path => exact (h.inParentFromRoot hkeeps _ _ _ _).of_some hrun
  | rename srcPath dstPath =>
    obtain ⟨⟨reply, last⟩, hreply, rfl⟩ := Option.map_eq_some_iff.mp hrun
    obtain ⟨⟨ret, middle⟩, hrename, hresult⟩ := Option.map_eq_some_iff.mp hreply
    obtain ⟨-, rfl⟩ := Prod.mk.inj hresult
    exact h.fileRename hL hkeeps hrename
  | chmod path mode => exact (h.chmod hL _ _).of_some hrun
  | chown path => exact h.of_some hrun
  | truncate path newSize => exact (h.truncate hL _ _).of_some hrun
  | «open» path => exact ((h.fileOpen hL _ _).fileClose hL _).of_some hrun
  | read path size offset => exact (h.read hL _ _ _).of_some hrun
  | write path buffer size offset => exact (h.write hL _ _ _ _).of_some hrun
  | statfs path => exact h.of_some hrun
  | readdir path filler => exact (inSync_readdir hkeeps _).of_some hrun
  | create path =>
    have hcreate : InSync L (adfimageCreate L before path).2 :=
      h.inParentFromRoot hkeeps _ _ _ _
    exact hcreate.of_some hrun
  | utimens path => exact h.of_some hrun

/-- And so does every adfimage function. -/
theorem InSync.adfimageCall (hL : L.Directories) {fuel : ℕ} {before after : Adfimage Image}
    (h : InSync L before) {call : AdfimageCall File}
    (hkeeps : KeepsStep L before (.adfimage call))
    (hrun : call.run L fuel before = some after) : InSync L after := by
  cases call with
  | countCwdEntries => exact h.of_some hrun
  | countDirEntries dirpath => exact (h.countDirEntries _).of_some hrun
  | getRootDentry => exact h.of_some hrun
  | getdentry path => exact (h.getdentry _).of_some hrun
  | setperm path perms => exact (h.setperm hL _ _).of_some hrun
  | getcwd => exact h.of_some hrun
  | chdir path => exact (h.chdir _).of_some hrun
  | fileOpen path mode => exact (h.fileOpen hL _ _).of_some hrun
  | fileClose file => exact (h.fileClose hL _).of_some hrun
  | read path size offset => exact (h.read hL _ _ _).of_some hrun
  | write path buffer size offset => exact (h.write hL _ _ _ _).of_some hrun
  | readlink path buffer lenMax => exact (h.readlink _ _ _).of_some hrun
  | mkdir path => exact (h.inParentFromRoot hkeeps _ _ _ _).of_some hrun
  | rmdir path => exact (h.inParentFromRoot hkeeps _ _ _ _).of_some hrun
  | create path =>
    have hcreate : InSync L (adfimageCreate L before path).2 :=
      h.inParentFromRoot hkeeps _ _ _ _
    exact hcreate.of_some hrun
  | unlink path => exact (h.inParentFromRoot hkeeps _ _ _ _).of_some hrun
  | fileTruncate path newSize => exact (h.truncate hL _ _).of_some hrun
  | fileRename srcPath dstPath =>
    obtain ⟨⟨ret, middle⟩, hrename, rfl⟩ := Option.map_eq_some_iff.mp hrun
    exact h.fileRename hL hkeeps hrename

theorem InSync.step (hL : L.Directories) {before after : Adfimage Image} (h : InSync L before)
    {operation : Operation File} (hkeeps : KeepsStep L before operation)
    (hstep : operation.Step L env before after) : InSync L after := by
  obtain ⟨fuel, hrun⟩ := hstep
  cases operation with
  | adffs callback => exact h.callback hL hkeeps hrun
  | adfimage call => exact h.adfimageCall hL hkeeps hrun

/-! ## Whole runs -/

theorem inSync_of_run (hL : L.Directories) {start last : Adfimage Image}
    {operations : List (Operation File)} (hcwd : start.cwd = ['/'])
    (hcur : start.vol.curDirPtr = start.vol.rootBlock)
    (hrun : Run (Operation.Step L env) (KeepsStep L) start operations last) : InSync L last :=
  hrun.invariant (fun _ _ _ hbefore hkeeps hstep ↦ hbefore.step hL hkeeps hstep)
    (InSync.of_root hcwd hcur)

/-- In a run from the state after mounting whose every step meets its condition, the string names
the current directory in every state reached. -/
theorem namesCurDir_of_run (hL : L.Directories) {start last : Adfimage Image}
    {operations : List (Operation File)} (hcwd : start.cwd = ['/'])
    (hcur : start.vol.curDirPtr = start.vol.rootBlock)
    (hrun : Run (Operation.Step L env) (KeepsStep L) start operations last) :
    NamesCurDir L last :=
  (inSync_of_run hL hcwd hcur hrun).namesCurDir

theorem namesCurDir_of_run_plot :
    NamesCurDir RamDisk.lib (adfimageChdir RamDisk.lib RamDisk.mounted "/Plot".toList).2 := by
  have hrun : Run (Operation.Step RamDisk.lib default) (KeepsStep RamDisk.lib) RamDisk.mounted
      [.adfimage (.chdir "/Plot".toList)]
      (adfimageChdir RamDisk.lib RamDisk.mounted "/Plot".toList).2 :=
    Run.single trivial ⟨0, rfl⟩
  exact namesCurDir_of_run RamDisk.directories rfl rfl hrun

/-- Without the conditions it fails at once: after a directory has been made in `/Plot` the volume
is at the root and the string says `/Plot`. -/
theorem not_namesCurDir_after_mkdir :
    ¬ ∀ (operations : List (Operation RamFile)) (last : Adfimage RamDisk),
      Run (Operation.Step RamDisk.lib default) (fun _ _ ↦ True) RamDisk.mounted operations last →
      NamesCurDir RamDisk.lib last := by
  intro h
  have hmkdir := h [.adffs (.mkdir "/Plot/new".toList)]
    (adfimageMkdir RamDisk.lib RamDisk.mounted "/Plot/new".toList).2
    (Run.single trivial ⟨0, rfl⟩)
  revert hmkdir
  decide

end FuseAdf
