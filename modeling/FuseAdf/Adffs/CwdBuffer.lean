import FuseAdf.Adffs.Serving
import FuseAdf.Adffs.WorkingDirectory
import FuseAdf.Adfimage.CwdStrings
import FuseAdf.Adfimage.Restoring

/-!
# The buffer of the working directory over whole runs

Every operation is a list of visits: it enters a directory by a path and possibly goes back to the
string from before.  The functions that create or remove an entry enter theirs behind the old
string, which they do not reset, so that it grows from one call to the next.  `PathsFit` says of a
state and an operation that the directories which its visits enter fit into the buffer.  A run
writes nothing that is too long exactly if all its steps are so.
-/

namespace FuseAdf

open Adfimage NameWalk GuardedRun

variable {Image File : Type} (L : Adflib Image File) (env : Env)

/-- A change of directory along a path, and the handle from which the operation goes back to the
string before it, if it does. -/
structure Visit (Image : Type) where
  adfimage : Adfimage Image
  path : CStr
  back : Option (Adfimage Image)

namespace Visit

/-- The strings that a visit writes. -/
def strings (visit : Visit Image) : List CStr :=
  chdirStrings L visit.adfimage visit.path ++
    match visit.back with
    | none => []
    | some inside => chdirStrings L inside visit.adfimage.cwd

/-- The string that it leaves. -/
def cwd (visit : Visit Image) : CStr :=
  match visit.back with
  | none => (adfimageChdir L visit.adfimage visit.path).2.cwd
  | some inside => (adfimageChdir L inside visit.adfimage.cwd).2.cwd

end Visit

/-- The visits lead from one string to another. -/
def Linked : CStr → List (Visit Image) → CStr → Prop
  | cwd, [], after => after = cwd
  | cwd, visit :: visits, after => visit.adfimage.cwd = cwd ∧ Linked (visit.cwd L) visits after

/-- `adfimage_getdentry`, whose way out with an empty listing does not go back. -/
def getdentryVisits (adfimage : Adfimage Image) (pathname : CStr) : List (Visit Image) :=
  if pathname = ['/'] then []
  else
    let entered := (adfimageChdir L adfimage (dirname pathname)).2
    [{ adfimage := adfimage
       path := dirname pathname
       back := if L.adfGetDirEnt entered.vol.image entered.vol.curDirPtr = [] then none
        else some entered }]

/-- `adfimage_count_dir_entries`. -/
def countDirEntriesVisits (adfimage : Adfimage Image) (dirpath : CStr) : List (Visit Image) :=
  [{ adfimage := adfimage
     path := dirpath
     back := some (adfimageChdir L adfimage dirpath).2 }]

/-- The functions that open a file; `after` is the image when they go back. -/
def fileVisits (adfimage : Adfimage Image) (path : CStr) (mode : AdfFileMode)
    (after : Image → File → Image) : List (Visit Image) :=
  [{ adfimage := adfimage
     path := dirname path
     back := match openInParent L adfimage path mode with
      | .opened file _ opened => some (opened.setImage (after opened.vol.image file))
      | .noDir _ | .noFile _ => none }]

/-- `adfimage_readlink`. -/
def readlinkVisits (adfimage : Adfimage Image) (path buffer : CStr) (lenMax : ℕ) :
    List (Visit Image) :=
  [{ adfimage := adfimage
     path := dirname path
     back := match adfimageChdir L adfimage (dirname path) with
      | (false, _) => none
      | (true, entered) => some (readlinkEntry L entered (basename path) buffer lenMax).2.2 }]

/-- The functions that create or remove an entry. -/
def changeVisits (adfimage : Adfimage Image) (path : CStr) : List (Visit Image) :=
  if pathstrGetRelative path = [] then []
  else
    [{ adfimage := adfimage.adfToRootDir
       path := dirname (pathstrGetRelative path)
       back := none }]

/-- `adfimage_file_rename`; it looks up the second directory if the first is one. -/
def renameVisits (fuel : ℕ) (adfimage : Adfimage Image) (srcPath dstPath : CStr) :
    List (Visit Image) :=
  match pathstrFuse2amigados fuel (dirname srcPath),
    pathstrFuse2amigados fuel (dirname dstPath) with
  | some srcDirpath, some dstDirpath =>
      getdentryVisits L adfimage srcDirpath ++
        match checkParent (adfimageGetdentry L adfimage srcDirpath).1 with
        | some _ => []
        | none => getdentryVisits L (adfimageGetdentry L adfimage srcDirpath).2 dstDirpath
  | _, _ => []

/-- `adffs_getattr`, which enters the directory part, looks up the name there and counts the entries
of a directory by its whole path. -/
def getattrVisits (adfimage : Adfimage Image) (path : CStr) : List (Visit Image) :=
  if pathstrGetRelative path = [] then []
  else
    { adfimage := adfimage, path := dirname path, back := none } ::
      match adfimageChdir L adfimage (dirname path) with
      | (false, _) => []
      | (true, entered) =>
          let found := adfimageGetdentry L entered (basename path)
          getdentryVisits L entered (basename path) ++
            match found.1.type with
            | .directory | .linkdir => countDirEntriesVisits L found.2 path
            | _ => []

/-- The visits of an adfimage function. -/
def AdfimageCall.visits (fuel : ℕ) (adfimage : Adfimage Image) :
    AdfimageCall File → List (Visit Image)
  | countCwdEntries | getRootDentry | getcwd | fileClose _ => []
  | countDirEntries dirpath => countDirEntriesVisits L adfimage dirpath
  | getdentry path | setperm path _ => getdentryVisits L adfimage path
  | chdir path => [{ adfimage := adfimage, path := path, back := none }]
  | fileOpen path mode => fileVisits L adfimage path mode fun image _ ↦ image
  | fileTruncate path _ => fileVisits L adfimage path .write fun image _ ↦ image
  | read path size offset => fileVisits L adfimage path .read (imageAfterRead L size offset)
  | write path buffer size offset =>
      fileVisits L adfimage path .write (imageAfterWrite L buffer size offset)
  | readlink path buffer lenMax => readlinkVisits L adfimage path buffer lenMax
  | mkdir path | rmdir path | create path | unlink path => changeVisits adfimage path
  | fileRename srcPath dstPath => renameVisits L fuel adfimage srcPath dstPath

/-- The visits of a callback. -/
def Callback.visits (fuel : ℕ) (adfimage : Adfimage Image) : Callback → List (Visit Image)
  | getattr path => getattrVisits L adfimage path
  | readlink path buf len => readlinkVisits L adfimage path buf len
  | mkdir path | unlink path | rmdir path | create path => changeVisits adfimage path
  | rename srcPath dstPath => renameVisits L fuel adfimage srcPath dstPath
  | chmod path _ => getdentryVisits L adfimage path
  | truncate path _ => fileVisits L adfimage path .write fun image _ ↦ image
  | «open» path => fileVisits L adfimage path .read fun image _ ↦ image
  | read path size offset => fileVisits L adfimage path .read (imageAfterRead L size offset)
  | write path buffer size offset =>
      fileVisits L adfimage path .write (imageAfterWrite L buffer size offset)
  | readdir path _ => [{ adfimage := adfimage, path := path, back := none }]
  | chown _ | statfs _ | utimens _ => []

def Operation.visits (fuel : ℕ) (adfimage : Adfimage Image) :
    Operation File → List (Visit Image)
  | .adffs callback => callback.visits L fuel adfimage
  | .adfimage call => call.visits L fuel adfimage

/-- Everything that the operation writes into `cwd` fits with its NUL. -/
def BuildsShort (adfimage : Adfimage Image) (operation : Operation File) : Prop :=
  ∀ fuel, ∀ visit ∈ operation.visits L fuel adfimage, ∀ string ∈ visit.strings L,
    string.length < adfimageMaxPath

/-- The directories of the paths that the operation enters fit. -/
def PathsFit (adfimage : Adfimage Image) (operation : Operation File) : Prop :=
  ∀ fuel, ∀ visit ∈ operation.visits L fuel adfimage, FitsCwd L visit.adfimage visit.path

variable {L}

theorem Linked.append {start middle last : CStr} {front back : List (Visit Image)}
    (hfront : Linked L start front middle) (hback : Linked L middle back last) :
    Linked L start (front ++ back) last := by
  induction front generalizing start with
  | nil =>
    rw [hfront] at hback
    exact hback
  | cons visit front ih => exact ⟨hfront.1, ih hfront.2⟩

theorem linked_getdentry (adfimage : Adfimage Image) (pathname : CStr) :
    Linked L adfimage.cwd (getdentryVisits L adfimage pathname)
      (adfimageGetdentry L adfimage pathname).2.cwd := by
  unfold getdentryVisits
  split_ifs with hroot
  · subst hroot
    rfl
  · rw [getdentry_eq L adfimage hroot]
    simp only [chdir_image, chdir_curDirPtr L adfimage (dirname_ne_nil pathname)]
    refine ⟨rfl, ?_⟩
    unfold Visit.cwd
    split_ifs <;> rfl

theorem linked_afterFile (adfimage : Adfimage Image) (path : CStr) (mode : AdfFileMode)
    (after : Image → File → Image) :
    Linked L adfimage.cwd (fileVisits L adfimage path mode after)
      (afterFile L adfimage path mode after).cwd := by
  refine ⟨rfl, ?_⟩
  unfold Visit.cwd afterFile
  rw [openInParent_eq]
  cases namedDir L adfimage (dirname path) with
  | none => rfl
  | some dir =>
    dsimp only
    cases (L.adfFileOpen adfimage.vol.image dir (basename path) mode).2 with
    | none => rfl
    | some file => rfl

theorem linked_fileOpen (adfimage : Adfimage Image) (path : CStr) (mode : AdfFileMode) :
    Linked L adfimage.cwd (fileVisits L adfimage path mode fun image _ ↦ image)
      (adfimageFileOpen L adfimage path mode).2.cwd := by
  rw [fileOpen_snd]
  exact linked_afterFile adfimage path mode _

theorem linked_read (adfimage : Adfimage Image) (path : CStr) (size offset : BitVec 64) :
    Linked L adfimage.cwd (fileVisits L adfimage path .read (imageAfterRead L size offset))
      (adfimageRead L adfimage path size offset).2.2.cwd := by
  rw [read_snd]
  exact linked_afterFile adfimage path .read _

theorem linked_write (adfimage : Adfimage Image) (path : CStr) (buffer : List UInt8)
    (size offset : BitVec 64) :
    Linked L adfimage.cwd (fileVisits L adfimage path .write (imageAfterWrite L buffer size offset))
      (adfimageWrite L adfimage path buffer size offset).2.cwd := by
  rw [write_snd]
  exact linked_afterFile adfimage path .write _

theorem fileClose_cwd (adfimage : Adfimage Image) (file : Option File) :
    (adfimageFileClose L adfimage file).cwd = adfimage.cwd := by
  cases file <;> rfl

theorem linked_readlink (adfimage : Adfimage Image) (path buffer : CStr) (lenMax : ℕ) :
    Linked L adfimage.cwd (readlinkVisits L adfimage path buffer lenMax)
      (adfimageReadlink L adfimage path buffer lenMax).2.2.cwd := by
  refine ⟨rfl, ?_⟩
  unfold Visit.cwd
  rw [adfimageReadlink]
  simp only [enterParent_eq]
  rcases adfimageChdir L adfimage (dirname path) with ⟨entered, walked⟩
  cases entered <;> rfl

theorem linked_change (adfimage : Adfimage Image) (path : CStr) (emptyPath : ℤ)
    (call : Image → Sector → CStr → Image × RetCode) (event : Sector → CStr → AdfCall)
    (result : RetCode → ℤ) :
    Linked L adfimage.cwd (changeVisits adfimage path)
      (inParentFromRoot L adfimage path emptyPath call event result).2.cwd := by
  unfold changeVisits
  split_ifs with hrel
  · rw [inParentFromRoot_of_root L adfimage _ _ _ _ hrel]
    rfl
  · rw [inParentFromRoot_eq L adfimage _ _ _ _ hrel]
    refine ⟨rfl, ?_⟩
    dsimp only
    cases namedDir L adfimage.adfToRootDir (dirname (pathstrGetRelative path)) <;> rfl

theorem linked_renameConverted (adfimage : Adfimage Image) (srcPath dstPath : Path) :
    Linked L adfimage.cwd
      (getdentryVisits L adfimage srcPath.dirpath ++
        match checkParent (adfimageGetdentry L adfimage srcPath.dirpath).1 with
        | some _ => []
        | none =>
            getdentryVisits L (adfimageGetdentry L adfimage srcPath.dirpath).2 dstPath.dirpath)
      (renameConverted L adfimage srcPath dstPath).2.cwd := by
  have hsrc := linked_getdentry (L := L) adfimage srcPath.dirpath
  unfold renameConverted
  generalize adfimageGetdentry L adfimage srcPath.dirpath = found at hsrc ⊢
  apply hsrc.append
  dsimp only
  cases checkParent found.1 with
  | some error => rfl
  | none =>
    have hdst := linked_getdentry (L := L) found.2 dstPath.dirpath
    dsimp only
    generalize adfimageGetdentry L found.2 dstPath.dirpath = found' at hdst ⊢
    cases checkParent found'.1 with
    | some error => exact hdst
    | none =>
      dsimp only
      split_ifs <;> exact hdst

/-- A renaming that has not converted its paths has not entered a directory yet. -/
theorem linked_rename (fuel : ℕ) (adfimage : Adfimage Image) (srcPath dstPath : CStr) :
    Linked L adfimage.cwd (renameVisits L fuel adfimage srcPath dstPath)
      (((adfimageFileRename L fuel adfimage srcPath dstPath).map Prod.snd).getD adfimage).cwd := by
  rw [fileRename_eq, renameVisits]
  cases pathstrFuse2amigados fuel (dirname srcPath) with
  | none => rfl
  | some srcDirpath =>
    cases pathstrFuse2amigados fuel (dirname dstPath) with
    | none => rfl
    | some dstDirpath =>
      exact linked_renameConverted adfimage { pathCreate srcPath with dirpath := srcDirpath }
        { pathCreate dstPath with dirpath := dstDirpath }

theorem linked_getattr (adfimage : Adfimage Image) (path : CStr) :
    Linked L adfimage.cwd (getattrVisits L adfimage path)
      (adffsGetattr L env adfimage path).2.2.cwd := by
  unfold getattrVisits
  split_ifs with hrel
  · rw [getattr_root L env adfimage hrel]
    rfl
  · refine ⟨rfl, ?_⟩
    unfold Visit.cwd
    rw [getattr_eq L env adfimage hrel, chdir_eq_pair L adfimage (dirname_ne_nil path)]
    cases namedDir L adfimage (dirname path) with
    | none => rfl
    | some dir =>
      generalize (adfimageChdir L adfimage (dirname path)).2 = walked
      have hfound := linked_getdentry (L := L) walked (basename path)
      dsimp only [Option.isSome_some]
      generalize adfimageGetdentry L walked (basename path) = found at hfound ⊢
      apply hfound.append
      unfold statFound statEntry
      cases found.1.type with
      | file =>
        dsimp only
        exact statFile_cwd found.2 (basename path) _
      | linkfile =>
        dsimp only
        exact statFile_cwd found.2 (basename path) _
      | directory => exact ⟨rfl, rfl⟩
      | linkdir => exact ⟨rfl, rfl⟩
      | softlink => rfl
      | unknown => rfl
      | none => rfl

theorem readdir_cwd (adfimage : Adfimage Image) (path : CStr)
    (filler : List CStr → CStr → Bool) :
    (adffsReaddir L adfimage path filler).2.2.cwd = (adfimageChdir L adfimage path).2.cwd := by
  rw [adffsReaddir]
  rcases adfimageChdir L adfimage path with ⟨entered, walked⟩
  cases entered with
  | false => rfl
  | true =>
    dsimp only
    split <;> rfl

theorem linked_setperm (adfimage : Adfimage Image) (path : CStr) (perms : BitVec 32) :
    Linked L adfimage.cwd (getdentryVisits L adfimage path)
      (adfimageSetperm L adfimage path perms).2.cwd := by
  rw [(setperm_unmoved adfimage path perms).1]
  exact linked_getdentry adfimage path

theorem linked_truncate (adfimage : Adfimage Image) (path : CStr) (newSize : BitVec 64) :
    Linked L adfimage.cwd (fileVisits L adfimage path .write fun image _ ↦ image)
      (adfimageFileTruncate L adfimage path newSize).2.cwd := by
  rw [(fileTruncate_unmoved adfimage path newSize).1]
  exact linked_fileOpen adfimage path .write

theorem linked_callback (fuel : ℕ) (adfimage : Adfimage Image) (callback : Callback) :
    Linked L adfimage.cwd (callback.visits L fuel adfimage)
      (((callback.run L env fuel adfimage).map Prod.snd).getD adfimage).cwd := by
  cases callback with
  | getattr path => exact linked_getattr env adfimage path
  | readlink path buf len => exact linked_readlink adfimage path buf len
  | mkdir path => exact linked_change adfimage path _ _ _ _
  | unlink path => exact linked_change adfimage path _ _ _ _
  | rmdir path => exact linked_change adfimage path _ _ _ _
  | rename srcPath dstPath =>
    have hrename := linked_rename (L := L) fuel adfimage srcPath dstPath
    rw [Callback.run, Option.map_map]
    exact hrename
  | chmod path mode =>
    have hsetperm := linked_setperm (L := L) adfimage path (chmodPerms mode)
    change Linked L adfimage.cwd _ (adffsChmod L adfimage path mode).2.cwd
    rw [adffsChmod]
    generalize adfimageSetperm L adfimage path (chmodPerms mode) = result at hsetperm ⊢
    rcases result with ⟨done, after⟩
    cases done <;> exact hsetperm
  | chown path => rfl
  | truncate path newSize => exact linked_truncate adfimage path newSize
  | «open» path =>
    change Linked L adfimage.cwd _ (adfimageFileClose L _ _).cwd
    rw [fileClose_cwd]
    exact linked_fileOpen adfimage path .read
  | read path size offset => exact linked_read adfimage path size offset
  | write path buffer size offset => exact linked_write adfimage path buffer size offset
  | statfs path => rfl
  | readdir path filler => exact ⟨rfl, readdir_cwd adfimage path filler⟩
  | create path =>
    have hcreate : Linked L adfimage.cwd (changeVisits adfimage path)
        (adfimageCreate L adfimage path).2.cwd := linked_change adfimage path _ _ _ _
    exact hcreate
  | utimens path => rfl

theorem linked_adfimageCall (fuel : ℕ) (adfimage : Adfimage Image) (call : AdfimageCall File) :
    Linked L adfimage.cwd (call.visits L fuel adfimage)
      ((call.run L fuel adfimage).getD adfimage).cwd := by
  cases call with
  | countCwdEntries => rfl
  | countDirEntries dirpath => exact ⟨rfl, rfl⟩
  | getRootDentry => rfl
  | getdentry path => exact linked_getdentry adfimage path
  | setperm path perms => exact linked_setperm adfimage path perms
  | getcwd => rfl
  | chdir path => exact ⟨rfl, rfl⟩
  | fileOpen path mode => exact linked_fileOpen adfimage path mode
  | fileClose file => exact fileClose_cwd adfimage file
  | read path size offset => exact linked_read adfimage path size offset
  | write path buffer size offset => exact linked_write adfimage path buffer size offset
  | readlink path buffer lenMax => exact linked_readlink adfimage path buffer lenMax
  | mkdir path => exact linked_change adfimage path _ _ _ _
  | rmdir path => exact linked_change adfimage path _ _ _ _
  | create path => exact linked_change adfimage path _ _ _ _
  | unlink path => exact linked_change adfimage path _ _ _ _
  | fileTruncate path newSize => exact linked_truncate adfimage path newSize
  | fileRename srcPath dstPath => exact linked_rename fuel adfimage srcPath dstPath

theorem linked_operation (fuel : ℕ) (adfimage : Adfimage Image) (operation : Operation File) :
    Linked L adfimage.cwd (operation.visits L fuel adfimage)
      ((operation.run L env fuel adfimage).getD adfimage).cwd := by
  cases operation with
  | adffs callback => exact linked_callback env fuel adfimage callback
  | adfimage call => exact linked_adfimageCall fuel adfimage call

theorem Visit.inBuffer {visit : Visit Image} (h : InBuffer visit.adfimage.cwd)
    (hfits : FitsCwd L visit.adfimage visit.path) :
    (∀ string ∈ visit.strings L, InBuffer string) ∧ InBuffer (visit.cwd L) := by
  unfold Visit.strings Visit.cwd
  cases visit.back with
  | none =>
    rw [List.append_nil]
    exact ⟨h.of_enter hfits, h.chdir hfits⟩
  | some inside =>
    refine ⟨fun string hstring ↦ ?_, h.chdir_back inside⟩
    rcases List.mem_append.mp hstring with henter | hback
    · exact h.of_enter hfits string henter
    · exact h.of_back inside string hback

theorem Linked.inBuffer {start last : CStr} {visits : List (Visit Image)}
    (h : Linked L start visits last) (hstart : InBuffer start)
    (hfits : ∀ visit ∈ visits, FitsCwd L visit.adfimage visit.path) :
    (∀ visit ∈ visits, ∀ string ∈ visit.strings L, InBuffer string) ∧ InBuffer last := by
  induction visits generalizing start with
  | nil =>
    obtain rfl : last = start := h
    exact ⟨fun visit hvisit ↦ absurd hvisit List.not_mem_nil, hstart⟩
  | cons visit visits ih =>
    obtain ⟨rfl, hrest⟩ := h
    have hvisit := Visit.inBuffer hstart (hfits visit List.mem_cons_self)
    have hvisits := ih hrest hvisit.2 fun other hother ↦
      hfits other (List.mem_cons_of_mem _ hother)
    refine ⟨?_, hvisits.2⟩
    intro other hother
    rcases List.mem_cons.mp hother with rfl | hother
    · exact hvisit.1
    · exact hvisits.1 other hother

theorem InBuffer.step {before after : Adfimage Image} (h : InBuffer before.cwd)
    {operation : Operation File} (hfit : PathsFit L before operation)
    (hstep : operation.Step L env before after) : InBuffer after.cwd := by
  obtain ⟨fuel, hrun⟩ := hstep
  have hlinked := linked_operation (L := L) env fuel before operation
  rw [hrun] at hlinked
  exact (hlinked.inBuffer h (hfit fuel)).2

/-- Nothing that an operation writes is too long if the directories of its paths fit. -/
theorem PathsFit.buildsShort {adfimage : Adfimage Image} {operation : Operation File}
    (hfit : PathsFit L adfimage operation) (h : InBuffer adfimage.cwd) :
    BuildsShort L adfimage operation := by
  intro fuel visit hvisit string hstring
  have hlinked := linked_operation (L := L) default fuel adfimage operation
  exact ((hlinked.inBuffer h (hfit fuel)).1 visit hvisit string hstring).short

theorem BuildsShort.pathsFit {adfimage : Adfimage Image} {operation : Operation File}
    (hshort : BuildsShort L adfimage operation) : PathsFit L adfimage operation := by
  intro fuel visit hvisit
  apply (fitsCwd_iff visit.adfimage visit.path).mp
  intro string hstring
  exact hshort fuel visit hvisit string (List.mem_append_left _ hstring)

/-! ## Whole runs -/

theorem inBuffer_of_run {start last : Adfimage Image} {operations : List (Operation File)}
    (hcwd : start.cwd = ['/'])
    (hrun : Run (Operation.Step L env) (PathsFit L) start operations last) :
    InBuffer last.cwd := by
  apply hrun.invariant
  · intro before operation after hbefore hfit hstep
    exact InBuffer.step env hbefore hfit hstep
  · rw [hcwd]
    exact inBuffer_root

theorem pathsFit_of_run {start last : Adfimage Image} {operations : List (Operation File)}
    (hrun : Run (Operation.Step L env) (BuildsShort L) start operations last) :
    Run (Operation.Step L env) (PathsFit L) start operations last :=
  hrun.mono fun _ _ hshort ↦ hshort.pathsFit

theorem buildsShort_of_run {start last : Adfimage Image} {operations : List (Operation File)}
    (hcwd : start.cwd = ['/'])
    (hrun : Run (Operation.Step L env) (PathsFit L) start operations last) :
    Run (Operation.Step L env) (BuildsShort L) start operations last := by
  apply hrun.weaken fun adfimage ↦ InBuffer adfimage.cwd
  · exact fun _ _ _ hbefore hfit hstep ↦ InBuffer.step env hbefore hfit hstep
  · exact fun _ _ hstate hfit ↦ hfit.buildsShort hstate
  · rw [hcwd]
    exact inBuffer_root

/-- The runs from the state after mounting that write nothing too long are those in which the
directories of all paths fit, and the string stays short in them. -/
theorem buildsShort_run_iff {start last : Adfimage Image} {operations : List (Operation File)}
    (hcwd : start.cwd = ['/']) :
    (Run (Operation.Step L env) (BuildsShort L) start operations last ↔
      Run (Operation.Step L env) (PathsFit L) start operations last) ∧
    (Run (Operation.Step L env) (PathsFit L) start operations last →
      last.cwd.length < adfimageMaxPath) :=
  ⟨⟨pathsFit_of_run env, buildsShort_of_run env hcwd⟩,
    fun hrun ↦ (inBuffer_of_run env hcwd hrun).short⟩

theorem buildsShort_run_plot :
    Run (Operation.Step RamDisk.lib default) (BuildsShort RamDisk.lib) RamDisk.mounted
      [.adfimage (.chdir "/Plot".toList)]
      (adfimageChdir RamDisk.lib RamDisk.mounted "/Plot".toList).2 := by
  have hfit : PathsFit RamDisk.lib RamDisk.mounted
      (.adfimage (.chdir "/Plot".toList) : Operation RamFile) := by
    intro fuel visit hvisit
    obtain rfl := List.mem_singleton.mp hvisit
    unfold FitsCwd
    decide
  exact (buildsShort_run_iff default rfl).1.mpr (Run.single hfit ⟨0, rfl⟩)

/-- Where the directories of all paths fit, the string names the current directory under the conditions
for this, and it has never been too long for its array. -/
theorem namesCurDir_within_buffer (hL : L.Directories) {start last : Adfimage Image}
    {operations : List (Operation File)} (hcwd : start.cwd = ['/'])
    (hcur : start.vol.curDirPtr = start.vol.rootBlock)
    (hrun : Run (Operation.Step L env)
      (fun adfimage operation ↦ KeepsStep L adfimage operation ∧ PathsFit L adfimage operation)
      start operations last) :
    NamesCurDir L last ∧ Run (Operation.Step L env) (BuildsShort L) start operations last := by
  have hkeeps : Run (Operation.Step L env) (KeepsStep L) start operations last :=
    hrun.mono fun _ _ hmeets ↦ hmeets.1
  have hfits : Run (Operation.Step L env) (PathsFit L) start operations last :=
    hrun.mono fun _ _ hmeets ↦ hmeets.2
  exact ⟨(inSync_of_run hL hcwd hcur hkeeps).namesCurDir, buildsShort_of_run env hcwd hfits⟩

/-- The callbacks of a run, without their replies. -/
theorem steps_of_returns {start last : Adfimage Image} {exchanges : List (Callback × Reply)}
    (hrun : Run (Callback.Returns L env)
      (fun adfimage exchange ↦ PathsFit L adfimage (.adffs exchange.1)) start exchanges last) :
    Run (Operation.Step L env) (PathsFit L) start
      (exchanges.map fun exchange ↦ .adffs exchange.1) last := by
  induction hrun with
  | nil => exact Run.nil _
  | snoc _ hfits hlast ih =>
    obtain ⟨fuel, hreturns⟩ := hlast
    rw [List.map_append, List.map_singleton]
    refine Run.snoc ih hfits ⟨fuel, ?_⟩
    rw [Operation.run, hreturns]
    rfl

/-- Where the directories of all paths fit, the replies are the server's, and the string has never been
too long for its array. -/
theorem serves_within_buffer {start last : Adfimage Image} {exchanges : List (Callback × Reply)}
    (hcwd : start.cwd = ['/'])
    (hrun : Run (Callback.Returns L env)
      (fun adfimage exchange ↦
        exchange.1.FromFuse ∧ PathsFit L adfimage (.adffs exchange.1)) start exchanges last) :
    Run (start.mount.Serves L env) (fun _ exchange ↦ exchange.1.FromFuse) start.vol.image exchanges
      last.vol.image ∧
    Run (Operation.Step L env) (BuildsShort L) start
      (exchanges.map fun exchange ↦ .adffs exchange.1) last := by
  have hfuse : Run (Callback.Returns L env) (fun _ exchange ↦ exchange.1.FromFuse) start exchanges
      last :=
    hrun.mono fun _ _ hmeets ↦ hmeets.1
  have hfits : Run (Callback.Returns L env)
      (fun adfimage exchange ↦ PathsFit L adfimage (.adffs exchange.1)) start exchanges last :=
    hrun.mono fun _ _ hmeets ↦ hmeets.2
  exact ⟨(serves_of_returns (fun _ hmeets ↦ hmeets) hfuse).1,
    buildsShort_of_run env hcwd (steps_of_returns env hfits)⟩

/-- What is known of the state after this many failing removals of `/Plot/none`. -/
structure Unlinked (count : ℕ) (adfimage : Adfimage RamDisk) : Prop where
  image : adfimage.vol.image = RamDisk.mounted.vol.image
  rootBlock : adfimage.vol.rootBlock = RamDisk.mounted.vol.rootBlock
  long : 5 * count ≤ adfimage.cwd.length

/-- Each call appends the name of the directory to the string once more. -/
theorem Unlinked.succ {count : ℕ} {adfimage : Adfimage RamDisk} (h : Unlinked count adfimage) :
    Unlinked (count + 1) (adfimageUnlink RamDisk.lib adfimage "/Plot/none".toList).2 := by
  have hlook : look RamDisk.lib adfimage.adfToRootDir = look RamDisk.lib RamDisk.mounted :=
    congrArg RamDisk.lib.adfChangeDir h.image
  have hstart : startDir adfimage.adfToRootDir "Plot".toList = RamDisk.mounted.vol.rootBlock :=
    h.rootBlock
  have hdir : namedDir RamDisk.lib adfimage.adfToRootDir "Plot".toList = some 882 := by
    rw [namedDir, chdirStart_curDirPtr, hstart, hlook]
    decide
  have hcwd : (adfimageChdir RamDisk.lib adfimage.adfToRootDir "Plot".toList).2.cwd =
      joinDir adfimage.cwd "Plot".toList := by
    have hwalked : walked (look RamDisk.lib RamDisk.mounted) RamDisk.mounted.vol.rootBlock
        (chdirPieces "Plot".toList) = ["Plot".toList] := by
      decide
    rw [chdir_cwd_eq_foldl RamDisk.lib _ (by decide), hstart, hlook, hwalked]
    rfl
  have hparent : dirname (pathstrGetRelative "/Plot/none".toList) = "Plot".toList := by decide
  have hname : basename (pathstrGetRelative "/Plot/none".toList) = "none".toList := by decide
  unfold adfimageUnlink adfimageRemoveEntry
  rw [inParentFromRoot_eq RamDisk.lib adfimage _ _ _ _ (by decide)]
  dsimp only
  rw [hparent, hname, hdir]
  refine ⟨?_, ?_, ?_⟩
  · change (RamDisk.removeEntry adfimage.vol.image 882 "none".toList).1 = _
    rw [h.image]
    rfl
  · change (adfimageChdir RamDisk.lib adfimage.adfToRootDir "Plot".toList).2.vol.rootBlock = _
    rw [chdir_rootBlock]
    exact h.rootBlock
  · change _ ≤ (adfimageChdir RamDisk.lib adfimage.adfToRootDir "Plot".toList).2.cwd.length
    have hlong := h.long
    rw [hcwd, length_joinDir]
    split_ifs with hroot
    · rw [hroot, List.length_singleton] at hlong
      change _ ≤ 0 + (4 + 1)
      omega
    · change _ ≤ _ + (4 + 1)
      omega

theorem unlinked_run (count : ℕ) :
    ∃ last, Unlinked count last ∧
      Run (Operation.Step RamDisk.lib default) (fun _ _ ↦ True) RamDisk.mounted
        (List.replicate count (.adfimage (.unlink "/Plot/none".toList) : Operation RamFile))
        last := by
  induction count with
  | zero => exact ⟨RamDisk.mounted, ⟨rfl, rfl, Nat.zero_le _⟩, Run.nil _⟩
  | succ count ih =>
    obtain ⟨middle, hmiddle, hrun⟩ := ih
    refine ⟨_, hmiddle.succ, ?_⟩
    rw [List.replicate_succ']
    exact Run.snoc hrun trivial ⟨0, rfl⟩

/-- After enough calls that fail in `/Plot`, the string is longer than the buffer. -/
theorem not_buildsShort_run_unlink :
    ¬ ∀ (operations : List (Operation RamFile)) (last : Adfimage RamDisk),
      Run (Operation.Step RamDisk.lib default) (fun _ _ ↦ True) RamDisk.mounted operations last →
      Run (Operation.Step RamDisk.lib default) (BuildsShort RamDisk.lib) RamDisk.mounted
        operations last := by
  intro h
  obtain ⟨last, hlast, hrun⟩ := unlinked_run 205
  have hfit := pathsFit_of_run default (h _ last hrun)
  have hshort : last.cwd.length < adfimageMaxPath := (inBuffer_of_run default rfl hfit).short
  have hlong := hlast.long
  unfold adfimageMaxPath at hshort
  omega

end FuseAdf
