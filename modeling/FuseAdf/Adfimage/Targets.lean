import FuseAdf.Adfimage.Lookup
import FuseAdf.Adflib.RamDisk

/-!
# What an operation acts on

The operations that create and remove entries strip the leading slashes of their path, walk from
the root directory and act on the last component of what is left.  The operations on a file or a
link split the path as it is and walk along an absolute directory part.  Here both routes are
shown to name the same directory and the same entry for every absolute path, and to fail together.
-/

namespace FuseAdf

open Adfimage NameWalk

variable {Image File : Type} (L : Adflib Image File)

/-- The operations that create or remove an entry. -/
inductive Mutation
  | mkdir
  | rmdir
  | unlink
  | create
deriving DecidableEq, Repr

/-- The operations that reach an existing file or link through its path. -/
inductive Access
  | read (size offset : BitVec 64)
  | write (buffer : List UInt8) (size offset : BitVec 64)
  | fileOpen (mode : AdfFileMode)
  | readlink (buffer : CStr) (lenMax : ℕ)

/-- The handle after one of the operations that create or remove an entry. -/
def Mutation.run (adfimage : Adfimage Image) (path : CStr) : Mutation → Adfimage Image
  | mkdir => (adfimageMkdir L adfimage path).2
  | rmdir => (adfimageRmdir L adfimage path).2
  | unlink => (adfimageUnlink L adfimage path).2
  | create => (adfimageCreate L adfimage path).2

/-- The handle after one of the operations on an existing file or link. -/
def Access.run (adfimage : Adfimage Image) (path : CStr) : Access → Adfimage Image
  | read size offset => (adfimageRead L adfimage path size offset).2.2
  | write buffer size offset => (adfimageWrite L adfimage path buffer size offset).2
  | fileOpen mode => (adfimageFileOpen L adfimage path mode).2
  | readlink buffer lenMax => (adfimageReadlink L adfimage path buffer lenMax).2.2

/-- The directory step of `adfimage_mkdir`, `adfimage_remove_entry` and `adfimage_create`: the
directory and the name they go on with, or `none` if the directory cannot be entered. -/
def mutationTarget (adfimage : Adfimage Image) (path : CStr) : Option (Sector × CStr) :=
  let pathRelative := pathstrGetRelative path
  match adfimageChdir L adfimage.adfToRootDir (dirname pathRelative) with
  | (false, _) => none
  | (true, adfimage) => some (adfimage.vol.curDirPtr, basename pathRelative)

/-- The directory step of `adfimage_read`, `adfimage_write`, `adfimage_file_open` and
`adfimage_readlink`. -/
def accessTarget (adfimage : Adfimage Image) (path : CStr) : Option (Sector × CStr) :=
  match enterParent L adfimage (pathCreate path) with
  | (_, false, _) => none
  | (_, true, adfimage) => some (adfimage.vol.curDirPtr, (pathCreate path).entryname)

/-- The call by which an operation creates or removes a name in a directory. -/
def Mutation.call (target : Sector × CStr) : Mutation → AdfCall
  | mkdir => .createDir target.1 target.2
  | rmdir => .removeEntry target.1 target.2
  | unlink => .removeEntry target.1 target.2
  | create => .createFile target.1 target.2

/-- The calls by which an operation looks a name up in a directory; reading a link looks at the
block of the directory first. -/
def Access.calls (image : Image) (target : Sector × CStr) : Access → List AdfCall
  | read _ _ => [.fileOpen target.1 target.2 .read]
  | write _ _ _ => [.fileOpen target.1 target.2 .write]
  | fileOpen mode => [.fileOpen target.1 target.2 mode]
  | readlink _ _ =>
      if (L.adfReadEntryBlock image target.1).isSome then [.nameToEntryBlk target.1 target.2]
      else []

theorem mutationTarget_eq (adfimage : Adfimage Image) (path : CStr) :
    mutationTarget L adfimage path =
      (namedDir L adfimage.adfToRootDir (dirname (pathstrGetRelative path))).map
        fun dir ↦ (dir, basename (pathstrGetRelative path)) := by
  have hne := dirname_ne_nil (pathstrGetRelative path)
  have hcur := chdir_curDirPtr L adfimage.adfToRootDir hne
  rw [mutationTarget]
  rw [chdir_eq_pair L adfimage.adfToRootDir hne]
  cases hdir : namedDir L adfimage.adfToRootDir (dirname (pathstrGetRelative path)) with
  | none => rfl
  | some dir =>
    rw [lastDir_of_namedDir L hdir] at hcur
    dsimp only [Option.isSome_some]
    rw [hcur, Option.map_some]

theorem accessTarget_eq (adfimage : Adfimage Image) (path : CStr) :
    accessTarget L adfimage path =
      (namedDir L adfimage (dirname path)).map fun dir ↦ (dir, basename path) := by
  have hcur := chdir_curDirPtr L adfimage (dirname_ne_nil path)
  rw [accessTarget, enterParent_eq, chdir_eq_pair L adfimage (dirname_ne_nil path)]
  cases hdir : namedDir L adfimage (dirname path) with
  | none => rfl
  | some dir =>
    rw [lastDir_of_namedDir L hdir] at hcur
    dsimp only [Option.isSome_some]
    rw [hcur, pathCreate_entryname, Option.map_some]

theorem inParentFromRoot_calls (adfimage : Adfimage Image) {path : CStr} (emptyPath : ℤ)
    (call : Image → Sector → CStr → Image × RetCode) (event : Sector → CStr → AdfCall)
    (result : RetCode → ℤ) (h : pathstrGetRelative path ≠ []) :
    (inParentFromRoot L adfimage path emptyPath call event result).2.calls =
      adfimage.calls ++
        ((mutationTarget L adfimage path).map fun target ↦ event target.1 target.2).toList := by
  rw [inParentFromRoot_eq L adfimage emptyPath call event result h, mutationTarget_eq]
  dsimp only
  cases namedDir L adfimage.adfToRootDir (dirname (pathstrGetRelative path)) <;> simp

/-- Creating and removing call the library once, on the target. -/
theorem mutation_calls (adfimage : Adfimage Image) {path : CStr}
    (h : pathstrGetRelative path ≠ []) (mutation : Mutation) :
    (mutation.run L adfimage path).calls =
      adfimage.calls ++ ((mutationTarget L adfimage path).map mutation.call).toList := by
  cases mutation with
  | mkdir => exact inParentFromRoot_calls L adfimage eExist L.adfCreateDir .createDir id h
  | rmdir => exact inParentFromRoot_calls L adfimage ePerm L.adfRemoveEntry .removeEntry id h
  | unlink => exact inParentFromRoot_calls L adfimage ePerm L.adfRemoveEntry .removeEntry id h
  | create => exact inParentFromRoot_calls L adfimage eInval L.adfCreateFile .createFile _ h

/-- Opening the file names the target, whatever comes of it, and no later call names anything. -/
theorem afterFile_calls (adfimage : Adfimage Image) (path : CStr) (mode : AdfFileMode)
    (after : Image → File → Image) :
    (afterFile L adfimage path mode after).calls =
      adfimage.calls ++
        ((accessTarget L adfimage path).map fun target ↦
          AdfCall.fileOpen target.1 target.2 mode).toList := by
  have hcur := chdir_curDirPtr L adfimage (dirname_ne_nil path)
  rw [afterFile, openInParent_eq, accessTarget_eq]
  cases hdir : namedDir L adfimage (dirname path) with
  | none => simp
  | some dir =>
    rw [lastDir_of_namedDir L hdir] at hcur
    dsimp only
    cases (L.adfFileOpen adfimage.vol.image dir (basename path) mode).2 <;>
    simp [afterOpen, hcur]

theorem readlinkEntry_calls (adfimage : Adfimage Image) (name buffer : CStr) (lenMax : ℕ) :
    (readlinkEntry L adfimage name buffer lenMax).2.2.calls =
      adfimage.calls ++
        (Access.readlink buffer lenMax).calls L adfimage.vol.image
          (adfimage.vol.curDirPtr, name) := by
  rw [readlinkEntry, Access.calls]
  cases L.adfReadEntryBlock adfimage.vol.image adfimage.vol.curDirPtr with
  | none => simp
  | some parent =>
    simp only [Option.isSome_some, if_true, record_vol]
    cases L.adfNameToEntryBlk adfimage.vol.image parent.hashTable name with
    | none => rfl
    | some entry =>
      dsimp only
      split_ifs with hsoft
      · rfl
      · cases L.adfReadEntryBlock adfimage.vol.image entry.realEntry <;> rfl

theorem readlink_calls (adfimage : Adfimage Image) (path buffer : CStr) (lenMax : ℕ) :
    (adfimageReadlink L adfimage path buffer lenMax).2.2.calls =
      adfimage.calls ++ (accessTarget L adfimage path).elim []
        ((Access.readlink buffer lenMax).calls L adfimage.vol.image) := by
  have hcur := chdir_curDirPtr L adfimage (dirname_ne_nil path)
  rw [readlink_eq, accessTarget_eq]
  cases hdir : namedDir L adfimage (dirname path) with
  | none => simp
  | some dir =>
    rw [lastDir_of_namedDir L hdir] at hcur
    simp [readlinkEntry_calls, hcur]

/-- Every operation on an existing file or link goes to the target. -/
theorem access_calls (adfimage : Adfimage Image) (path : CStr) (access : Access) :
    (access.run L adfimage path).calls =
      adfimage.calls ++ (accessTarget L adfimage path).elim []
        (access.calls L adfimage.vol.image) := by
  cases access with
  | read size offset =>
    rw [Access.run, read_snd, afterFile_calls]
    cases accessTarget L adfimage path <;> rfl
  | write buffer size offset =>
    rw [Access.run, write_snd, afterFile_calls]
    cases accessTarget L adfimage path <;> rfl
  | fileOpen mode =>
    rw [Access.run, fileOpen_snd, afterFile_calls]
    cases accessTarget L adfimage path <;> rfl
  | readlink buffer lenMax => exact readlink_calls L adfimage path buffer lenMax

/-! ## The two routes agree -/

/-- A path is the slashes that are stripped and the rest. -/
theorem slashes_append_getRelative (path : CStr) :
    path.takeWhile isSlash ++ pathstrGetRelative path = path :=
  List.takeWhile_append_dropWhile

theorem slashes_of_takeWhile (path : CStr) : ∀ c ∈ path.takeWhile isSlash, c = '/' :=
  fun _ hc ↦ isSlash_iff.mp (List.mem_takeWhile_imp hc)

/-- Leading slashes do not change what is looked up. -/
theorem chdirPieces_slashes_append {lead : CStr} (hlead : ∀ c ∈ lead, c = '/') (path : CStr) :
    chdirPieces (lead ++ path) = chdirPieces path := by
  rw [chdirPieces, chdirPieces, getRelative_slashes_append hlead]

theorem chdirPieces_of_slashes {path : CStr} (h : ∀ c ∈ path, c = '/') : chdirPieces path = [] := by
  have hnone := chdirPieces_slashes_append h []
  rw [List.append_nil] at hnone
  rw [hnone]
  rfl

theorem namedDir_from_root (adfimage : Adfimage Image) (path : CStr) :
    namedDir L adfimage.adfToRootDir path =
      walk (look L adfimage) adfimage.vol.rootBlock (chdirPieces path) := by
  rw [namedDir, chdirStart]
  split_ifs <;> rfl

/-- The directory part of the full path leads along the same names as the directory part of the
path without its leading slashes, and the entry is the same. -/
theorem splits_getRelative {path : CStr} (habs : path.head? = some '/')
    (hname : ∃ c ∈ path, c ≠ '/') :
    chdirPieces (dirname path) = chdirPieces (dirname (pathstrGetRelative path)) ∧
      basename path = basename (pathstrGetRelative path) := by
  have hlead := slashes_of_takeWhile path
  have hpath := slashes_append_getRelative path
  have hhead := head_getRelative path
  have hrel : ∃ c ∈ pathstrGetRelative path, c ≠ '/' := by
    obtain ⟨c, hc, hne⟩ := hname
    rw [← hpath, List.mem_append] at hc
    exact ⟨c, hc.resolve_left fun h ↦ hne (hlead c h), hne⟩
  obtain ⟨dir, name, hsplit⟩ := exists_splits hrel
  have hfull := hsplit.prepend hlead
  rw [hpath] at hfull
  refine ⟨?_, by rw [hfull.basename_eq, hsplit.basename_eq]⟩
  have hne : path.takeWhile isSlash ++ dir ≠ [] := by
    cases path with
    | nil => simp at habs
    | cons c rest =>
      have hc : c = '/' := by simpa using habs
      simp [hc]
  rw [hfull.dirname_eq, hsplit.dirname_eq, if_neg hne]
  split_ifs with hdir
  · -- no directory part is left: the full path still has its slashes there
    subst hdir
    have hslashes : ∀ c ∈ trimDir (path.takeWhile isSlash ++ []), c = '/' :=
      trimDir_of_slashes (by simpa using hlead)
    rw [chdirPieces_of_slashes hslashes]
    rfl
  · have hbody : dir.rdropWhile isSlash ≠ [] := by
      intro hnil
      obtain ⟨trail, htrail, _⟩ := hsplit.eq
      obtain ⟨c, rest, rfl⟩ := List.exists_cons_of_ne_nil hdir
      have hc : c = '/' := isSlash_iff.mp (List.rdropWhile_eq_nil_iff.mp hnil c (by simp))
      apply hhead
      rw [htrail, hc]
      rfl
    rw [trimDir_append _ hbody, chdirPieces_slashes_append hlead]

/-- For every absolute path that names something, creating and removing act on the entry that
opening, reading, writing and reading a link act on, and one family cannot enter the directory
exactly when the other cannot. -/
theorem same_target (adfimage : Adfimage Image) {path : CStr} (habs : path.head? = some '/')
    (hname : ∃ c ∈ path, c ≠ '/') :
    mutationTarget L adfimage path = accessTarget L adfimage path ∧
      (∀ mutation : Mutation, (mutation.run L adfimage path).calls =
        adfimage.calls ++ ((mutationTarget L adfimage path).map mutation.call).toList) ∧
      ∀ access : Access, (access.run L adfimage path).calls =
        adfimage.calls ++ (accessTarget L adfimage path).elim []
          (access.calls L adfimage.vol.image) := by
  obtain ⟨hpieces, hbase⟩ := splits_getRelative habs hname
  have hrel : pathstrGetRelative path ≠ [] := getRelative_ne_nil_iff.mpr hname
  refine ⟨?_, mutation_calls L adfimage hrel, access_calls L adfimage path⟩
  calc
    mutationTarget L adfimage path =
        (walk (look L adfimage) adfimage.vol.rootBlock
          (chdirPieces (dirname (pathstrGetRelative path)))).map
            fun dir ↦ (dir, basename (pathstrGetRelative path)) := by
      rw [mutationTarget_eq, namedDir_from_root]
    _ = (walk (look L adfimage) adfimage.vol.rootBlock (chdirPieces (dirname path))).map
          fun dir ↦ (dir, basename path) := by
      rw [hpieces, hbase]
    _ = accessTarget L adfimage path := by
      rw [accessTarget_eq, namedDir_of_absolute L adfimage (head_dirname habs)]

/-- The directory `Plot` is walked to by both routes from a path with superfluous slashes. -/
theorem same_target_map :
    ("//Plot//map/".toList.head? = some '/' ∧ ∃ c ∈ "//Plot//map/".toList, c ≠ '/') ∧
      mutationTarget RamDisk.lib RamDisk.mounted "//Plot//map/".toList =
        accessTarget RamDisk.lib RamDisk.mounted "//Plot//map/".toList := by
  refine ⟨⟨rfl, 'P', by decide, by decide⟩, ?_⟩
  exact (same_target RamDisk.lib RamDisk.mounted rfl ⟨'P', by decide, by decide⟩).1

end FuseAdf
