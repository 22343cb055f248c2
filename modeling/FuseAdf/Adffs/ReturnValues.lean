import FuseAdf.Adffs.Permissions
import FuseAdf.Adffs.Transfer
import FuseAdf.Adfimage.Resolution
import FuseAdf.Adfimage.Targets

/-!
# Return values of the callbacks

FUSE expects 0 for an operation that was carried out and a negative error number for one that was
not.  Eleven callbacks return nothing but such a status.  They get it from library codes, of which 0
is the only success and any other integer a failure, from booleans and from error numbers.
`adffs_chmod` returns its error number without the sign, and creating a directory and removing an
entry pass the library's code on as it is.  Some others return 0 although they have done something
else than what was asked for, or although a call whose result they report has failed.
-/

namespace FuseAdf

open Adfimage NameWalk

variable {Image File : Type} (L : Adflib Image File) (env : Env)

/-- The callbacks that return only a status. -/
def Callback.ReturnsStatus : Callback → Bool
  | .getattr _ | .readlink _ _ _ | .mkdir _ | .unlink _ | .rmdir _ | .rename _ _ | .chmod _ _
  | .truncate _ _ | .open _ | .create _ | .readdir _ _ => true
  | _ => false

/-- A negative error number. -/
def IsErrno (ret : ℤ) : Prop := -4095 ≤ ret ∧ ret ≤ -1

instance (ret : ℤ) : Decidable (IsErrno ret) := inferInstanceAs (Decidable (_ ∧ _))

/-- A status that says truthfully whether something was done. -/
def Answers (ret : ℤ) (done : Prop) : Prop := (ret = 0 ∧ done) ∨ IsErrno ret

section CarriedOut

variable (adfimage : Adfimage Image) (path : CStr)

/-- The entry that a path names: the one with its last component's name in the directory that the
rest of it names. -/
def namedEntry : Option AdfEntry :=
  (namedDir L adfimage (dirname path)).bind fun dir ↦
    adflibListFind (basename path) (L.adfGetDirEnt adfimage.vol.image dir)

/-- The handle after `adffs_getattr` has looked up its entry. -/
def lookedUp : Adfimage Image :=
  (adfimageGetdentry L (adfimageChdir L adfimage (dirname path)).2 (basename path)).2

/-- The size of an entry of this type in a directory can be found out: a file is opened for it, and of a
directory the entries are listed.  An entry of an unknown type has none, and no mode. -/
def SizeRead (dir : Sector) (type : AdfSecType) : Prop :=
  match dentryType type with
  | .file | .linkfile => (lookedUp L adfimage path).vol.curDirPtr = dir ∧
      (L.adfFileOpen adfimage.vol.image dir (basename path) .read).2.isSome
  | .directory | .linkdir => ∃ target,
      L.adfChangeDir adfimage.vol.image dir (basename path) = some target ∧
        namedDir L (lookedUp L adfimage path) path = some target ∧
        (L.dirEntries adfimage.vol.image target).isSome
  | .softlink => True
  | .unknown | .none => False

/-- The root block is read, and the entries that are counted are those of the root. -/
def RootRead : Prop :=
  (adfimageGetRootDentry L adfimage).type = .directory ∧
    adfimage.vol.curDirPtr = adfimage.vol.rootBlock ∧
    (L.dirEntries adfimage.vol.image adfimage.vol.rootBlock).isSome

/-- The entry is found, and everything that is reported about it. -/
def AttributesRead : Prop :=
  if pathstrGetRelative path = [] then RootRead L adfimage
  else ∃ dir entry, namedDir L adfimage (dirname path) = some dir ∧
    adflibListFind (basename path) (L.adfGetDirEnt adfimage.vol.image dir) = some entry ∧
    SizeRead L adfimage path dir entry.type

/-- The entry block that the library's lookup gives for a path. -/
def LinkBlock (entry : AdfEntryBlock) : Prop :=
  ∃ dir parent, namedDir L adfimage (dirname path) = some dir ∧
    L.adfReadEntryBlock adfimage.vol.image dir = some parent ∧
    L.adfNameToEntryBlk adfimage.vol.image parent.hashTable (basename path) = some entry

/-- The path leads to a link and the block that the link's text is taken from is read. -/
def LinkRead : Prop :=
  ∃ entry, LinkBlock L adfimage path entry ∧
    (entry.secType = .lsoft ∨ (entry.secType = .lfile ∨ entry.secType = .ldir) ∧
      (L.adfReadEntryBlock adfimage.vol.image entry.realEntry).isSome)

/-- The directory in which an entry is created or removed. -/
def entryDir : Option Sector :=
  if pathstrGetRelative path = [] then none
  else namedDir L adfimage.adfToRootDir (dirname (pathstrGetRelative path))

/-- The library's code for a call that creates or removes the entry, if there is a directory to do
it in. -/
def entryStatus (call : Image → Sector → CStr → Image × RetCode) : Option RetCode :=
  (entryDir L adfimage path).map fun dir ↦
    (call adfimage.vol.image dir (basename (pathstrGetRelative path))).2

/-- The library was asked to create or remove the entry, and has done so. -/
def EntryChanged (after : Adfimage Image) (call : Image → Sector → CStr → Image × RetCode)
    (event : Sector → CStr → AdfCall) : Prop :=
  ∃ dir, entryDir L adfimage path = some dir ∧
    after.calls = adfimage.calls ++ [event dir (basename (pathstrGetRelative path))] ∧
    (call adfimage.vol.image dir (basename (pathstrGetRelative path))).2 = adfRcOk

/-- The library was asked to rename the entry that the one path names, in its directory, to the
name that the other path gives in its own, and has done so. -/
def Renamed (after : Adfimage Image) (srcPath dstPath : CStr) : Prop :=
  ∃ srcDir dstDir, namedDir L adfimage (dirname srcPath) = some srcDir ∧
    namedDir L adfimage (dirname dstPath) = some dstDir ∧
    after.calls = adfimage.calls ++
      [.renameEntry srcDir (basename srcPath) dstDir (basename dstPath)] ∧
    (L.adfRenameEntry adfimage.vol.image srcDir (basename srcPath) dstDir
      (basename dstPath)).2 = adfRcOk

/-- The block of the entry that the path names was written back with an access word that grants
what the mode asks for, and so does the entry as it is listed afterwards.  The root has no access
word. -/
def PermsWritten (after : Adfimage Image) (mode : BitVec 32) : Prop :=
  path ≠ ['/'] ∧ ∃ dir entry block access, namedDir L adfimage (dirname path) = some dir ∧
    adflibListFind (basename path) (L.adfGetDirEnt adfimage.vol.image dir) = some entry ∧
    L.adfReadEntryBlock adfimage.vol.image entry.sector = some block ∧
    after.calls = adfimage.calls ++
      [.writeEntryBlock entry.sector { block with access := access }] ∧
    (L.adfWriteEntryBlock adfimage.vol.image entry.sector
      { block with access := access }).2 = adfRcOk ∧
    wordPerms L access = chmodPerms mode ∧
    adfimageGetperm L (dentryOf (adflibListFind (basename path)
      (L.adfGetDirEnt after.vol.image dir))) = chmodPerms mode

/-- The library has truncated the file to the very size. -/
def Truncated (newSize : BitVec 64) : Prop :=
  ∃ opened ∈ openedFile L adfimage path .write, ∃ size : BitVec 32,
    size.toNat = newSize.toNat ∧
      (L.adfFileTruncate opened.2.vol.image opened.1 size).2.2 = adfRcOk

/-- The entries could be read, and every name was handed over and taken. -/
def Listed (filler : List CStr → CStr → Bool) : Prop :=
  path ≠ [] ∧ ∃ dir, namedDir L adfimage path = some dir ∧
    (L.dirEntries adfimage.vol.image dir).isSome ∧
    filler [] ".".toList = false ∧ filler [".".toList] "..".toList = false ∧
    (readdirLoop filler [".".toList, "..".toList] (L.adfGetDirEnt adfimage.vol.image dir)).1 = true

/-- What it means that a callback has done what it was asked for. -/
def Callback.CarriedOut (after : Adfimage Image) : Callback → Prop
  | .getattr path => AttributesRead L adfimage path
  | .readlink path _ _ => LinkRead L adfimage path
  | .mkdir path => EntryChanged L adfimage path after L.adfCreateDir .createDir
  | .unlink path => EntryChanged L adfimage path after L.adfRemoveEntry .removeEntry
  | .rmdir path => EntryChanged L adfimage path after L.adfRemoveEntry .removeEntry
  | .create path => EntryChanged L adfimage path after L.adfCreateFile .createFile
  | .rename srcPath dstPath => Renamed L adfimage after srcPath dstPath
  | .chmod path mode => PermsWritten L adfimage path after mode
  | .truncate path newSize => Truncated L adfimage path newSize
  | .open path => (openedFile L adfimage path .read).isSome
  | .readdir path filler => Listed L adfimage path filler
  | _ => True

end CarriedOut

/-- The callback returns, and whatever it returns is 0 for an operation that was carried out or a
negative error number. -/
def Callback.InConvention (adfimage : Adfimage Image) (callback : Callback) : Prop :=
  (∃ fuel, (callback.run L env fuel adfimage).isSome) ∧
    ∀ fuel reply after, callback.run L env fuel adfimage = some (reply, after) →
      Answers reply.ret (callback.CarriedOut L adfimage after)

section Converted

variable (adfimage : Adfimage Image) (path : CStr)

/-- Nothing that is reported about the entry is missing. -/
def AttributesComplete : Prop :=
  if pathstrGetRelative path = [] then RootRead L adfimage
  else ∀ dir entry, namedDir L adfimage (dirname path) = some dir →
    adflibListFind (basename path) (L.adfGetDirEnt adfimage.vol.image dir) = some entry →
    SizeRead L adfimage path dir entry.type

/-- No text is taken from a block that an entry other than a link points to. -/
def OnlyLinksRead : Prop :=
  ∀ entry, LinkBlock L adfimage path entry →
    entry.secType = .lsoft ∨ entry.secType = .lfile ∨ entry.secType = .ldir ∨
      L.adfReadEntryBlock adfimage.vol.image entry.realEntry = none

/-- The library's code is a status. -/
def CodePasses (call : Image → Sector → CStr → Image × RetCode) : Prop :=
  ∀ rc, entryStatus L adfimage path call = some rc → rc = adfRcOk ∨ IsErrno rc

/-- Both conversions of directory parts end, and if that makes the library rename something, the
directories are those that the paths name. -/
def RenamesNamed (srcPath dstPath : CStr) : Prop :=
  ∃ srcDirpath dstDirpath, ConvertsTo (dirname srcPath) srcDirpath ∧
    ConvertsTo (dirname dstPath) dstDirpath ∧
    let middle := (adfimageGetdentry L adfimage srcDirpath).2
    let srcSector := parentSector (dentryAt L adfimage srcDirpath)
    let dstSector := parentSector (dentryAt L middle dstDirpath)
    ParentFound L adfimage srcDirpath → ParentFound L middle dstDirpath →
    (L.adfRenameEntry adfimage.vol.image srcSector (basename srcPath) dstSector
      (basename dstPath)).2 = adfRcOk →
    namedDir L adfimage (dirname srcPath) = some srcSector ∧
      namedDir L adfimage (dirname dstPath) = some dstSector

/-- The path names an entry, other than the root, that is listed with its access word and whose block
is read and written back, and the mode grants no permission after one that it does not grant. -/
def PermsCanBeWritten (mode : BitVec 32) : Prop :=
  path ≠ ['/'] ∧ (∃ entry block, namedEntry L adfimage path = some entry ∧
    dentryType entry.type ≠ .unknown ∧ ShowsPerms L (dentryOf (some entry)) mode ∧
    L.adfReadEntryBlock adfimage.vol.image entry.sector = some block ∧
    (L.adfWriteEntryBlock adfimage.vol.image entry.sector
      { block with access := setpermAccess L (chmodPerms mode) block.access }).2 = adfRcOk) ∧
  (mode &&& sIXUsr ≠ 0 → mode &&& sIWUsr ≠ 0) ∧ (mode &&& sIWUsr ≠ 0 → mode &&& sIRUsr ≠ 0)

/-- The entries can be read and the filler takes the first two names, or the listing fails for another
reason. -/
def ListingComplete (filler : List CStr → CStr → Bool) : Prop :=
  path ≠ [] → ∀ dir, namedDir L adfimage path = some dir →
    (readdirLoop filler [".".toList, "..".toList] (L.adfGetDirEnt adfimage.vol.image dir)).1 = true →
    (L.dirEntries adfimage.vol.image dir).isSome ∧ filler [] ".".toList = false ∧
      filler [".".toList] "..".toList = false

/-- The condition for a callback to keep the convention. -/
def Callback.StatusCondition : Callback → Prop
  | .getattr path => AttributesComplete L adfimage path
  | .readlink path _ _ => OnlyLinksRead L adfimage path
  | .mkdir path => CodePasses L adfimage path L.adfCreateDir
  | .unlink path => CodePasses L adfimage path L.adfRemoveEntry
  | .rmdir path => CodePasses L adfimage path L.adfRemoveEntry
  | .rename srcPath dstPath => RenamesNamed L adfimage srcPath dstPath
  | .chmod path mode => PermsCanBeWritten L adfimage path mode
  | .truncate path newSize => Fits newSize ∨ ¬ TruncatesLow L adfimage path newSize
  | .readdir path filler => ListingComplete L adfimage path filler
  | _ => True

end Converted

/-! ## One lemma for each function -/

section Answers

variable {L env} {adfimage : Adfimage Image} {path : CStr}

theorem answers_of_errno {ret : ℤ} {done : Prop} (h : IsErrno ret) : Answers ret done := Or.inr h

/-- Success must be true. -/
theorem answers_zero_iff {done : Prop} : Answers 0 done ↔ done := by
  simp [Answers, IsErrno]

theorem errno_eNoEnt : IsErrno (-eNoEnt) := by decide

theorem answers_getattr_iff (adfimage : Adfimage Image) (path : CStr) :
    Answers (adffsGetattr L env adfimage path).1 (AttributesRead L adfimage path) ↔
      AttributesComplete L adfimage path := by
  unfold AttributesRead AttributesComplete
  by_cases hrel : pathstrGetRelative path = []
  · rw [getattr_root L env adfimage hrel, if_pos hrel, if_pos hrel]
    exact answers_zero_iff
  · rw [if_neg hrel, if_neg hrel]
    cases hdir : namedDir L adfimage (dirname path) with
    | none =>
      rw [getattr_eq L env adfimage hrel, hdir]
      exact iff_of_true (answers_of_errno errno_eNoEnt) (by simp)
    | some dir =>
      obtain ⟨here, -, -, hattr⟩ := getattr_of_namedDir L env adfimage hrel hdir
      rw [hattr, statFound_fst]
      cases hentry : adflibListFind (basename path) (L.adfGetDirEnt adfimage.vol.image dir) with
      | none =>
        refine iff_of_true (answers_of_errno errno_eNoEnt) ?_
        rintro dir' entry hdir' hentry'
        obtain rfl := Option.some.inj hdir'
        rw [hentry] at hentry'
        cases hentry'
      | some entry =>
        rw [if_neg (by simp [dentryOf, dentryType_ne_none]), answers_zero_iff]
        constructor
        · rintro ⟨dir', found, hdir', hfound, hsize⟩ dir'' entry' hdir'' hentry'
          obtain rfl := Option.some.inj (hdir'.symm.trans hdir'')
          obtain rfl := Option.some.inj (hfound.symm.trans hentry')
          exact hsize
        · exact fun h ↦ ⟨dir, entry, rfl, hentry, h dir entry rfl hentry⟩

theorem answers_readlink_iff (adfimage : Adfimage Image) (path buffer : CStr) (lenMax : ℕ) :
    Answers (adfimageReadlink L adfimage path buffer lenMax).1 (LinkRead L adfimage path) ↔
      OnlyLinksRead L adfimage path := by
  have hcur := chdir_curDirPtr L adfimage (dirname_ne_nil path)
  have hnoDir : IsErrno (-1) := by decide
  have hnoEntry : IsErrno (-2) := by decide
  have hnoReal : IsErrno (-3) := by decide
  rw [readlink_eq]
  unfold LinkRead OnlyLinksRead LinkBlock
  cases hdir : namedDir L adfimage (dirname path) with
  | none => exact iff_of_true (answers_of_errno hnoDir) (by simp)
  | some dir =>
    rw [lastDir_of_namedDir L hdir] at hcur
    dsimp only
    rw [readlinkEntry, chdir_image, hcur]
    cases hparent : L.adfReadEntryBlock adfimage.vol.image dir with
    | none => exact iff_of_true (answers_of_errno hnoDir) (by simp [hparent])
    | some parent =>
      dsimp only
      cases hfound : L.adfNameToEntryBlk adfimage.vol.image parent.hashTable (basename path) with
      | none => exact iff_of_true (answers_of_errno hnoEntry) (by simp [hparent, hfound])
      | some entry =>
        dsimp only
        split_ifs with hsoft
        · simp [answers_zero_iff, hparent, hfound, hsoft]
        · rw [record_vol, chdir_image]
          cases hreal : L.adfReadEntryBlock adfimage.vol.image entry.realEntry with
          | none =>
            exact iff_of_true (answers_of_errno hnoReal) (by simp [hparent, hfound, hreal])
          | some real => simp [answers_zero_iff, hparent, hfound, hsoft, hreal]

/-- Creating and removing return an error number of their own or the result of the call. -/
theorem inParentFromRoot_fst (adfimage : Adfimage Image) (path : CStr) (emptyPath : ℤ)
    (call : Image → Sector → CStr → Image × RetCode) (event : Sector → CStr → AdfCall)
    (result : RetCode → ℤ) :
    (inParentFromRoot L adfimage path emptyPath call event result).1 =
      (entryStatus L adfimage path call).elim
        (if pathstrGetRelative path = [] then -emptyPath else -eNoEnt) result := by
  by_cases hrel : pathstrGetRelative path = []
  · rw [inParentFromRoot_of_root L adfimage _ _ _ _ hrel, entryStatus, entryDir, if_pos hrel,
      if_pos hrel]
    rfl
  · rw [inParentFromRoot_eq L adfimage _ _ _ _ hrel, entryStatus, entryDir, if_neg hrel,
      if_neg hrel]
    dsimp only
    cases namedDir L adfimage.adfToRootDir (dirname (pathstrGetRelative path)) <;> rfl

/-- They make the call that is asked for, so only its code is left to look at. -/
theorem entryChanged_iff (adfimage : Adfimage Image) (path : CStr) (emptyPath : ℤ)
    (call : Image → Sector → CStr → Image × RetCode) (event : Sector → CStr → AdfCall)
    (result : RetCode → ℤ) :
    EntryChanged L adfimage path
        (inParentFromRoot L adfimage path emptyPath call event result).2 call event ↔
      entryStatus L adfimage path call = some adfRcOk := by
  unfold EntryChanged entryStatus entryDir
  split_ifs with hrel
  · simp
  · rw [inParentFromRoot_calls L adfimage emptyPath call event result hrel, mutationTarget_eq]
    cases namedDir L adfimage.adfToRootDir (dirname (pathstrGetRelative path)) <;> simp

/-- Passing the code on keeps the convention only if the code does. -/
theorem answers_inParentFromRoot_iff (adfimage : Adfimage Image) (path : CStr) {emptyPath : ℤ}
    (hempty : IsErrno (-emptyPath)) (call : Image → Sector → CStr → Image × RetCode)
    (event : Sector → CStr → AdfCall) :
    Answers (inParentFromRoot L adfimage path emptyPath call event id).1
        (EntryChanged L adfimage path
          (inParentFromRoot L adfimage path emptyPath call event id).2 call event) ↔
      CodePasses L adfimage path call := by
  rw [entryChanged_iff, inParentFromRoot_fst, CodePasses]
  cases hstatus : entryStatus L adfimage path call with
  | none =>
    refine iff_of_true (answers_of_errno ?_) (by simp)
    split_ifs
    · exact hempty
    · exact errno_eNoEnt
  | some rc =>
    constructor
    · rintro (⟨hzero, -⟩ | herrno) rc' hrc
      · exact Or.inl (Option.some.inj hrc ▸ hzero)
      · exact Or.inr (Option.some.inj hrc ▸ herrno)
    · intro h
      exact (h rc rfl).elim (fun hok ↦ Or.inl ⟨hok, congrArg some hok⟩) Or.inr

theorem answers_create (adfimage : Adfimage Image) (path : CStr) :
    Answers (adfimageCreate L adfimage path).1
      (EntryChanged L adfimage path (adfimageCreate L adfimage path).2 L.adfCreateFile
        .createFile) := by
  rw [adfimageCreate, entryChanged_iff, inParentFromRoot_fst]
  cases hstatus : entryStatus L adfimage path L.adfCreateFile with
  | none =>
    apply answers_of_errno
    split_ifs <;> decide
  | some rc =>
    rw [Option.elim_some]
    split_ifs with hok
    · exact Or.inl ⟨rfl, congrArg some hok⟩
    · exact answers_of_errno (by decide)

/-- A renaming that the library is asked for names two directories; they must be the right ones. -/
theorem answers_renameConverted_iff (adfimage : Adfimage Image) (srcPath dstPath : CStr)
    (srcDirpath dstDirpath : CStr) :
    let converted := renameConverted L adfimage
      { pathCreate srcPath with dirpath := srcDirpath }
      { pathCreate dstPath with dirpath := dstDirpath }
    let middle := (adfimageGetdentry L adfimage srcDirpath).2
    let srcSector := parentSector (dentryAt L adfimage srcDirpath)
    let dstSector := parentSector (dentryAt L middle dstDirpath)
    Answers converted.1 (Renamed L adfimage converted.2 srcPath dstPath) ↔
      (ParentFound L adfimage srcDirpath → ParentFound L middle dstDirpath →
        (L.adfRenameEntry adfimage.vol.image srcSector (basename srcPath) dstSector
          (basename dstPath)).2 = adfRcOk →
        namedDir L adfimage (dirname srcPath) = some srcSector ∧
          namedDir L adfimage (dirname dstPath) = some dstSector) := by
  intro converted middle srcSector dstSector
  by_cases hfound : ParentFound L adfimage srcDirpath ∧ ParentFound L middle dstDirpath
  · have hconverted : converted = _ := renameConverted_of_found _ _ hfound.1 hfound.2
    simp only [hfound.1, hfound.2, true_imp_iff]
    rw [hconverted]
    dsimp only [pathCreate_entryname]
    split_ifs with hok
    · rw [answers_zero_iff]
      constructor
      · intro ⟨srcDir, dstDir, hsrc, hdst, hcalls, _⟩ _
        rw [setImage_calls, record_calls, getdentry_calls, getdentry_calls,
          List.append_cancel_left_eq] at hcalls
        injection hcalls with hcall
        injection hcall with hsrcDir _ hdstDir
        rw [← hsrcDir] at hsrc
        rw [← hdstDir] at hdst
        exact ⟨hsrc, hdst⟩
      · intro h
        obtain ⟨hsrc, hdst⟩ := h hok
        exact ⟨srcSector, dstSector, hsrc, hdst, by simp [srcSector, dstSector, middle], hok⟩
    · exact iff_of_true (answers_of_errno (by decide)) fun h ↦ absurd h hok
  · have hrefused := (renameConverted_of_not_found
      { pathCreate srcPath with dirpath := srcDirpath }
      { pathCreate dstPath with dirpath := dstDirpath } hfound).1
    refine iff_of_true (answers_of_errno ?_) fun hsrc hdst ↦ absurd ⟨hsrc, hdst⟩ hfound
    revert hrefused
    generalize (renameConverted L adfimage _ _).1 = ret
    simp only [List.mem_cons, List.not_mem_nil, or_false]
    rintro (rfl | rfl | rfl) <;> decide

/-- The name in the directory that the path names is what a change of permissions finds. -/
theorem dentryAt_of_namedEntry {entry : AdfEntry} (hpath : path ≠ ['/'])
    (h : namedEntry L adfimage path = some entry) :
    dentryAt L adfimage path = { type := dentryType entry.type, adflibEntry := entry } := by
  obtain ⟨dir, hdir, hentry⟩ := Option.bind_eq_some_iff.mp h
  rw [dentryAt, if_neg hpath, entryAt, lastDir_of_namedDir L hdir, hentry]
  rfl

/-- For such an entry the block is written with the word that `adfimage_setperm` computes. -/
theorem setperm_of_namedEntry {entry : AdfEntry} {block : AdfEntryBlock} (hpath : path ≠ ['/'])
    (hentry : namedEntry L adfimage path = some entry)
    (hblock : L.adfReadEntryBlock adfimage.vol.image entry.sector = some block)
    (perms : BitVec 32) :
    adfimageSetperm L adfimage path perms =
      let found := (adfimageGetdentry L adfimage path).2
      let new := { block with access := setpermAccess L perms block.access }
      let written := L.adfWriteEntryBlock adfimage.vol.image entry.sector new
      if dentryType entry.type = .unknown then (false, found)
      else (written.2 == adfRcOk,
        (found.record (.writeEntryBlock entry.sector new)).setImage written.1) := by
  have hvalid : adfimageDentryValid { type := dentryType entry.type, adflibEntry := entry } =
      !(dentryType entry.type == .unknown) := by
    simp [adfimageDentryValid, dentryType_ne_none, bne]
  rw [setperm_eq, dentryAt_of_namedEntry hpath hentry, hvalid]
  dsimp only
  rw [hblock]
  by_cases hunknown : dentryType entry.type = .unknown <;> simp [hunknown]

/-- What the entry grants as it is listed after its block has been written. -/
theorem getperm_written (hblocks : L.EntryBlocks) {dir : Sector} {entry : AdfEntry}
    {block : AdfEntryBlock} {access : BitVec 32}
    (hentry : adflibListFind (basename path) (L.adfGetDirEnt adfimage.vol.image dir) = some entry)
    (hblock : L.adfReadEntryBlock adfimage.vol.image entry.sector = some block)
    (hrc : (L.adfWriteEntryBlock adfimage.vol.image entry.sector
      { block with access := access }).2 = adfRcOk) :
    adfimageGetperm L (dentryOf (adflibListFind (basename path) (L.adfGetDirEnt
      (L.adfWriteEntryBlock adfimage.vol.image entry.sector
        { block with access := access }).1 dir))) =
      if entry.type = .file ∨ entry.type = .dir then wordPerms L access
      else adfimageGetperm L (dentryOf (some entry)) := by
  rw [hblocks.getDirEnt _ _ _ _ dir hblock hrc, adflibListFind_relist, hentry, Option.map_some]
  exact getperm_relist entry.sector access rfl

theorem answers_chmod_iff (hblocks : L.EntryBlocks) {r w e : Fin 32} (hbits : L.AccessBits r w e)
    (adfimage : Adfimage Image) (path : CStr) (mode : BitVec 32) :
    Answers (adffsChmod L adfimage path mode).1
        (PermsWritten L adfimage path (adffsChmod L adfimage path mode).2 mode) ↔
      PermsCanBeWritten L adfimage path mode := by
  have hchmod : Answers (adffsChmod L adfimage path mode).1
        (PermsWritten L adfimage path (adffsChmod L adfimage path mode).2 mode) ↔
      (adfimageSetperm L adfimage path (chmodPerms mode)).1 = true ∧
        PermsWritten L adfimage path (adfimageSetperm L adfimage path (chmodPerms mode)).2 mode := by
    rw [adffsChmod]
    rcases adfimageSetperm L adfimage path (chmodPerms mode) with ⟨written, after⟩
    cases written with
    | false => simp [Answers, IsErrno, eInval]
    | true => simp [answers_zero_iff]
  rw [hchmod]
  constructor
  · intro ⟨hok, hpath, dir, entry, block, access, hdir, hentry, hblock, hcalls, hrc, hperms, hlisted⟩
    have hnamed : namedEntry L adfimage path = some entry := by
      rw [namedEntry, hdir, Option.bind_some, hentry]
    rw [setperm_of_namedEntry hpath hnamed hblock] at hok hcalls hlisted
    dsimp only at hok hcalls hlisted
    split_ifs at hok hcalls hlisted with hunknown
    rw [setImage_calls, record_calls, getdentry_calls, List.append_cancel_left_eq] at hcalls
    injection hcalls with hcall
    injection hcall with _ hnew
    have haccess : setpermAccess L (chmodPerms mode) block.access = access :=
      congrArg AdfEntryBlock.access hnew
    subst haccess
    refine ⟨hpath, ⟨entry, block, hnamed, hunknown, ?_, hblock, hrc⟩,
      (wordPerms_setpermAccess_iff hbits mode block.access).mp hperms⟩
    rw [setImage_image, getperm_written hblocks hentry hblock hrc] at hlisted
    split_ifs at hlisted with htype
    · exact htype.imp id Or.inl
    · exact Or.inr (Or.inr hlisted)
  · intro ⟨hpath, ⟨entry, block, hnamed, hunknown, hshows, hblock, hrc⟩, hnested⟩
    obtain ⟨dir, hdir, hentry⟩ := Option.bind_eq_some_iff.mp hnamed
    have hperms := (wordPerms_setpermAccess_iff hbits mode block.access).mpr hnested
    rw [setperm_of_namedEntry hpath hnamed hblock]
    dsimp only
    rw [if_neg hunknown]
    refine ⟨by simp [hrc], hpath, dir, entry, block, _, hdir, hentry, hblock, ?_, hrc, hperms, ?_⟩
    · rw [setImage_calls, record_calls, getdentry_calls]
    · rw [setImage_image, getperm_written hblocks hentry hblock hrc]
      split_ifs with htype
      · exact hperms
      · exact (hshows.resolve_left fun hfile ↦ htype (Or.inl hfile)).resolve_left fun hdirectory ↦
          htype (Or.inr hdirectory)

theorem answers_truncate_iff (adfimage : Adfimage Image) (path : CStr) (newSize : BitVec 64) :
    Answers (adffsTruncate L adfimage path newSize).1 (Truncated L adfimage path newSize) ↔
      Fits newSize ∨ ¬ TruncatesLow L adfimage path newSize := by
  have hret : (adffsTruncate L adfimage path newSize).1 ∈ [0, -1] := by
    rw [adffsTruncate]
    dsimp only
    split_ifs <;> simp
  by_cases hlow : TruncatesLow L adfimage path newSize
  · rw [truncate_zero_iff.mpr hlow, answers_zero_iff]
    constructor
    · rintro ⟨opened, _, size, hsize, _⟩
      have hlt := size.isLt
      rw [hsize] at hlt
      exact Or.inl hlt
    · intro h
      obtain ⟨opened, hopened, hrc⟩ := hlow
      have hfits : Fits newSize := h.resolve_right fun hnone ↦ hnone ⟨opened, hopened, hrc⟩
      exact ⟨opened, hopened, newSize.setWidth 32, toNat_low_of_fits hfits, hrc⟩
  · have hne : (adffsTruncate L adfimage path newSize).1 ≠ 0 := fun h ↦ hlow (truncate_zero_iff.mp h)
    have hret' : (adffsTruncate L adfimage path newSize).1 = -1 := by simpa [hne] using hret
    rw [hret']
    exact iff_of_true (answers_of_errno (by decide)) (Or.inr hlow)

theorem answers_open (adfimage : Adfimage Image) (path : CStr) :
    Answers (adffsOpen L adfimage path).1 (openedFile L adfimage path .read).isSome := by
  have hnotOpened : IsErrno (-1) := by decide
  rw [adffsOpen, adfimageFileOpen, openedFile]
  cases openInParent L adfimage path .read with
  | noDir after => exact answers_of_errno hnotOpened
  | noFile after => exact answers_of_errno hnotOpened
  | opened file cwd after => exact Or.inl ⟨rfl, rfl⟩

theorem answers_readdir_iff (adfimage : Adfimage Image) (path : CStr)
    (filler : List CStr → CStr → Bool) :
    Answers (adffsReaddir L adfimage path filler).1 (Listed L adfimage path filler) ↔
      ListingComplete L adfimage path filler := by
  unfold Listed ListingComplete
  rcases eq_or_ne path [] with rfl | hpath
  · exact iff_of_true (answers_of_errno errno_eNoEnt) fun h ↦ absurd rfl h
  · rw [readdir_eq L adfimage hpath]
    cases hdir : namedDir L adfimage path with
    | none => exact iff_of_true (answers_of_errno errno_eNoEnt) (by simp)
    | some dir =>
      dsimp only
      split_ifs with hdone
      · rw [answers_zero_iff]
        constructor
        · intro ⟨_, dir', hdir', hlisting, hdot, hdotdot, _⟩ _ dir'' hdir'' _
          obtain rfl := Option.some.inj (hdir'.symm.trans hdir'')
          exact ⟨hlisting, hdot, hdotdot⟩
        · intro h
          obtain ⟨hlisting, hdot, hdotdot⟩ := h hpath dir rfl hdone
          exact ⟨hpath, dir, rfl, hlisting, hdot, hdotdot, hdone⟩
      · refine iff_of_true (answers_of_errno (by decide)) fun _ dir' hdir' hdone' ↦ ?_
        obtain rfl := Option.some.inj hdir'
        exact absurd hdone' hdone

end Answers

/-! ## The convention -/

section Convention

variable {L env} {adfimage : Adfimage Image}

/-- Only a renaming depends on fuel; all other callbacks return, with one result. -/
theorem inConvention_iff_of_run {callback : Callback} {reply : Reply} {after : Adfimage Image}
    (hrun : ∀ fuel, callback.run L env fuel adfimage = some (reply, after)) :
    callback.InConvention L env adfimage ↔
      Answers reply.ret (callback.CarriedOut L adfimage after) := by
  constructor
  · intro ⟨_, h⟩
    exact h 0 reply after (hrun 0)
  · intro h
    refine ⟨⟨0, by rw [hrun 0]; rfl⟩, ?_⟩
    intro fuel reply' after' hrun'
    obtain ⟨rfl, rfl⟩ := Prod.mk.inj (Option.some.inj ((hrun fuel).symm.trans hrun'))
    exact h

theorem inConvention_rename_iff (srcPath dstPath : CStr) :
    (Callback.rename srcPath dstPath).InConvention L env adfimage ↔
      RenamesNamed L adfimage srcPath dstPath := by
  constructor
  · intro ⟨⟨fuel, hreturns⟩, hanswers⟩
    obtain ⟨⟨reply, after⟩, hrun⟩ := Option.isSome_iff_exists.mp hreturns
    have hret := hanswers fuel reply after hrun
    obtain ⟨⟨ret, after'⟩, hrename, hreply⟩ := Option.map_eq_some_iff.mp hrun
    obtain ⟨rfl, rfl⟩ := Prod.mk.inj hreply
    obtain ⟨srcDirpath, dstDirpath, hsrc, hdst, hresult⟩ := fileRename_of_converts hrename
    refine ⟨srcDirpath, dstDirpath, hsrc, hdst, ?_⟩
    apply (answers_renameConverted_iff adfimage srcPath dstPath srcDirpath dstDirpath).mp
    rw [hresult]
    exact hret
  · intro ⟨srcDirpath, dstDirpath, hsrc, hdst, hnamed⟩
    have hanswers := (answers_renameConverted_iff adfimage srcPath dstPath srcDirpath
      dstDirpath).mpr hnamed
    constructor
    · obtain ⟨fuel, hfuel⟩ := fileRename_isSome (L := L) adfimage hsrc hdst
      exact ⟨fuel, by rw [Callback.run, Option.isSome_map]; exact hfuel⟩
    · intro fuel reply after hrun
      obtain ⟨⟨ret, after'⟩, hrename, hreply⟩ := Option.map_eq_some_iff.mp hrun
      obtain ⟨rfl, rfl⟩ := Prod.mk.inj hreply
      obtain ⟨srcDirpath', dstDirpath', hsrc', hdst', hresult⟩ := fileRename_of_converts hrename
      obtain rfl := hsrc.unique hsrc'
      obtain rfl := hdst.unique hdst'
      rw [hresult] at hanswers
      exact hanswers

end Convention

end FuseAdf
