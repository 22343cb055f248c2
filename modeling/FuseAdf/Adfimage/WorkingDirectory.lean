import FuseAdf.Adflib.Contract
import FuseAdf.Adfimage.Lookup

/-!
# The two copies of the working directory

The string `cwd` is in step with the volume when its components, looked up from the root one after
another, lead to the current directory.  Changing the directory keeps the two in step whatever
path is given and wherever the walk gives up, and so does everything that is made of directory
changes and of library calls which do not move directories.
-/

namespace FuseAdf

open Adfimage NameWalk

variable {Image File : Type} (L : Adflib Image File)

/-- The components of a path between its slashes, after the leading ones. -/
def components (path : CStr) : List CStr :=
  if pathstrGetRelative path = [] then [] else (pathstrGetRelative path).splitOn '/'

/-- The working directory is recorded as it is: the components of `cwd` lead from the root to the
current directory. -/
def NamesCurDir (adfimage : Adfimage Image) : Prop :=
  walk (look L adfimage) adfimage.vol.rootBlock (components adfimage.cwd) =
    some adfimage.vol.curDirPtr

instance (adfimage : Adfimage Image) : Decidable (NamesCurDir L adfimage) :=
  inferInstanceAs (Decidable (_ = _))

/-- The string that `append_dir` builds from the root for these names. -/
def cwdOf (names : List CStr) : CStr := names.foldl joinDir ['/']

theorem cwdOf_concat (names : List CStr) (name : CStr) :
    cwdOf (names ++ [name]) = joinDir (cwdOf names) name := by
  simp [cwdOf]

theorem head_joinDir {cwd : CStr} (h : cwd.head? = some '/') (name : CStr) :
    (joinDir cwd name).head? = some '/' := by
  cases cwd with
  | nil => simp at h
  | cons c rest =>
    obtain rfl := Option.some.inj h
    unfold joinDir
    split_ifs <;> rfl

theorem head_cwdOf (names : List CStr) : (cwdOf names).head? = some '/' := by
  induction names using List.reverseRecOn with
  | nil => rfl
  | append_singleton names name ih =>
    rw [cwdOf_concat]
    exact head_joinDir ih name

/-- Names that a walk can have followed: a slash is in none, and the first is not empty. -/
structure AreDirNames (names : List CStr) : Prop where
  slash : ∀ name ∈ names, '/' ∉ name
  head : names.head? ≠ some []

theorem AreDirNames.of_front {front names : List CStr} (h : AreDirNames names)
    (hfront : front <+: names) : AreDirNames front where
  slash name hname := h.slash name (hfront.subset hname)
  head hempty := by
    obtain ⟨back, rfl⟩ := hfront
    apply h.head
    rw [List.head?_append, hempty]
    rfl

theorem AreDirNames.append {front back : List CStr} (hfront : AreDirNames front)
    (hback : AreDirNames back) : AreDirNames (front ++ back) where
  slash name hname := by
    rcases List.mem_append.mp hname with h | h
    · exact hfront.slash name h
    · exact hback.slash name h
  head := by
    cases front with
    | nil => exact hback.head
    | cons name names => exact hfront.head

theorem slash_not_mem_of_mem_splitOn {path name : CStr} (h : name ∈ path.splitOn '/') :
    '/' ∉ name := by
  induction path generalizing name with
  | nil =>
    have hname : name = [] := by simpa using h
    simp [hname]
  | cons c rest ih =>
    rw [List.splitOn_cons_eq_if_modifyHead] at h
    split_ifs at h with hc
    · rcases List.mem_cons.mp h with rfl | h
      · exact List.not_mem_nil
      · exact ih h
    · cases hsplit : rest.splitOn '/' with
      | nil => exact absurd hsplit (List.splitOn_ne_nil _ _)
      | cons first others =>
        rw [hsplit, List.modifyHead_cons, List.mem_cons] at h
        have hne : '/' ≠ c := by
          intro he
          simp [← he] at hc
        rcases h with rfl | h
        · have hfirst : '/' ∉ first := ih (by simp [hsplit])
          simp [hne, hfirst]
        · exact ih (by simp [hsplit, h])

theorem head_splitOn {path : CStr} (hne : path ≠ []) (hslash : path.head? ≠ some '/') :
    (path.splitOn '/').head? ≠ some [] := by
  cases path with
  | nil => exact absurd rfl hne
  | cons c rest =>
    have hc : c ≠ '/' := by simpa using hslash
    rw [List.splitOn_cons_eq_if_modifyHead, if_neg (by simpa using hc)]
    cases rest.splitOn '/' <;> simp

theorem areDirNames_chdirPieces (path : CStr) : AreDirNames (chdirPieces path) := by
  unfold chdirPieces
  split_ifs with h
  · exact ⟨by simp, by simp⟩
  · push Not at h
    exact ⟨fun _ ↦ slash_not_mem_of_mem_splitOn,
      head_splitOn h.1 (head_getRelative path)⟩

theorem areDirNames_walked (next : Sector → CStr → Option Sector) (dir : Sector) (path : CStr) :
    AreDirNames (walked next dir (chdirPieces path)) :=
  (areDirNames_chdirPieces path).of_front (walked_isPrefix _ _ _)

/-- `append_dir` adds one component.  An empty one would be lost behind the leading slashes. -/
theorem components_joinDir {cwd name : CStr} (hslash : '/' ∉ name)
    (hne : name ≠ [] ∨ components cwd ≠ []) :
    components (joinDir cwd name) = components cwd ++ [name] := by
  have hname : name.splitOn '/' = [name] := List.splitOn_eq_singleton hslash
  by_cases hrel : pathstrGetRelative cwd = []
  · have hcwd : components cwd = [] := if_pos hrel
    have hslashes : ∀ c ∈ cwd, c = '/' := fun c hc ↦
      isSlash_iff.mp (List.dropWhile_eq_nil_iff.mp hrel c hc)
    have hjoin : pathstrGetRelative (joinDir cwd name) = name := by
      rw [joinDir, getRelative_slashes_append _ name, getRelative_name hslash]
      intro c hc
      split_ifs at hc
      · rcases List.mem_append.mp hc with h | h
        · exact hslashes c h
        · exact List.mem_singleton.mp h
      · exact hslashes c hc
    rw [components, hjoin, if_neg (hne.resolve_right (by simp [hcwd])), hname, hcwd]
    rfl
  · have hroot : cwd ≠ ['/'] := by
      rintro rfl
      exact hrel rfl
    have hjoin : pathstrGetRelative (joinDir cwd name) =
        pathstrGetRelative cwd ++ '/' :: name := by
      rw [joinDir, if_pos hroot, List.append_assoc, getRelative_append hrel]
      rfl
    rw [components, components, hjoin, if_neg (by simp), if_neg hrel,
      List.splitOn_append_cons_self, hname]

/-- The names can be read back from the string. -/
theorem components_foldl_joinDir {names : List CStr} (cwd : CStr)
    (hslash : ∀ name ∈ names, '/' ∉ name) (hhead : names.head? ≠ some [] ∨ components cwd ≠ []) :
    components (names.foldl joinDir cwd) = components cwd ++ names := by
  induction names generalizing cwd with
  | nil => rw [List.foldl_nil, List.append_nil]
  | cons name names ih =>
    have hjoin : components (joinDir cwd name) = components cwd ++ [name] := by
      apply components_joinDir (hslash name (by simp))
      simpa using hhead
    rw [List.foldl_cons, ih _ (fun other h ↦ hslash other (by simp [h])) (Or.inr (by simp [hjoin])),
      hjoin, List.append_assoc, List.singleton_append]

theorem components_cwdOf {names : List CStr} (h : AreDirNames names) :
    components (cwdOf names) = names :=
  components_foldl_joinDir _ h.slash (Or.inl h.head)

/-- A path is looked up by its components, unless there is only a single dot. -/
theorem chdirPieces_eq_components {path : CStr} (h : pathstrGetRelative path ≠ ['.']) :
    chdirPieces path = components path := by
  simp only [chdirPieces, components, h, or_false]

/-- Going back to a recorded directory looks up the names it is recorded by.  The one exception is
a directory whose name is a single dot: `adfimageChdir` then stays at the root. -/
theorem chdirPieces_cwdOf {names : List CStr} (h : AreDirNames names) :
    chdirPieces (cwdOf names) = names ∨ chdirPieces (cwdOf names) = [] := by
  by_cases hdot : pathstrGetRelative (cwdOf names) = ['.']
  · exact Or.inr (if_pos (Or.inr hdot))
  · rw [chdirPieces_eq_components hdot, components_cwdOf h]
    exact Or.inl rfl

/-! ## The invariant -/

/-- The working directory is the one that these names lead to, and the string is built from them. -/
structure Located (adfimage : Adfimage Image) (names : List CStr) : Prop where
  areDirNames : AreDirNames names
  cwd : adfimage.cwd = cwdOf names
  walk : walk (look L adfimage) adfimage.vol.rootBlock names = some adfimage.vol.curDirPtr

/-- The string and the volume are in step. -/
def InSync (adfimage : Adfimage Image) : Prop := ∃ names, Located L adfimage names

variable {L}

theorem InSync.namesCurDir {adfimage : Adfimage Image} (h : InSync L adfimage) :
    NamesCurDir L adfimage := by
  obtain ⟨names, hnames⟩ := h
  rw [NamesCurDir, hnames.cwd, components_cwdOf hnames.areDirNames]
  exact hnames.walk

/-- At the root nothing has to be looked up. -/
theorem located_root {adfimage : Adfimage Image} (hcwd : adfimage.cwd = ['/'])
    (hcur : adfimage.vol.curDirPtr = adfimage.vol.rootBlock) : Located L adfimage [] where
  areDirNames := ⟨by simp, by simp⟩
  cwd := hcwd
  walk := by rw [walk_nil, hcur]

theorem InSync.of_root {adfimage : Adfimage Image} (hcwd : adfimage.cwd = ['/'])
    (hcur : adfimage.vol.curDirPtr = adfimage.vol.rootBlock) : InSync L adfimage :=
  ⟨[], located_root hcwd hcur⟩

theorem Located.head_cwd {adfimage : Adfimage Image} {names : List CStr}
    (h : Located L adfimage names) : adfimage.cwd.head? = some '/' := by
  rw [h.cwd]
  exact head_cwdOf names

/-- A walk adds the names that it could follow, no matter where it stops. -/
theorem Located.arrive {adfimage : Adfimage Image} {names : List CStr}
    (h : Located L adfimage names) {pieces : List CStr} (hpieces : AreDirNames pieces) :
    Located L (arrive L adfimage pieces)
      (names ++ walked (look L adfimage) adfimage.vol.curDirPtr pieces) where
  areDirNames := h.areDirNames.append (hpieces.of_front (walked_isPrefix _ _ _))
  cwd := by
    change List.foldl joinDir adfimage.cwd _ = _
    rw [h.cwd, cwdOf, cwdOf, List.foldl_append]
  walk := by
    rw [look_arrive, arrive_rootBlock, walk_append, h.walk]
    exact walk_walked _ _ _

theorem InSync.chdirStart {adfimage : Adfimage Image} (h : InSync L adfimage) (path : CStr) :
    InSync L (chdirStart adfimage path) := by
  unfold FuseAdf.chdirStart
  split_ifs
  · exact InSync.of_root rfl rfl
  · exact h

theorem InSync.chdir {adfimage : Adfimage Image} (h : InSync L adfimage)
    (path : CStr) : InSync L (adfimageChdir L adfimage path).2 := by
  rcases eq_or_ne path [] with rfl | hne
  · exact h
  · obtain ⟨names, hnames⟩ := h.chdirStart path
    rw [adfimageChdir_eq L adfimage hne]
    exact ⟨_, hnames.arrive (areDirNames_chdirPieces path)⟩

/-- From any directory, going back by name to a directory that was in step gives a state that is
in step there, or at the root. -/
theorem Located.restore {adfimage : Adfimage Image} {names : List CStr}
    (h : Located L adfimage names) {elsewhere : Adfimage Image}
    (himage : elsewhere.vol.image = adfimage.vol.image)
    (hroot : elsewhere.vol.rootBlock = adfimage.vol.rootBlock) :
    ∃ names', Located L (adfimageChdir L elsewhere adfimage.cwd).2 names' ∧
      (names' = names ∨ names' = []) := by
  have hlook : look L elsewhere = look L adfimage := by rw [look, look, himage]
  have hne : adfimage.cwd ≠ [] := by
    intro hnil
    simpa [hnil] using h.head_cwd
  have hstart : Located L (FuseAdf.chdirStart elsewhere adfimage.cwd) [] := by
    rw [chdirStart_of_absolute elsewhere h.head_cwd]
    exact located_root rfl rfl
  have hcur : (FuseAdf.chdirStart elsewhere adfimage.cwd).vol.curDirPtr =
      adfimage.vol.rootBlock := by
    rw [chdirStart_of_absolute elsewhere h.head_cwd]
    exact hroot
  have harrive := hstart.arrive (areDirNames_chdirPieces adfimage.cwd)
  rw [look_chdirStart, hlook, hcur, List.nil_append] at harrive
  rw [adfimageChdir_eq L elsewhere hne]
  refine ⟨_, harrive, ?_⟩
  rw [h.cwd]
  rcases chdirPieces_cwdOf h.areDirNames with hpieces | hpieces
  · left
    rw [hpieces]
    exact walked_of_walk h.walk
  · right
    rw [hpieces]
    rfl

theorem InSync.leaveParent {adfimage : Adfimage Image}
    (h : InSync L adfimage) (cwd : Option CStr) : InSync L (leaveParent L adfimage cwd) := by
  cases cwd with
  | none => exact h
  | some cwd => exact h.chdir cwd

theorem InSync.countDirEntries {adfimage : Adfimage Image}
    (h : InSync L adfimage) (dirpath : CStr) :
    InSync L (adfimageCountDirEntries L adfimage dirpath).2 :=
  (h.chdir dirpath).chdir adfimage.cwd

theorem InSync.getdentry {adfimage : Adfimage Image} (h : InSync L adfimage)
    (path : CStr) : InSync L (adfimageGetdentry L adfimage path).2 := by
  rcases eq_or_ne path ['/'] with rfl | hne
  · exact h
  · rw [getdentry_eq L adfimage hne]
    dsimp only
    split_ifs
    · exact h.chdir _
    · exact (h.chdir _).chdir _

/-- A lookup that finds something has gone back to where it came from, or to the root. -/
theorem Located.getdentry {adfimage : Adfimage Image} {names : List CStr}
    (h : Located L adfimage names) (path : CStr)
    (hfound : (adfimageGetdentry L adfimage path).1.type ≠ .none) :
    ∃ names', Located L (adfimageGetdentry L adfimage path).2 names' ∧
      (names' = names ∨ names' = []) := by
  rcases eq_or_ne path ['/'] with rfl | hne
  · exact ⟨names, h, Or.inl rfl⟩
  · rw [getdentry_eq L adfimage hne] at hfound ⊢
    dsimp only at hfound ⊢
    split_ifs with hempty
    · have hmissing : entryAt L adfimage path = none := by
        rw [entryAt, hempty]
        rfl
      exact absurd ((dentryOf_type_eq_none _).mpr hmissing) hfound
    · exact h.restore (chdir_image L _ _) (chdir_rootBlock L _ _)

theorem InSync.record {adfimage : Adfimage Image} (h : InSync L adfimage) (call : AdfCall) :
    InSync L (adfimage.record call) := by
  obtain ⟨names, hnames⟩ := h
  exact ⟨names, hnames.areDirNames, hnames.cwd, hnames.walk⟩

theorem InSync.setImage {adfimage : Adfimage Image} (h : InSync L adfimage) {image : Image}
    (hsame : L.SameDirs adfimage.vol.image image) : InSync L (adfimage.setImage image) := by
  obtain ⟨names, hnames⟩ := h
  have hlook : look L (adfimage.setImage image) = look L adfimage := by
    funext dir name
    exact hsame dir name
  refine ⟨names, hnames.areDirNames, hnames.cwd, ?_⟩
  rw [hlook]
  exact hnames.walk

theorem sameDirs_refl (image : Image) : L.SameDirs image image := fun _ _ ↦ rfl

theorem sameDirs_trans {first second third : Image} (h : L.SameDirs first second)
    (h' : L.SameDirs second third) : L.SameDirs first third := by
  intro dir name
  rw [h' dir name, h dir name]

theorem InSync.setperm (hL : L.Directories) {adfimage : Adfimage Image} (h : InSync L adfimage)
    (path : CStr) (perms : BitVec 32) : InSync L (adfimageSetperm L adfimage path perms).2 := by
  have hlookup := h.getdentry path
  rw [adfimageSetperm]
  generalize adfimageGetdentry L adfimage path = found at hlookup ⊢
  rcases found with ⟨dentry, after⟩
  dsimp only at hlookup ⊢
  split_ifs
  · exact hlookup
  · cases hread : L.adfReadEntryBlock after.vol.image dentry.adflibEntry.sector with
    | none => exact hlookup
    | some block => exact (hlookup.record _).setImage (hL.changeAccess _ _ _ _ hread)

theorem InSync.afterOpen (hL : L.Directories) {adfimage : Adfimage Image} (h : InSync L adfimage)
    (name : CStr) (mode : AdfFileMode) : InSync L (afterOpen L adfimage name mode) :=
  (h.record _).setImage (hL.fileOpen _ _ _ _)

/-- What every way out of the common beginning of the file operations leaves. -/
theorem InSync.openInParent (hL : L.Directories) {adfimage : Adfimage Image}
    (h : InSync L adfimage) (path : CStr) (mode : AdfFileMode) :
    match openInParent L adfimage path mode with
    | .noDir after => InSync L after
    | .noFile after => InSync L after
    | .opened _ _ after => InSync L after := by
  have hwalk := h.chdir (dirname path)
  rw [openInParent_eq]
  cases namedDir L adfimage (dirname path) with
  | none => exact hwalk
  | some sector =>
    dsimp only
    cases (L.adfFileOpen adfimage.vol.image sector (basename path) mode).2 with
    | none => exact hwalk.afterOpen hL _ _
    | some file => exact hwalk.afterOpen hL _ _

/-- An operation on a file keeps the two in step if what it does to the image moves no directory. -/
theorem InSync.afterFile (hL : L.Directories) {adfimage : Adfimage Image} (h : InSync L adfimage)
    (path : CStr) (mode : AdfFileMode) {after : Image → File → Image}
    (hafter : ∀ image file, L.SameDirs image (after image file)) :
    InSync L (afterFile L adfimage path mode after) := by
  have hopen := h.openInParent hL path mode
  unfold FuseAdf.afterFile
  generalize FuseAdf.openInParent L adfimage path mode = opening at hopen ⊢
  cases opening with
  | noDir walked => exact hopen
  | noFile walked => exact hopen
  | opened file cwd opened => exact (hopen.setImage (hafter _ _)).leaveParent cwd

theorem InSync.fileOpen (hL : L.Directories) {adfimage : Adfimage Image} (h : InSync L adfimage)
    (path : CStr) (mode : AdfFileMode) : InSync L (adfimageFileOpen L adfimage path mode).2 := by
  rw [fileOpen_snd]
  exact h.afterFile hL path mode fun image _ ↦ sameDirs_refl image

theorem InSync.fileClose (hL : L.Directories) {adfimage : Adfimage Image} (h : InSync L adfimage)
    (file : Option File) : InSync L (adfimageFileClose L adfimage file) := by
  cases file with
  | none => exact h
  | some file => exact h.setImage (hL.fileClose _ _)

theorem sameDirs_afterRead (hL : L.Directories) (size offset : BitVec 64) (image : Image)
    (file : File) : L.SameDirs image (imageAfterRead L size offset image file) := by
  have hseek := hL.fileSeek image file (offset.setWidth 32)
  unfold imageAfterRead
  dsimp only
  split_ifs
  · exact sameDirs_trans hseek (sameDirs_trans (hL.fileRead _ _ _) (hL.fileClose _ _))
  · exact sameDirs_trans hseek (hL.fileClose _ _)

theorem sameDirs_afterWrite (hL : L.Directories) (buffer : List UInt8) (size offset : BitVec 64)
    (image : Image) (file : File) :
    L.SameDirs image (imageAfterWrite L buffer size offset image file) := by
  have hseek := hL.fileSeek image file (offset.setWidth 32)
  unfold imageAfterWrite
  dsimp only
  split_ifs
  · exact sameDirs_trans hseek (sameDirs_trans (hL.fileWrite _ _ _ _) (hL.fileClose _ _))
  · exact sameDirs_trans hseek (hL.fileClose _ _)

theorem InSync.read (hL : L.Directories) {adfimage : Adfimage Image} (h : InSync L adfimage)
    (path : CStr) (size offset : BitVec 64) :
    InSync L (adfimageRead L adfimage path size offset).2.2 := by
  rw [read_snd]
  exact h.afterFile hL path .read (sameDirs_afterRead hL size offset)

theorem InSync.write (hL : L.Directories) {adfimage : Adfimage Image} (h : InSync L adfimage)
    (path : CStr) (buffer : List UInt8) (size offset : BitVec 64) :
    InSync L (adfimageWrite L adfimage path buffer size offset).2 := by
  rw [write_snd]
  exact h.afterFile hL path .write (sameDirs_afterWrite hL buffer size offset)

theorem InSync.truncate (hL : L.Directories) {adfimage : Adfimage Image} (h : InSync L adfimage)
    (path : CStr) (newSize : BitVec 64) :
    InSync L (adfimageFileTruncate L adfimage path newSize).2 := by
  have hopen := h.fileOpen hL path .write
  rw [adfimageFileTruncate]
  generalize adfimageFileOpen L adfimage path .write = opening at hopen ⊢
  rcases opening with ⟨file, after⟩
  cases file with
  | none => exact hopen
  | some file => exact (hopen.setImage (hL.fileTruncate _ _ _)).fileClose hL (some _)

theorem InSync.readlinkEntry {adfimage : Adfimage Image} (h : InSync L adfimage)
    (entryname buffer : CStr) (lenMax : ℕ) :
    InSync L (readlinkEntry L adfimage entryname buffer lenMax).2.2 := by
  unfold FuseAdf.readlinkEntry
  cases L.adfReadEntryBlock adfimage.vol.image adfimage.vol.curDirPtr with
  | none => exact h
  | some parent =>
    dsimp only
    cases L.adfNameToEntryBlk adfimage.vol.image parent.hashTable entryname with
    | none => exact h.record _
    | some entry =>
      dsimp only
      split_ifs
      · exact h.record _
      · split <;> exact h.record _

theorem InSync.readlink {adfimage : Adfimage Image} (h : InSync L adfimage)
    (path buffer : CStr) (lenMax : ℕ) :
    InSync L (adfimageReadlink L adfimage path buffer lenMax).2.2 := by
  have hwalk := h.chdir (dirname path)
  rw [readlink_eq]
  cases namedDir L adfimage (dirname path) with
  | none => exact hwalk
  | some sector =>
    dsimp only
    exact (hwalk.readlinkEntry _ _ _).leaveParent _

end FuseAdf
