import FuseAdf.Adffs.Serving
import FuseAdf.Adflib.Naming

/-!
# The names of a volume over a run

For its users a volume is a table of names.  `Names.Step` says what a callback with its reply means for
this table: which entries may come, go or move, and what must be shown of those that are there.  No other
callback, and no other part of the table, takes part in it.  Every run of callbacks is a run of such
steps; so a name that was made is seen until it is taken away, and one that was taken away is not seen
until it is made again.
-/

namespace FuseAdf

open Adfimage GuardedRun NameWalk

/-- The bits of a mode that say what kind of file it is. -/
def sIfMt : BitVec 32 := 0o170000

/-- The kind of file that a node is shown as. -/
def Node.format (node : Node) : BitVec 32 :=
  match dentryType node.type with
  | .file | .linkfile => sIfReg
  | .directory | .linkdir => sIfDir
  | .softlink => sIfLnk
  | .unknown | .none => 0

namespace Names

variable (root : Sector) (same : CStr → CStr → Bool) (names before after : Names) (path : List CStr)

/-- The directory at the end of the path. -/
def dirAt : Option Sector := walk names.enter root path

/-- The node of a name as it is written, letter for letter. -/
def exact (dir : Sector) (name : CStr) : Option Node :=
  (names dir name).filter fun node ↦ node.name == name

/-- The node at the end of a path; only the case of its last name matters. -/
def find : Option Node := (names.dirAt root path.dropLast).bind fun dir ↦ names.exact dir (entryName path)

/-- The directory a renaming works in: its last name is looked for wherever the others lead to. -/
def dirNear : Option Sector :=
  if path = [] then some root
  else (names.exact (reach names.enter root path.dropLast) (entryName path)).bind Node.target

/-- If anything is new, it has the name at the end of the path, which was free. -/
def Fills : Prop :=
  before.Agree root after fun dir name ↦ before.dirAt root path.dropLast = some dir ∧
    same name (entryName path) ∧ before dir name = none

/-- An entry is made, or not. -/
def Creates (type : AdfSecType) (ret : ℤ) : Prop :=
  before.Fills root same after path ∧
  (ret = 0 → ∃ dir, before.dirAt root path.dropLast = some dir ∧
    before.Adds root after type dir (entryName path))

/-- A file is written to, which is made if it is not there. -/
def Touches (ret : ℤ) : Prop :=
  before.Fills root same after path ∧
  (0 ≤ ret → before.Same root after ∨ ∃ dir, before.dirAt root path.dropLast = some dir ∧
    before.Adds root after .file dir (entryName path))

/-- An entry is taken away, or not. -/
def Removes (ret : ℤ) : Prop :=
  before.Agree root after (fun dir name ↦ before.dirAt root path.dropLast = some dir ∧
    same name (entryName path) ∧ after dir name = none) ∧
  (ret = 0 → ∃ dir, before.dirAt root path.dropLast = some dir ∧
    (before dir (entryName path)).isSome ∧
    ∀ name, same name (entryName path) → after dir name = none)

/-- An entry is given another name, or not. -/
def Renames (srcPath dstPath : List CStr) (ret : ℤ) : Prop :=
  before.Agree root after (fun dir name ↦
    before.dirNear root srcPath.dropLast = some dir ∧ same name (entryName srcPath) ∨
      before.dirNear root dstPath.dropLast = some dir ∧ same name (entryName dstPath)) ∧
  (ret = 0 → ∃ srcDir dstDir, before.dirNear root srcPath.dropLast = some srcDir ∧
    before.dirNear root dstPath.dropLast = some dstDir ∧
    before.Moves root same after srcDir (entryName srcPath) dstDir (entryName dstPath))

/-- What `getattr` answers. -/
def Shows (reply : Reply) : Prop :=
  if path = [] then reply.ret = 0 ∧ reply.stat.stMode &&& sIfMt = sIfDir
  else
    match names.find root path with
    | none => reply.ret = -eNoEnt
    | some node => reply.ret = 0 ∧ reply.stat.stMode &&& sIfMt = node.format

/-- What `readdir` answers; if the filler says before the end that its buffer is full the rest is
missing. -/
def Lists (filler : List CStr → CStr → Bool) (reply : Reply) : Prop :=
  match names.dirAt root path with
  | none => reply.ret = -eNoEnt ∧ reply.names = []
  | some dir => ∃ listed, reply.names = ".".toList :: "..".toList :: listed ∧
      (∀ name ∈ listed, (names.exact dir name).isSome) ∧
      (reply.ret = 0 ∧ (∀ name, (names.exact dir name).isSome → name ∈ listed) ∨
        reply.ret = -eAgain ∧ ∃ handed name, reply.names = handed ++ [name] ∧ filler handed name = true)

/-- What a callback and the reply to it mean. -/
def Step (before : Names) (exchange : Callback × Reply) (after : Names) : Prop :=
  match exchange.1 with
  | .create path => before.Creates root same after (pathNames path) .file exchange.2.ret
  | .mkdir path => before.Creates root same after (pathNames path) .dir exchange.2.ret
  | .unlink path | .rmdir path => before.Removes root same after (pathNames path) exchange.2.ret
  | .rename srcPath dstPath =>
      before.Renames root same after (pathNames srcPath) (pathNames dstPath) exchange.2.ret
  | .getattr path => before.Same root after ∧ before.Shows root (pathNames path) exchange.2
  | .readdir path filler => before.Same root after ∧ before.Lists root (pathNames path) filler exchange.2
  | .write path _ _ _ => before.Touches root same after (pathNames path) exchange.2.ret
  | .truncate path _ => before.Touches root same after (pathNames path) exchange.2.ret
  | _ => before.Same root after

variable {root same names before after path} {names' between : Names} {dir : Sector} {ret : ℤ}

/-- Where one can get to in the first table, all that is found is also found in the second. -/
def Within (root : Sector) (names names' : Names) : Prop :=
  ∀ dir, names.Live root dir → ∀ name node, names dir name = some node → names' dir name = some node

theorem Same.within (h : before.Same root after) : before.Within root after :=
  fun dir hlive name _ hnode ↦ (h dir hlive name).trans hnode

theorem Within.dirAt (h : names.Within root names') (hdir : names.dirAt root path = some dir) :
    names'.dirAt root path = some dir := by
  refine walk_mono_reachable (fun place hplace name next hnext ↦ ?_) hdir
  obtain ⟨node, hnode, htarget⟩ := Option.bind_eq_some_iff.mp hnext
  rw [enter, h place hplace name node hnode, Option.bind_some, htarget]

theorem Within.live (h : names.Within root names') (hlive : names.Live root dir) :
    names'.Live root dir := by
  obtain ⟨path, hpath⟩ := hlive
  exact .of_walk (h.dirAt hpath)

theorem Fills.within (h : before.Fills root same after path) : before.Within root after := by
  intro dir hlive name node hnode
  rcases h dir hlive name with hsame | ⟨-, -, hnone⟩
  · exact hsame.trans hnode
  · rw [hnone] at hnode
    cases hnode

/-- What has been touched may afterwards be worked with. -/
theorem Touches.trans (h : before.Touches root same between path ret) (h' : between.Same root after) :
    before.Touches root same after path ret := by
  have hlater {dir : Sector} (hlive : before.Live root dir) (name : CStr) :
      after dir name = between dir name := h' dir (h.1.within.live hlive) name
  refine ⟨fun dir hlive name ↦ ?_, fun hret ↦ (h.2 hret).imp (fun hsame ↦ hsame.trans h') ?_⟩
  · rw [hlater hlive]
    exact h.1 dir hlive name
  · rintro ⟨dir, hdir, hfree, node, hnode, hname, htype, hnew, -⟩
    have hlive : before.Live root dir := .of_walk hdir
    exact ⟨dir, hdir, hfree, node, (hlater hlive _).trans hnode, hname, htype, hnew,
      fun hdirectory ↦ by cases hdirectory⟩

end Names

section Lookups

variable {α : Type}

/-- Where no two elements meet a condition, one that does is found. -/
theorem find?_of_pairwise {p : α → Bool} {l : List α} {a : α} (h : l.Pairwise fun x y ↦ ¬ (p x ∧ p y))
    (hmem : a ∈ l) (ha : p a = true) : l.find? p = some a := by
  induction l with
  | nil => cases hmem
  | cons x l ih =>
    rw [List.find?_cons]
    rw [List.pairwise_cons] at h
    rcases List.mem_cons.mp hmem with rfl | hrest
    · rw [ha]
    · have hx : p x = false := by
        by_contra hx
        exact h.1 a hrest ⟨eq_true_of_ne_false hx, ha⟩
      rw [hx]
      exact ih h.2 hrest

end Lookups

variable {Image File : Type} {L : Adflib Image File} {mount : Mount}
  {naming : L.Naming mount.rootBlock} {image image' : Image}

theorem exact_eq (hsound : naming.Sound image) {dir : Sector}
    (hlive : (L.names image).Live mount.rootBlock dir) (name : CStr) :
    (adflibListFind name (L.adfGetDirEnt image dir)).map AdfEntry.node =
      (L.names image).exact dir name := by
  have hunique : (L.adfGetDirEnt image dir).Pairwise fun entry entry' ↦
      ¬ (L.sameName name entry.name ∧ L.sameName name entry'.name) := by
    refine (naming.unique image dir hsound hlive).imp fun {entry entry'} hne hboth ↦ ?_
    exact hne (naming.same_trans _ _ _ (naming.same_symm _ _ hboth.1) hboth.2)
  rw [Names.exact, Adflib.names, Adflib.lookupName, adflibListFind_eq_find]
  cases hfind : (L.adfGetDirEnt image dir).find? (fun entry ↦ entry.name == name) with
  | some entry =>
    have hname : entry.name = name := by simpa using List.find?_some hfind
    have hsame : L.sameName name entry.name = true := by
      rw [hname]
      exact naming.same_refl name
    rw [find?_of_pairwise hunique (List.mem_of_find?_eq_some hfind) hsame]
    simp [AdfEntry.node, Option.filter, hname]
  | none =>
    cases hlookup : (L.adfGetDirEnt image dir).find? (fun entry ↦ L.sameName name entry.name) with
    | none => rfl
    | some entry =>
      have hname := List.find?_eq_none.mp hfind entry (List.mem_of_find?_eq_some hlookup)
      simp only [Option.map_none, Option.map_some, AdfEntry.node, Option.filter]
      rw [if_neg (by simpa using hname)]

/-- A name finds what the names find that the lookups do not tell from it. -/
theorem names_congr {root : Sector} (naming : L.Naming root) {dir : Sector} {name name' : CStr}
    (h : L.sameName name name' = true) : L.names image dir name = L.names image dir name' := by
  simp only [Adflib.names, Adflib.lookupName]
  congr 2
  funext entry
  exact Bool.eq_iff_iff.mpr ⟨naming.same_trans _ _ _ (naming.same_symm _ _ h), naming.same_trans _ _ _ h⟩

theorem dirAt_eq (hsound : naming.Sound image) (path : List CStr) :
    mount.dirAt L image path = (L.names image).dirAt mount.rootBlock path :=
  walk_congr_reachable (fun dir hlive name ↦ naming.changeDir image dir name hsound hlive) path

theorem reach_eq (hsound : naming.Sound image) (path : List CStr) :
    mount.dirNear L image path = reach (L.names image).enter mount.rootBlock path :=
  reach_congr_reachable (fun dir hlive name ↦ naming.changeDir image dir name hsound hlive) path

theorem live_of_dirAt {root : Sector} {names : Names} {path : List CStr} {dir : Sector}
    (h : names.dirAt root path = some dir) : names.Live root dir := .of_walk h

theorem live_of_dirNear {root : Sector} {names : Names} {path : List CStr} {dir : Sector}
    (h : names.dirNear root path = some dir) : names.Live root dir := by
  rw [Names.dirNear] at h
  split_ifs at h
  · obtain rfl := Option.some.inj h
    exact .refl _ _
  · obtain ⟨node, hnode, htarget⟩ := Option.bind_eq_some_iff.mp h
    obtain ⟨hnames, -⟩ := Option.filter_eq_some_iff.mp hnode
    have hnext : names.enter (reach names.enter root path.dropLast) (entryName path) = some dir := by
      rw [Names.enter, hnames, Option.bind_some, htarget]
    exact (Reachable.reach names.enter root path.dropLast).step hnext

/-- Whatever is done with a file that is opened for reading. -/
theorem names_withFile (hsound : naming.Sound image) (path : List CStr) {α : Type} (failure : α)
    {use : Image → File → α × Image}
    (huse : ∀ opened file, naming.Sound opened → naming.Unchanged opened (use opened file).2) :
    naming.Unchanged image (mount.withFile L image path .read failure use).2 := by
  rw [Mount.withFile]
  cases mount.dirAt L image path.dropLast with
  | none => exact .refl hsound
  | some dir =>
    have hopen : naming.Unchanged image (L.adfFileOpen image dir (entryName path) .read).1 :=
      naming.openRead image dir (entryName path) hsound
    dsimp only
    generalize L.adfFileOpen image dir (entryName path) .read = result at hopen ⊢
    rcases result with ⟨opened, _ | file⟩
    · exact hopen
    · exact hopen.trans (huse opened file hopen.1)

theorem names_open (hsound : naming.Sound image) (path : List CStr) :
    naming.Unchanged image (mount.open L image path).2 :=
  names_withFile hsound path (-1) fun opened file hopened ↦ naming.fileClose opened file hopened

theorem names_read (hsound : naming.Sound image) (path : List CStr) (size offset : BitVec 64) :
    naming.Unchanged image (mount.read L image path size offset).2 := by
  apply names_withFile hsound path
  intro opened file hopened
  have hseek : naming.Unchanged opened (L.adfFileSeek opened file (offset.setWidth 32)).1 :=
    naming.fileSeek opened file _ hopened
  rcases hresult : L.adfFileSeek opened file (offset.setWidth 32) with ⟨sought, file', rc⟩
  rw [hresult] at hseek
  dsimp only at hseek ⊢
  split_ifs
  · exact (hseek.trans (naming.fileRead sought file' _ hseek.1)).trans
      (naming.fileClose _ _ (naming.fileRead sought file' _ hseek.1).1)
  · exact hseek.trans (naming.fileClose sought file' hseek.1)

theorem names_chmod (hsound : naming.Sound image) (path : List CStr) (mode : BitVec 32) :
    naming.Unchanged image (mount.chmod L image path mode).2 := by
  rw [Mount.chmod]
  dsimp only
  split_ifs
  · exact .refl hsound
  · cases hread : L.adfReadEntryBlock image (mount.dentryNear L image path).adflibEntry.sector with
    | none => exact .refl hsound
    | some block =>
      exact naming.changeAccess image _ block (setpermAccess L (chmodPerms mode) block.access) hsound
        hread

theorem format_root : rootMode &&& sIfMt = sIfDir := by decide

theorem format_softlink : softlinkMode &&& sIfMt = sIfLnk := by decide

theorem format_file (perms : BitVec 32) : fileMode perms &&& sIfMt = sIfReg := by
  unfold fileMode
  split_ifs <;> decide

theorem format_directory (perms : BitVec 32) : directoryMode perms &&& sIfMt = sIfDir := by
  unfold directoryMode
  split_ifs <;> decide

/-- The attributes are those of the kind of the entry. -/
theorem statIn_shows (hsound : naming.Sound image) (path : List CStr) (dir : Sector)
    (dentry : Option AdfEntry) :
    naming.Unchanged image (mount.statIn L image path dir (dentryOf dentry)).2 ∧
      (mount.statIn L image path dir (dentryOf dentry)).1.map (·.stMode &&& sIfMt) =
        dentry.map fun entry ↦ entry.node.format := by
  cases dentry with
  | none => exact ⟨.refl hsound, rfl⟩
  | some entry =>
    unfold Mount.statIn
    dsimp only [dentryOf, Node.format, AdfEntry.node, Option.map_some]
    cases hkind : dentryType entry.type with
    | none => exact absurd hkind (dentryType_ne_none _)
    | file | linkfile =>
      have hopen : naming.Unchanged image (L.adfFileOpen image dir (entryName path) .read).1 :=
        naming.openRead image dir (entryName path) hsound
      dsimp only
      generalize L.adfFileOpen image dir (entryName path) .read = result at hopen ⊢
      rcases result with ⟨opened, _ | file⟩
      · exact ⟨hopen, congrArg some (format_file _)⟩
      · exact ⟨hopen.trans (naming.fileClose opened file hopen.1), congrArg some (format_file _)⟩
    | directory | linkdir => exact ⟨.refl hsound, congrArg some (format_directory _)⟩
    | softlink => exact ⟨.refl hsound, congrArg some format_softlink⟩
    | unknown => exact ⟨.refl hsound, rfl⟩

theorem getattr_shows (env : Env) (hsound : naming.Sound image) (path : List CStr) (here : Sector) :
    naming.Unchanged image (mount.getattr L env image path here).2 ∧
      (L.names image).Shows mount.rootBlock path
        { Reply.status (mount.getattr L env image path here).1.1 with
          stat := (mount.getattr L env image path here).1.2 } := by
  rw [Mount.getattr, Names.Shows, Names.find, ← dirAt_eq hsound]
  split_ifs with hroot
  · exact ⟨.refl hsound, rfl, format_root⟩
  · cases hdir : mount.dirAt L image path.dropLast with
    | none => exact ⟨.refl hsound, rfl⟩
    | some dir =>
      have hlive : (L.names image).Live mount.rootBlock dir :=
        live_of_dirAt ((dirAt_eq hsound _).symm.trans hdir)
      rw [Option.bind_some, ← exact_eq hsound hlive]
      dsimp only
      generalize adflibListFind (entryName path) (L.adfGetDirEnt image dir) = entry
      obtain ⟨hunchanged, hmode⟩ :
          naming.Unchanged image (mount.statIn L image path dir (dentryOf entry)).2 ∧
            (mount.statIn L image path dir (dentryOf entry)).1.map (·.stMode &&& sIfMt) =
              entry.map fun entry ↦ entry.node.format := statIn_shows hsound path dir entry
      generalize mount.statIn L image path dir (dentryOf entry) = result at hunchanged hmode ⊢
      rcases result with ⟨_ | statbuf, after⟩
      · cases entry with
        | none => exact ⟨hunchanged, rfl⟩
        | some entry => cases hmode
      · cases entry with
        | none => cases hmode
        | some entry => exact ⟨hunchanged, rfl, Option.some.inj hmode⟩

/-- The loop of `adffs_readdir` hands over the first names, and all unless the buffer gets full. -/
theorem readdirLoop_eq (filler : List CStr → CStr → Bool) (handed : List CStr)
    (entries : List AdfEntry) :
    ∃ front, front <+: entries ∧
      (readdirLoop filler handed entries).2 = handed ++ front.map AdfEntry.name ∧
      ((readdirLoop filler handed entries).1 = true → front = entries) ∧
      ((readdirLoop filler handed entries).1 = false → ∃ before name,
        (readdirLoop filler handed entries).2 = before ++ [name] ∧ filler before name = true) := by
  induction entries generalizing handed with
  | nil =>
    refine ⟨[], List.prefix_rfl, ?_, fun _ ↦ rfl, fun hfalse ↦ by cases hfalse⟩
    rw [readdirLoop, List.map_nil, List.append_nil]
  | cons entry entries ih =>
    rw [readdirLoop]
    split_ifs with hfull
    · refine ⟨[entry], ?_, rfl, fun hend ↦ absurd hend (by simp), fun _ ↦ ⟨handed, _, rfl, hfull⟩⟩
      rw [List.cons_prefix_cons]
      exact ⟨rfl, List.nil_prefix⟩
    · obtain ⟨front, hfront, hnames, hall, hrest⟩ := ih (handed ++ [entry.name])
      refine ⟨entry :: front, ?_, ?_, fun hend ↦ congrArg _ (hall hend), hrest⟩
      · rw [List.cons_prefix_cons]
        exact ⟨rfl, hfront⟩
      · rw [hnames, List.map_cons, List.append_assoc, List.singleton_append]

theorem isSome_exact_iff (hsound : naming.Sound image) {dir : Sector}
    (hlive : (L.names image).Live mount.rootBlock dir) (name : CStr) :
    ((L.names image).exact dir name).isSome ↔
      name ∈ (L.adfGetDirEnt image dir).map AdfEntry.name := by
  rw [← exact_eq hsound hlive, Option.isSome_map, adflibListFind_eq_find, List.find?_isSome]
  simp

theorem readdir_lists (hsound : naming.Sound image) (path : List CStr)
    (filler : List CStr → CStr → Bool) :
    (L.names image).Lists mount.rootBlock path filler
      { Reply.status (mount.readdir L image path filler).1 with
        names := (mount.readdir L image path filler).2 } := by
  rw [Mount.readdir, Names.Lists, ← dirAt_eq hsound]
  cases hdir : mount.dirAt L image path with
  | none => exact ⟨rfl, rfl⟩
  | some dir =>
    have hlive : (L.names image).Live mount.rootBlock dir :=
      live_of_dirAt ((dirAt_eq hsound _).symm.trans hdir)
    obtain ⟨front, hfront, hnames, hall, hrest⟩ :=
      readdirLoop_eq filler [".".toList, "..".toList] (L.adfGetDirEnt image dir)
    refine ⟨front.map AdfEntry.name, hnames, fun name hname ↦ ?_, ?_⟩
    · rw [isSome_exact_iff hsound hlive]
      exact (hfront.map _).subset hname
    · dsimp only
      split_ifs with hend
      · left
        refine ⟨rfl, fun name hname ↦ ?_⟩
        rw [hall hend]
        exact (isSome_exact_iff hsound hlive name).mp hname
      · exact Or.inr ⟨rfl, hrest (eq_false_of_ne_true hend)⟩

/-- A name that is taken in the directory of the path takes it at the end of the path. -/
theorem fills_of_agree {root dir : Sector} {same : CStr → CStr → Bool} {before after : Names}
    {path : List CStr} (hdir : before.dirAt root path.dropLast = some dir)
    (h : before.Agree root after fun dir' name ↦
      dir' = dir ∧ same name (entryName path) ∧ before dir' name = none) :
    before.Fills root same after path := by
  intro dir' hlive name
  rcases h dir' hlive name with hsame | ⟨rfl, hexcept⟩
  · exact Or.inl hsame
  · exact Or.inr ⟨hdir, hexcept⟩

/-- An entry is made by `adfCreateFile` or `adfCreateDir`. -/
theorem changeEntry_creates (hsound : naming.Sound image) {path : List CStr} {type : AdfSecType}
    {call : Image → Sector → CStr → Image × RetCode} (result : RetCode → ℤ)
    (hresult : ∀ rc, result rc = 0 → rc = adfRcOk)
    (hcall : ∀ dir, (L.names image).Live mount.rootBlock dir →
      naming.Sound (call image dir (entryName path)).1 ∧
        (L.names image).Agree mount.rootBlock (L.names (call image dir (entryName path)).1)
          (fun dir' name ↦ dir' = dir ∧ L.sameName name (entryName path) ∧
            L.names image dir' name = none) ∧
        ((call image dir (entryName path)).2 = adfRcOk → (L.names image).Adds mount.rootBlock
          (L.names (call image dir (entryName path)).1) type dir (entryName path))) :
    naming.Sound (mount.changeEntry L image path call result).2 ∧
      (L.names image).Creates mount.rootBlock L.sameName
        (L.names (mount.changeEntry L image path call result).2) path type
        (mount.changeEntry L image path call result).1 := by
  rw [Mount.changeEntry, Names.Creates, ← dirAt_eq hsound]
  cases hdir : mount.dirAt L image path.dropLast with
  | none => exact ⟨hsound, (Names.Same.refl _).agree _, fun hfailed ↦
      absurd hfailed (show -eNoEnt ≠ 0 by decide)⟩
  | some dir =>
    obtain ⟨hsound', hagree, hadds⟩ :=
      hcall dir (live_of_dirAt ((dirAt_eq hsound _).symm.trans hdir))
    exact ⟨hsound', fills_of_agree ((dirAt_eq hsound _).symm.trans hdir) hagree,
      fun hmade ↦ ⟨dir, rfl, hadds (hresult _ hmade)⟩⟩

/-- A file that is opened for writing may have been made by that. -/
theorem touches_withFile (hsound : naming.Sound image) {path : List CStr} {failure : ℤ}
    (hshort : (entryName path).length ≤ Adflib.adfMaxNameLen) (hfailure : failure < 0)
    {use : Image → File → ℤ × Image}
    (huse : ∀ opened file, naming.Sound opened → naming.Unchanged opened (use opened file).2) :
    naming.Sound (mount.withFile L image path .write failure use).2 ∧
      (L.names image).Touches mount.rootBlock L.sameName
        (L.names (mount.withFile L image path .write failure use).2) path
        (mount.withFile L image path .write failure use).1 := by
  rw [Mount.withFile]
  cases hdir : mount.dirAt L image path.dropLast with
  | none => exact ⟨hsound, (Names.Same.refl _).agree _, fun _ ↦ Or.inl (.refl _)⟩
  | some dir =>
    have hdir' := (dirAt_eq hsound _).symm.trans hdir
    obtain ⟨hsound', hagree, hadds⟩ :=
      naming.openWrite image dir (entryName path) hsound (live_of_dirAt hdir') hshort
    have hfills := fills_of_agree hdir' hagree
    dsimp only
    generalize L.adfFileOpen image dir (entryName path) .write = result at hsound' hfills hadds ⊢
    rcases result with ⟨opened, _ | file⟩
    · exact ⟨hsound', hfills, fun hret ↦ absurd hret (Int.not_le.mpr hfailure)⟩
    · obtain ⟨hused, hsame⟩ := huse opened file hsound'
      have htouched : (L.names image).Touches mount.rootBlock L.sameName (L.names opened) path
          (use opened file).1 :=
        ⟨hfills, fun _ ↦ (hadds rfl).imp id fun hnew ↦ ⟨dir, hdir', hnew⟩⟩
      exact ⟨hused, htouched.trans hsame⟩

theorem write_touches (hsound : naming.Sound image) {path : List CStr} (buffer : List UInt8)
    (size offset : BitVec 64) (hshort : (entryName path).length ≤ Adflib.adfMaxNameLen) :
    naming.Sound (mount.write L image path buffer size offset).2 ∧
      (L.names image).Touches mount.rootBlock L.sameName
        (L.names (mount.write L image path buffer size offset).2) path
        (mount.write L image path buffer size offset).1 := by
  apply touches_withFile hsound hshort (by decide)
  intro opened file hopened
  have hseek : naming.Unchanged opened (L.adfFileSeek opened file (offset.setWidth 32)).1 :=
    naming.fileSeek opened file _ hopened
  rcases hresult : L.adfFileSeek opened file (offset.setWidth 32) with ⟨sought, file', rc⟩
  rw [hresult] at hseek
  dsimp only at hseek ⊢
  split_ifs
  · exact (hseek.trans (naming.fileWrite sought file' _ buffer hseek.1)).trans
      (naming.fileClose _ _ (naming.fileWrite sought file' _ buffer hseek.1).1)
  · exact hseek.trans (naming.fileClose sought file' hseek.1)

theorem truncate_touches (hsound : naming.Sound image) {path : List CStr} (newSize : BitVec 64)
    (hshort : (entryName path).length ≤ Adflib.adfMaxNameLen) :
    naming.Sound (mount.truncate L image path newSize).2 ∧
      (L.names image).Touches mount.rootBlock L.sameName
        (L.names (mount.truncate L image path newSize).2) path
        (mount.truncate L image path newSize).1 := by
  apply touches_withFile hsound hshort (by decide)
  intro opened file hopened
  have hcut : naming.Unchanged opened (L.adfFileTruncate opened file (newSize.setWidth 32)).1 :=
    naming.fileTruncate opened file _ hopened
  exact hcut.trans (naming.fileClose _ _ hcut.1)

theorem changeEntry_removes (hsound : naming.Sound image) (path : List CStr) :
    naming.Sound (mount.changeEntry L image path L.adfRemoveEntry id).2 ∧
      (L.names image).Removes mount.rootBlock L.sameName
        (L.names (mount.changeEntry L image path L.adfRemoveEntry id).2) path
        (mount.changeEntry L image path L.adfRemoveEntry id).1 := by
  rw [Mount.changeEntry, Names.Removes, ← dirAt_eq hsound]
  cases hdir : mount.dirAt L image path.dropLast with
  | none => exact ⟨hsound, (Names.Same.refl _).agree _, fun hfailed ↦
      absurd hfailed (show -eNoEnt ≠ 0 by decide)⟩
  | some dir =>
    obtain ⟨hsound', hagree, hremoved⟩ := naming.removeEntry image dir (entryName path) hsound
      (live_of_dirAt ((dirAt_eq hsound _).symm.trans hdir))
    refine ⟨hsound', fun dir' hlive name ↦ ?_, fun hdone ↦ ?_⟩
    · rcases hagree dir' hlive name with hsame | ⟨rfl, hexcept⟩
      · exact Or.inl hsame
      · exact Or.inr ⟨rfl, hexcept⟩
    · obtain ⟨hthere, hnone⟩ := hremoved hdone
      exact ⟨dir, rfl, hthere, fun name hsame ↦ (names_congr naming hsame).trans hnone⟩

/-- What passes for a parent directory is entered where a renaming works. -/
theorem target_eq_parentSector {entry : AdfEntry} (hne : entry.type ≠ .root)
    (h : checkParent (dentryOf (some entry)) = none) :
    entry.node.target = some (parentSector (dentryOf (some entry))) := by
  have hkind : entry.type = .dir ∨ entry.type = .ldir := by
    by_contra hneither
    obtain ⟨hdir, hldir⟩ := not_or.mp hneither
    have htype : dentryType entry.type ≠ .directory ∧ dentryType entry.type ≠ .linkdir := by
      unfold dentryType
      simp only [hne, hdir, hldir, or_self, if_false]
      split_ifs <;> decide
    rw [checkParent, dentryOf, if_neg (dentryType_ne_none _), if_pos htype] at h
    cases h
  rcases hkind with htype | htype <;>
    simp [Node.target, AdfEntry.node, parentSector, dentryOf, dentryType, htype]

/-- Where a renaming does not give up, it works in these directories. -/
theorem dirNear_eq (hsound : naming.Sound image) {path : List CStr}
    (h : checkParent (mount.dentryNear L image path) = none) :
    (L.names image).dirNear mount.rootBlock path =
      some (parentSector (mount.dentryNear L image path)) := by
  unfold Mount.dentryNear at h ⊢
  rw [Names.dirNear]
  split_ifs at h ⊢ with hroot
  · unfold Mount.rootDentry at h ⊢
    split at h
    · cases h
    · split_ifs at h ⊢
      · rfl
      · cases h
  · have hlive : (L.names image).Live mount.rootBlock (mount.dirNear L image path.dropLast) := by
      rw [reach_eq hsound]
      exact .reach _ _ _
    rw [← reach_eq hsound, ← exact_eq hsound hlive]
    cases hentry : adflibListFind (entryName path)
        (L.adfGetDirEnt image (mount.dirNear L image path.dropLast)) with
    | none =>
      rw [hentry] at h
      cases h
    | some entry =>
      have hnode : L.names image (mount.dirNear L image path.dropLast) (entryName path) =
          some entry.node := by
        have hexact := exact_eq hsound hlive (entryName path)
        rw [hentry] at hexact
        exact (Option.filter_eq_some_iff.mp hexact.symm).1
      have hne := naming.ne_root image _ _ _ hsound hlive hnode
      rw [hentry] at h
      exact target_eq_parentSector hne h

theorem checkParent_ne_zero {dentry : AdfimageDentry} {error : ℤ}
    (h : checkParent dentry = some error) : error ≠ 0 := by
  rw [checkParent] at h
  split_ifs at h <;> (obtain rfl := Option.some.inj h; decide)

theorem rename_renames (hsound : naming.Sound image) (srcPath : List CStr) {dstPath : List CStr}
    (hlength : (entryName dstPath).length ≤ Adflib.adfMaxNameLen) :
    naming.Sound (mount.rename L image srcPath dstPath).2 ∧
      (L.names image).Renames mount.rootBlock L.sameName
        (L.names (mount.rename L image srcPath dstPath).2) srcPath dstPath
        (mount.rename L image srcPath dstPath).1 := by
  have hunchanged {ret : ℤ} (hret : ret ≠ 0) : (L.names image).Renames mount.rootBlock L.sameName
      (L.names image) srcPath dstPath ret :=
    ⟨(Names.Same.refl _).agree _, fun hdone ↦ absurd hdone hret⟩
  rw [Mount.rename]
  dsimp only
  cases hsrc : checkParent (mount.dentryNear L image srcPath.dropLast) with
  | some error => exact ⟨hsound, hunchanged (checkParent_ne_zero hsrc)⟩
  | none =>
    cases hdst : checkParent (mount.dentryNear L image dstPath.dropLast) with
    | some error => exact ⟨hsound, hunchanged (checkParent_ne_zero hdst)⟩
    | none =>
      have hsrcDir := dirNear_eq hsound hsrc
      have hdstDir := dirNear_eq hsound hdst
      dsimp only [Option.or]
      by_cases hlow : parentSector (mount.dentryNear L image srcPath.dropLast) < 2 ∨
          parentSector (mount.dentryNear L image dstPath.dropLast) < 2
      · rw [if_pos hlow]
        exact ⟨hsound, hunchanged (show (-1 : ℤ) ≠ 0 by decide)⟩
      · rw [if_neg hlow]
        obtain ⟨hsound', hagree, hmoves⟩ := naming.renameEntry image _ (entryName srcPath) _
          (entryName dstPath) hsound (live_of_dirNear hsrcDir) (live_of_dirNear hdstDir) hlength
        refine ⟨hsound', fun dir hlive name ↦ ?_, fun hdone ↦
          ⟨_, _, hsrcDir, hdstDir, hmoves ?_⟩⟩
        · rcases hagree dir hlive name with hsame | ⟨rfl, hname⟩ | ⟨rfl, hname⟩
          · exact Or.inl hsame
          · exact Or.inr (Or.inl ⟨hsrcDir, hname⟩)
          · exact Or.inr (Or.inr ⟨hdstDir, hname⟩)
        · by_contra hfailed
          dsimp only at hdone
          rw [if_neg hfailed] at hdone
          cases hdone

/-! ## Runs -/

/-- Names that may be new are not too long for the volume. -/
def Callback.NamesShort : Callback → Prop
  | .create path | .mkdir path | .rename _ path | .write path _ _ _ | .truncate path _ =>
      (entryName (pathNames path)).length ≤ Adflib.adfMaxNameLen
  | _ => True

variable {env : Env}

/-- An answer of the server is a step of the table. -/
theorem serve_names {here : Sector} {callback : Callback} {reply : Reply}
    (hsound : naming.Sound image) (hshort : callback.NamesShort)
    (h : callback.serve L env mount here image = some (reply, image')) :
    naming.Sound image' ∧
      (L.names image).Step mount.rootBlock L.sameName (callback, reply) (L.names image') := by
  cases callback with
  | getattr path =>
    obtain ⟨rfl, rfl⟩ := Prod.mk.inj (Option.some.inj h)
    obtain ⟨hunchanged, hshows⟩ := getattr_shows env hsound (pathNames path) here
    exact ⟨hunchanged.1, hunchanged.2, hshows⟩
  | readdir path filler =>
    obtain ⟨rfl, rfl⟩ := Prod.mk.inj (Option.some.inj h)
    exact ⟨hsound, .refl _, readdir_lists hsound (pathNames path) filler⟩
  | mkdir path =>
    obtain ⟨rfl, rfl⟩ := Prod.mk.inj (Option.some.inj h)
    exact changeEntry_creates hsound id (fun rc hrc ↦ hrc)
      fun dir hlive ↦ naming.createDir image dir _ hsound hlive hshort
  | create path =>
    obtain ⟨rfl, rfl⟩ := Prod.mk.inj (Option.some.inj h)
    refine changeEntry_creates hsound (fun rc ↦ if rc = adfRcOk then 0 else -1) (fun rc hrc ↦ ?_)
      fun dir hlive ↦ naming.createFile image dir _ hsound hlive hshort
    by_contra hfailed
    rw [if_neg hfailed] at hrc
    cases hrc
  | unlink path | rmdir path =>
    obtain ⟨rfl, rfl⟩ := Prod.mk.inj (Option.some.inj h)
    exact changeEntry_removes hsound (pathNames path)
  | rename srcPath dstPath =>
    rw [Callback.serve] at h
    split_ifs at h
    obtain ⟨rfl, rfl⟩ := Prod.mk.inj (Option.some.inj h)
    exact rename_renames hsound (pathNames srcPath) hshort
  | chmod path mode =>
    obtain ⟨-, rfl⟩ := Prod.mk.inj (Option.some.inj h)
    exact names_chmod hsound (pathNames path) mode
  | truncate path newSize =>
    obtain ⟨rfl, rfl⟩ := Prod.mk.inj (Option.some.inj h)
    exact truncate_touches hsound newSize hshort
  | «open» path =>
    obtain ⟨-, rfl⟩ := Prod.mk.inj (Option.some.inj h)
    exact names_open hsound (pathNames path)
  | read path size offset =>
    obtain ⟨-, rfl⟩ := Prod.mk.inj (Option.some.inj h)
    exact names_read hsound (pathNames path) size offset
  | write path buffer size offset =>
    obtain ⟨rfl, rfl⟩ := Prod.mk.inj (Option.some.inj h)
    exact write_touches hsound buffer size offset hshort
  | readlink path buf len =>
    obtain ⟨-, rfl⟩ := Prod.mk.inj (Option.some.inj h)
    exact ⟨hsound, .refl _⟩
  | chown path | statfs path | utimens path =>
    obtain ⟨-, rfl⟩ := Prod.mk.inj (Option.some.inj h)
    exact ⟨hsound, .refl _⟩

/-- What may be asked for in a run. -/
def AsksNames (exchange : Callback × Reply) : Prop := exchange.1.FromFuse ∧ exchange.1.NamesShort

theorem names_of_returns {start last : Adfimage Image} {exchanges : List (Callback × Reply)}
    {Guard : Names → Callback × Reply → Prop}
    (hguard : ∀ names exchange, Guard names exchange → AsksNames exchange)
    (naming : L.Naming start.vol.rootBlock) (hsound : naming.Sound start.vol.image)
    (hrun : Run (Callback.Returns L env) (fun adfimage ↦ Guard (L.names adfimage.vol.image)) start
      exchanges last) :
    Run (Names.Step start.vol.rootBlock L.sameName) Guard (L.names start.vol.image)
      exchanges (L.names last.vol.image) := by
  obtain ⟨names, hsteps, -, -, rfl⟩ : ∃ names,
      Run (Names.Step start.vol.rootBlock L.sameName) Guard (L.names start.vol.image)
        exchanges names ∧
      naming.Sound last.vol.image ∧ last.mount = start.mount ∧ names = L.names last.vol.image := by
    apply hrun.simulate (fun adfimage names ↦ naming.Sound adfimage.vol.image ∧
      adfimage.mount = start.mount ∧ names = L.names adfimage.vol.image) _ ⟨hsound, rfl, rfl⟩
    rintro before _ ⟨callback, reply⟩ after ⟨hsound, hmount, rfl⟩ hmeets hreturns
    obtain ⟨hfuse, hshort⟩ := hguard _ _ hmeets
    obtain ⟨⟨here, hserve⟩, hafter⟩ := hreturns.serves hfuse
    rw [hmount] at hserve
    obtain ⟨hsound', hstep⟩ := serve_names hsound hshort hserve
    exact ⟨hmeets, _, hstep, hsound', hafter.trans hmount, rfl⟩
  exact hsteps

variable (env)

/-- Whatever paths inside of the mount point are asked for, the names go through a run as the replies
say, and nothing else happens to them.  A name that is to be made has at most `adfMaxNameLen`
characters, since a longer one is cut. -/
theorem names_follow (start last : Adfimage Image) (exchanges : List (Callback × Reply))
    (naming : L.Naming start.vol.rootBlock) (hsound : naming.Sound start.vol.image)
    (hrun : Run (Callback.Returns L env) (fun _ ↦ AsksNames) start exchanges last) :
    Run (Names.Step start.vol.rootBlock L.sameName) (fun _ _ ↦ True) (L.names start.vol.image)
      exchanges (L.names last.vol.image) :=
  (names_of_returns (fun _ _ hasks ↦ hasks) naming hsound hrun).restrict fun _ _ ↦ trivial

theorem names_follow_new :
    Run (Names.Step 880 RamDisk.sameName) (fun _ _ ↦ True) (RamDisk.lib.names RamDisk.sample)
      [(.create "/Plot/new".toList, .status 0), (.unlink "/Plot/NEW".toList, .status 0)]
      (RamDisk.lib.names
        (adfimageUnlink RamDisk.lib
          (adfimageCreate RamDisk.lib RamDisk.mounted "/Plot/new".toList).2
          "/Plot/NEW".toList).2.vol.image) :=
  names_follow default RamDisk.mounted _ _ (RamDisk.naming 880) RamDisk.tidy_sample
    (.cons ⟨⟨by decide, by decide, by decide⟩,
        show (entryName (pathNames "/Plot/new".toList)).length ≤ 30 by decide⟩ ⟨0, rfl⟩
      (.single ⟨⟨by decide, by decide, by decide⟩, trivial⟩ ⟨0, rfl⟩))

/-! ## What is seen -/

namespace Names

variable {root : Sector} {same : CStr → CStr → Bool} {names names' before after last : Names}
  {path : List CStr} {node : Node} {dir : Sector}

theorem find_eq_some_iff : names.find root path = some node ↔
    ∃ dir, names.dirAt root path.dropLast = some dir ∧ names dir (entryName path) = some node ∧
      node.name = entryName path := by
  simp [find, exact, Option.bind_eq_some_iff, Option.filter_eq_some_iff]

theorem Within.find (h : names.Within root names') (hfind : names.find root path = some node) :
    names'.find root path = some node := by
  obtain ⟨dir, hdir, hnode, hname⟩ := find_eq_some_iff.mp hfind
  exact find_eq_some_iff.mpr ⟨dir, h.dirAt hdir, h dir (live_of_dirAt hdir) _ node hnode, hname⟩

/-- Where the directories have got nothing new, there is no new way to anywhere. -/
theorem within_of_shrinks (h : ∀ dir, before.Live root dir → ∀ name node,
    after dir name = some node → before dir name = some node) : after.Within root before := by
  intro dir hafter
  have hlive : before.Live root dir := by
    refine Reachable.induction (motive := before.Live root) (.refl _ _) ?_ hafter
    intro place name next hplace hnext
    obtain ⟨node, hnode, htarget⟩ := Option.bind_eq_some_iff.mp hnext
    have hbefore : before.enter place name = some next := by
      rw [enter, h place hplace name node hnode, Option.bind_some, htarget]
    exact Reachable.step hplace hbefore
  exact h dir hlive

theorem Removes.within {ret : ℤ} (h : before.Removes root same after path ret) :
    after.Within root before := by
  refine within_of_shrinks fun dir hlive name node hnode ↦ ?_
  rcases h.1 dir hlive name with hsame | ⟨-, -, hnone⟩
  · exact hsame.symm.trans hnode
  · rw [hnone] at hnode
    cases hnode

theorem Creates.find {type : AdfSecType} {ret : ℤ} (h : before.Creates root same after path type ret)
    (hret : ret = 0) : ∃ node, after.find root path = some node ∧ node.type = type := by
  obtain ⟨dir, hdir, -, node, hnode, hname, htype, -⟩ := h.2 hret
  exact ⟨node, find_eq_some_iff.mpr ⟨dir, h.1.within.dirAt hdir, hnode, hname⟩, htype⟩

/-- The name is not found in whatever case it is written. -/
theorem Removes.find {path' : List CStr} {ret : ℤ}
    (h : before.Removes root same after path ret) (hret : ret = 0)
    (hparents : path'.dropLast = path.dropLast) (hname : same (entryName path') (entryName path)) :
    after.find root path' = none := by
  obtain ⟨dir, hdir, -, hnone⟩ := h.2 hret
  cases hfind : after.find root path' with
  | none => rfl
  | some node =>
    obtain ⟨dir', hdir', hnode, -⟩ := find_eq_some_iff.mp hfind
    rw [hparents] at hdir'
    obtain rfl := Option.some.inj (hdir.symm.trans (h.within.dirAt hdir'))
    rw [hnone _ hname] at hnode
    cases hnode

end Names

/-- No name is taken away. -/
def Callback.KeepsNames : Callback → Prop
  | .unlink _ | .rmdir _ | .rename _ _ => False
  | _ => True

/-- No name is made.  Only what is there is written to, for what is not there would be made by that. -/
def Callback.MakesNoName (root : Sector) (same : CStr → CStr → Bool) (names : Names) : Callback → Prop
  | .create _ | .mkdir _ | .rename _ _ => False
  | .write path _ _ _ | .truncate path _ => ∀ dir, names.dirAt root (pathNames path).dropLast = some dir →
      ∀ name, same name (entryName (pathNames path)) → (names dir name).isSome
  | _ => True

namespace Names

variable {root : Sector} {same : CStr → CStr → Bool} {before after last : Names}
  {exchange : Callback × Reply} {exchanges : List (Callback × Reply)} {path : List CStr} {node : Node}

theorem Step.within (h : before.Step root same exchange after) (hkeeps : exchange.1.KeepsNames) :
    before.Within root after := by
  rcases exchange with ⟨callback, reply⟩
  cases callback with
  | create path | mkdir path => exact Fills.within h.1
  | write path buffer size offset => exact Fills.within h.1
  | truncate path newSize => exact Fills.within h.1
  | unlink path | rmdir path | rename srcPath dstPath => exact hkeeps.elim
  | getattr path => exact h.1.within
  | readdir path filler => exact h.1.within
  | _ => exact Same.within h

/-- To write to a file that is there makes no name. -/
theorem Touches.within_back {ret : ℤ} (h : before.Touches root same after path ret)
    (htaken : ∀ dir, before.dirAt root path.dropLast = some dir →
      ∀ name, same name (entryName path) → (before dir name).isSome) : after.Within root before := by
  refine within_of_shrinks fun dir hlive name node hnode ↦ ?_
  rcases h.1 dir hlive name with hsame | ⟨hdir, hname, hnone⟩
  · exact hsame.symm.trans hnode
  · have hthere := htaken dir hdir name hname
    rw [hnone] at hthere
    cases hthere

theorem Step.within_back (h : before.Step root same exchange after)
    (hmakes : exchange.1.MakesNoName root same before) : after.Within root before := by
  have hback (hsame : before.Same root after) : after.Within root before :=
    within_of_shrinks fun dir hlive name _ hnode ↦ (hsame dir hlive name).symm.trans hnode
  rcases exchange with ⟨callback, reply⟩
  cases callback with
  | unlink path => exact Removes.within h
  | rmdir path => exact Removes.within h
  | create path | mkdir path | rename srcPath dstPath => exact hmakes.elim
  | write path buffer size offset => exact Touches.within_back h hmakes
  | truncate path newSize => exact Touches.within_back h hmakes
  | getattr path => exact hback h.1
  | readdir path filler => exact hback h.1
  | _ => exact hback h

/-- What is there stays until something is taken away. -/
theorem find_of_run
    (hrun : Run (Step root same) (fun _ exchange ↦ exchange.1.KeepsNames) before exchanges last)
    (hfind : before.find root path = some node) : last.find root path = some node := by
  have hinv (names : Names) (exchange : Callback × Reply) (names' : Names)
      (hfound : names.find root path = some node) (hkeeps : exchange.1.KeepsNames)
      (hstep : names.Step root same exchange names') : names'.find root path = some node :=
    (hstep.within hkeeps).find hfound
  exact hrun.invariant hinv hfind

/-- What is not there does not come until something is made. -/
theorem find_none_of_run
    (hrun : Run (Step root same) (fun names exchange ↦ exchange.1.MakesNoName root same names) before
      exchanges last)
    (hfind : before.find root path = none) : last.find root path = none := by
  have hinv (names : Names) (exchange : Callback × Reply) (names' : Names)
      (hmissing : names.find root path = none) (hmakes : exchange.1.MakesNoName root same names)
      (hstep : names.Step root same exchange names') : names'.find root path = none := by
    cases hfound : names'.find root path with
    | none => rfl
    | some node =>
      rw [(hstep.within_back hmakes).find hfound] at hmissing
      cases hmissing
  exact hrun.invariant hinv hfind

end Names

/-- The tables between the first callback of a run and its last. -/
theorem names_between {start last : Adfimage Image} {first final : Callback × Reply}
    {between : List (Callback × Reply)} {Guard : Names → Callback × Reply → Prop}
    (hguard : ∀ names exchange, Guard names exchange → AsksNames exchange)
    (naming : L.Naming start.vol.rootBlock) (hsound : naming.Sound start.vol.image)
    (hrun : Run (Callback.Returns L env) (fun adfimage ↦ Guard (L.names adfimage.vol.image)) start
      (first :: between ++ [final]) last) :
    first.1.FromFuse ∧ ∃ names names' names'' : Names,
      (L.names start.vol.image).Step start.vol.rootBlock L.sameName first names ∧
      Run (Names.Step start.vol.rootBlock L.sameName) Guard names between names' ∧
      names'.Step start.vol.rootBlock L.sameName final names'' := by
  have hsteps := names_of_returns hguard naming hsound hrun
  obtain ⟨names', hbefore, -, hfinal⟩ := hsteps.last
  obtain ⟨names, hfirst, hbetween⟩ :=
    Run.split (show Run _ _ _ ([first] ++ between) names' from hbefore)
  obtain ⟨hmeets, hstep⟩ := hfirst.of_single
  exact ⟨(hguard _ _ hmeets).1, names, names', _, hstep, hbetween, hfinal⟩

/-- A file or a directory that has been made is seen by all that ask by the same path, as long as
nothing is taken away or renamed.  Paths are inside of the mount point, and names that are to be made
have at most `adfMaxNameLen` characters. -/
theorem created_is_seen (start last : Adfimage Image) (naming : L.Naming start.vol.rootBlock)
    (directory : Bool) (path : CStr) (made seen : Reply) (between : List (Callback × Reply))
    (hsound : naming.Sound start.vol.image) (hmade : made.ret = 0)
    (hbetween : ∀ exchange ∈ between, exchange.1.KeepsNames)
    (hrun : Run (Callback.Returns L env) (fun _ ↦ AsksNames) start
      ((if directory then .mkdir path else .create path, made) :: between ++ [(.getattr path, seen)])
      last) :
    seen.ret = 0 ∧ seen.stat.stMode &&& sIfMt = if directory then sIfDir else sIfReg := by
  obtain ⟨hfuse, names, names', _, hfirst, hruns, -, hshows⟩ :=
    names_between env (fun _ _ hasks ↦ hasks) naming hsound hrun
  obtain ⟨hpath, node, hfind, hformat⟩ : IsFusePath path ∧ ∃ node,
      names.find start.vol.rootBlock (pathNames path) = some node ∧
        node.format = if directory then sIfDir else sIfReg := by
    cases directory with
    | false =>
      obtain ⟨node, hfind, htype⟩ := Names.Creates.find hfirst hmade
      exact ⟨hfuse, node, hfind, by rw [Node.format, htype]; rfl⟩
    | true =>
      obtain ⟨node, hfind, htype⟩ := Names.Creates.find hfirst hmade
      exact ⟨hfuse, node, hfind, by rw [Node.format, htype]; rfl⟩
  have hlater := Names.find_of_run (hruns.restrict hbetween) hfind
  rw [Names.Shows, if_neg hpath.pathNames_ne_nil, hlater] at hshows
  exact ⟨hshows.1, hshows.2.trans hformat⟩

theorem created_is_seen_new :
    (adffsGetattr RamDisk.lib default
      (adfimageMkdir RamDisk.lib
        (adfimageCreate RamDisk.lib RamDisk.mounted "/Plot/new".toList).2 "/Plot/sub".toList).2
      "/Plot/new".toList).1 = 0 ∧
    (adffsGetattr RamDisk.lib default
      (adfimageMkdir RamDisk.lib
        (adfimageCreate RamDisk.lib RamDisk.mounted "/Plot/new".toList).2 "/Plot/sub".toList).2
      "/Plot/new".toList).2.1.stMode &&& sIfMt = sIfReg :=
  created_is_seen default RamDisk.mounted _ (RamDisk.naming 880) false "/Plot/new".toList (.status 0)
    { Reply.status 0 with
      stat := (adffsGetattr RamDisk.lib default
        (adfimageMkdir RamDisk.lib
          (adfimageCreate RamDisk.lib RamDisk.mounted "/Plot/new".toList).2 "/Plot/sub".toList).2
        "/Plot/new".toList).2.1 }
    [(.mkdir "/Plot/sub".toList, .status 0)] RamDisk.tidy_sample rfl
    (fun exchange hexchange ↦ by
      rw [List.mem_singleton.mp hexchange]
      trivial)
    (.cons ⟨⟨by decide, by decide, by decide⟩,
        show (entryName (pathNames "/Plot/new".toList)).length ≤ 30 by decide⟩ ⟨0, rfl⟩
      (.cons ⟨⟨by decide, by decide, by decide⟩,
          show (entryName (pathNames "/Plot/sub".toList)).length ≤ 30 by decide⟩ ⟨0, rfl⟩
        (.single ⟨Or.inr ⟨by decide, by decide, by decide⟩, trivial⟩ ⟨0, rfl⟩)))

/-- What may be asked for where nothing is to be made. -/
def AsksNoNew (root : Sector) (same : CStr → CStr → Bool) (names : Names)
    (exchange : Callback × Reply) : Prop :=
  AsksNames exchange ∧ exchange.1.MakesNoName root same names

/-- What has been taken away is not seen by anyone that asks for it, in whatever case, as long as
nothing is made or renamed, and no file written to or truncated that is not there.  Paths are inside of
the mount point. -/
theorem removed_is_gone (start last : Adfimage Image) (naming : L.Naming start.vol.rootBlock)
    (directory : Bool) (path asked : CStr) (removed seen : Reply) (between : List (Callback × Reply))
    (hsound : naming.Sound start.vol.image) (hremoved : removed.ret = 0)
    (hasked : IsFusePath asked) (hparents : (pathNames asked).dropLast = (pathNames path).dropLast)
    (hname : L.sameName (entryName (pathNames asked)) (entryName (pathNames path)))
    (hrun : Run (Callback.Returns L env)
      (fun adfimage ↦ AsksNoNew start.vol.rootBlock L.sameName (L.names adfimage.vol.image)) start
      ((if directory then .rmdir path else .unlink path, removed) :: between ++
        [(.getattr asked, seen)]) last) :
    seen.ret = -eNoEnt := by
  obtain ⟨-, names, names', _, hfirst, hruns, -, hshows⟩ :=
    names_between env (fun _ _ hasks ↦ hasks.1) naming hsound hrun
  have hfind : names.find start.vol.rootBlock (pathNames asked) = none := by
    cases directory with
    | false => exact Names.Removes.find hfirst hremoved hparents hname
    | true => exact Names.Removes.find hfirst hremoved hparents hname
  have hquiet : Run (Names.Step start.vol.rootBlock L.sameName)
      (fun names exchange ↦ exchange.1.MakesNoName start.vol.rootBlock L.sameName names) names between
      names' :=
    hruns.mono fun _ _ hasks ↦ hasks.2
  have hlater := Names.find_none_of_run hquiet hfind
  rw [Names.Shows, if_neg hasked.pathNames_ne_nil, hlater] at hshows
  exact hshows

theorem removed_is_gone_foo :
    (adffsGetattr RamDisk.lib default
      (adfimageWrite RamDisk.lib
        (adfimageUnlink RamDisk.lib RamDisk.mounted "/FOO".toList).2 "/Plot/map".toList [1] 1 0).2
      "/foo".toList).1 = -eNoEnt := by
  have htaken : ∀ dir, (RamDisk.lib.names
      (adfimageUnlink RamDisk.lib RamDisk.mounted "/FOO".toList).2.vol.image).dirAt 880
        ["Plot".toList] = some dir → ∀ name, RamDisk.sameName name "map".toList = true →
      (RamDisk.lib.names
        (adfimageUnlink RamDisk.lib RamDisk.mounted "/FOO".toList).2.vol.image dir name).isSome := by
    intro dir hdir name hname
    obtain rfl : (882 : Sector) = dir := Option.some.inj hdir
    rw [names_congr (RamDisk.naming 880) hname]
    decide
  exact removed_is_gone default RamDisk.mounted _ (RamDisk.naming 880) false "/FOO".toList
    "/foo".toList (.status 0) (.status (-eNoEnt)) [(.write "/Plot/map".toList [1] 1 0, .status 1)]
    RamDisk.tidy_sample rfl ⟨by decide, by decide, by decide⟩ (by decide) (by decide)
    (.cons ⟨⟨⟨by decide, by decide, by decide⟩, trivial⟩, trivial⟩ ⟨0, rfl⟩
      (.cons ⟨⟨⟨by decide, by decide, by decide⟩,
          show (entryName (pathNames "/Plot/map".toList)).length ≤ 30 by decide⟩, htaken⟩ ⟨0, rfl⟩
        (.single ⟨⟨Or.inr ⟨by decide, by decide, by decide⟩, trivial⟩, trivial⟩ ⟨0, rfl⟩)))

end FuseAdf
