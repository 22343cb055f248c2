import FuseAdf.Adffs.Callbacks
import FuseAdf.Adfimage.Lookup

/-!
# One equation for each callback that reports on directories

`adffsGetattr` and `adffsReaddir` in terms of the directory that a path names, and what the loop of
the second hands to its caller.
-/

namespace FuseAdf

open Adfimage NameWalk

variable {Image File : Type} (L : Adflib Image File) (env : Env)

/-- The part of `adffs_getattr` after the entry has been looked up. -/
def statFound (adfimage : Adfimage Image) (path : CStr) (dentry : AdfimageDentry) :
    ℤ × Stat × Adfimage Image :=
  match statEntry L adfimage path (basename path) dentry with
  | (none, adfimage) => (-eNoEnt, .zero, adfimage.adfToRootDir)
  | (some statbuf, adfimage) =>
      (0, finishStat env adfimage.adfToRootDir dentry.adflibEntry statbuf, adfimage.adfToRootDir)

theorem getattr_root (adfimage : Adfimage Image) {path : CStr} (h : pathstrGetRelative path = []) :
    adffsGetattr L env adfimage path =
      (0, finishStat env adfimage (adfimageGetRootDentry L adfimage).adflibEntry
        { Stat.zero with
          stMode := rootMode
          stSize := adfimageCountCwdEntries L adfimage
          stNlink := 1 }, adfimage) := by
  rw [adffsGetattr, if_pos h]

theorem getattr_eq (adfimage : Adfimage Image) {path : CStr} (h : pathstrGetRelative path ≠ []) :
    adffsGetattr L env adfimage path =
      let walk := (adfimageChdir L adfimage (dirname path)).2
      match namedDir L adfimage (dirname path) with
      | none => (-eNoEnt, .zero, walk)
      | some _ =>
          let found := adfimageGetdentry L walk (basename path)
          statFound L env found.2 path found.1 := by
  have hname : basename path ≠ [] := basename_ne_nil (exists_ne_slash h)
  rw [adffsGetattr, if_neg h, chdir_eq_pair L adfimage (dirname_ne_nil path)]
  cases namedDir L adfimage (dirname path) with
  | none => rfl
  | some dir =>
    dsimp only [Option.isSome_some]
    rw [if_neg hname]
    rfl

/-- An entry of any type has attributes. -/
theorem statFound_fst (adfimage : Adfimage Image) (path : CStr) (dentry : AdfimageDentry) :
    (statFound L env adfimage path dentry).1 = if dentry.type = .none then -eNoEnt else 0 := by
  unfold statFound statEntry
  cases h : dentry.type <;> rfl

theorem statFound_file (adfimage : Adfimage Image) (path : CStr) {dentry : AdfimageDentry}
    (h : dentry.type = .file ∨ dentry.type = .linkfile) :
    (statFound L env adfimage path dentry).2.1.stMode = fileMode (adfimageGetperm L dentry) := by
  unfold statFound statEntry
  rcases h with h | h
  · simp only [h, statFile, finishStat]
    split <;> rfl
  · simp only [h, statFile, finishStat]
    split <;> rfl

theorem statFound_directory (adfimage : Adfimage Image) (path : CStr) {dentry : AdfimageDentry}
    (h : dentry.type = .directory ∨ dentry.type = .linkdir) :
    (statFound L env adfimage path dentry).2.1.stMode =
      directoryMode (adfimageGetperm L dentry) := by
  unfold statFound statEntry
  rcases h with h | h <;> simp only [h, finishStat]

/-- The size of a directory is counted after a walk along the whole path. -/
theorem statFound_size (adfimage : Adfimage Image) (path : CStr) {dentry : AdfimageDentry}
    (h : dentry.type = .directory ∨ dentry.type = .linkdir) :
    (statFound L env adfimage path dentry).2.1.stSize =
      (adfimageCountDirEntries L adfimage path).1 := by
  unfold statFound statEntry
  rcases h with h | h <;> simp only [h, finishStat]

/-- Attributes are those of the entry with the last component's name in the directory that the
rest of the path names. -/
theorem getattr_of_namedDir (adfimage : Adfimage Image) {path : CStr}
    (hrel : pathstrGetRelative path ≠ []) {dir : Sector}
    (hdir : namedDir L adfimage (dirname path) = some dir) :
    ∃ here : Adfimage Image, here.vol.image = adfimage.vol.image ∧
      here.vol.rootBlock = adfimage.vol.rootBlock ∧
      adffsGetattr L env adfimage path = statFound L env here path
        (dentryOf (adflibListFind (basename path)
          (L.adfGetDirEnt adfimage.vol.image dir))) := by
  have hname := exists_ne_slash hrel
  have hcur := chdir_curDirPtr L adfimage (dirname_ne_nil path)
  rw [lastDir_of_namedDir L hdir] at hcur
  refine ⟨(adfimageGetdentry L (adfimageChdir L adfimage (dirname path)).2 (basename path)).2,
    by simp, by simp, ?_⟩
  rw [getattr_eq L env adfimage hrel, hdir]
  dsimp only
  rw [getdentry_name L _ (basename_ne_nil hname) (slash_not_mem_basename hname), chdir_image, hcur]

/-! ## Listings -/

theorem readdir_eq (adfimage : Adfimage Image) {path : CStr} (h : path ≠ [])
    (filler : List CStr → CStr → Bool) :
    adffsReaddir L adfimage path filler =
      let root := (adfimageChdir L adfimage path).2.adfToRootDir
      match namedDir L adfimage path with
      | none => (-eNoEnt, [], root)
      | some dir =>
          let filled := readdirLoop filler [".".toList, "..".toList]
            (L.adfGetDirEnt adfimage.vol.image dir)
          (if filled.1 then 0 else -eAgain, filled.2, root) := by
  have hcur := chdir_curDirPtr L adfimage h
  have himage := chdir_image L adfimage path
  rw [adffsReaddir, chdir_eq_pair L adfimage h]
  cases hdir : namedDir L adfimage path with
  | none => rfl
  | some dir =>
    rw [lastDir_of_namedDir L hdir] at hcur
    dsimp only [Option.isSome_some]
    rw [hcur, himage]
    rcases readdirLoop filler [".".toList, "..".toList] (L.adfGetDirEnt adfimage.vol.image dir)
      with ⟨done, names⟩
    cases done with
    | false => rfl
    | true => rfl

/-- A loop that runs to the end has handed over the names of all entries, in their order. -/
theorem readdirLoop_snd {filler : List CStr → CStr → Bool} {handed : List CStr}
    {entries : List AdfEntry} (h : (readdirLoop filler handed entries).1 = true) :
    (readdirLoop filler handed entries).2 = handed ++ entries.map AdfEntry.name := by
  induction entries generalizing handed with
  | nil => simp [readdirLoop]
  | cons entry rest ih =>
    rw [readdirLoop] at h ⊢
    split_ifs at h ⊢ with hfull
    calc
      (readdirLoop filler (handed ++ [entry.name]) rest).2 =
          handed ++ [entry.name] ++ rest.map AdfEntry.name := ih h
      _ = handed ++ (entry :: rest).map AdfEntry.name := by
        rw [List.map_cons, List.append_assoc, List.singleton_append]

/-- A listing that succeeds names the entries of the directory that the path names. -/
theorem readdir_success {adfimage : Adfimage Image} {path : CStr} (hne : path ≠ [])
    {filler : List CStr → CStr → Bool}
    (h : (adffsReaddir L adfimage path filler).1 = 0) :
    ∃ dir, namedDir L adfimage path = some dir ∧
      (adffsReaddir L adfimage path filler).2.1 = ".".toList :: "..".toList ::
        (L.adfGetDirEnt adfimage.vol.image dir).map AdfEntry.name := by
  rw [readdir_eq L adfimage hne] at h ⊢
  cases hdir : namedDir L adfimage path with
  | none =>
    rw [hdir] at h
    exact absurd h neg_eNoEnt_ne_zero
  | some dir =>
    rw [hdir] at h
    simp only at h ⊢
    split_ifs at h with hdone
    · exact ⟨dir, rfl, readdirLoop_snd hdone⟩
    · exact absurd h neg_eAgain_ne_zero

end FuseAdf
