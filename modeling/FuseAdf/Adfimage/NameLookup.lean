import FuseAdf.Adfimage.ChdirWalk
import FuseAdf.Adfimage.Resolution
import FuseAdf.Adfimage.Targets
import Mathlib.Data.List.Find
import Mathlib.Data.List.Pairwise

/-!
# Two ways to look up a name

`adfimageGetdentry` searches the listing of a directory for an entry with exactly the name it is
given.  Changing the directory, opening a file and reading a link leave the search to the library,
which ignores the case of letters.
-/

namespace FuseAdf

open Adfimage NameWalk

variable {Image File : Type} {L : Adflib Image File}

/-- A path that ends with a slash has an empty last component. -/
theorem nil_mem_splitOn {trail : CStr} (htrail : ∀ c ∈ trail, c = '/') (hne : trail ≠ [])
    (front : CStr) : [] ∈ (front ++ trail).splitOn '/' := by
  obtain ⟨init, last, rfl⟩ := (List.eq_nil_or_concat trail).resolve_left hne
  have hlast : last = '/' := htrail last (by simp)
  rw [hlast, List.concat_eq_append, ← List.append_assoc, List.splitOn_append_cons_self]
  simp

theorem components_eq_splitOn {path : CStr} (hrel : pathstrGetRelative path ≠ []) :
    components path = (pathstrGetRelative path).splitOn '/' := if_neg hrel

/-- So a path without empty components does not end with a slash. -/
theorem trail_eq_nil {front trail : CStr} (hfront : pathstrGetRelative front ≠ [])
    (hempty : [] ∉ components (front ++ trail)) (htrail : ∀ c ∈ trail, c = '/') : trail = [] := by
  by_contra hne
  apply hempty
  rw [components_eq_splitOn, getRelative_append hfront]
  · exact nil_mem_splitOn htrail hne _
  · simp [getRelative_append hfront, hfront]

theorem ne_dot_of_not_mem {path : CStr} (hdot : ['.'] ∉ components path) :
    pathstrGetRelative path ≠ ['.'] := by
  intro h
  apply hdot
  rw [components_eq_splitOn (by simp [h]), h]
  decide

theorem not_mem_of_append_slash {parent name piece : CStr} (hrel : pathstrGetRelative parent ≠ [])
    (h : piece ∉ components (parent ++ '/' :: name)) : piece ∉ components parent := by
  intro hpiece
  apply h
  rw [components_eq_splitOn hrel] at hpiece
  rw [components_eq_splitOn (by simp [getRelative_append hrel]), getRelative_append hrel,
    List.splitOn_append_cons_self]
  exact List.mem_append_left _ hpiece

/-- A path without empty components and single dots is walked along its directory part and then
through its last component. -/
theorem chdirPieces_concat {path : CStr} (hrel : pathstrGetRelative path ≠ [])
    (hempty : [] ∉ components path) (hdot : ['.'] ∉ components path) :
    chdirPieces path = chdirPieces (dirname path) ++ [basename path] := by
  obtain ⟨dir, name, hsplit⟩ := exists_splits (exists_ne_slash hrel)
  obtain ⟨trail, rfl, htrail⟩ := hsplit.eq
  have hname : pathstrGetRelative (dir ++ name) ≠ [] := by
    apply getRelative_ne_nil_iff.mpr
    obtain ⟨c, hc⟩ := List.exists_mem_of_ne_nil name hsplit.name_ne
    exact ⟨c, List.mem_append_right dir hc, fun h ↦ hsplit.name_slash (h ▸ hc)⟩
  obtain rfl := trail_eq_nil hname hempty htrail
  rw [hsplit.basename_eq, hsplit.dirname_eq, chdirPieces_eq_components (ne_dot_of_not_mem hdot),
    components_eq_splitOn hrel, List.append_nil]
  rw [List.append_nil] at hempty hdot
  by_cases hdir : ∃ c ∈ dir, c ≠ '/'
  · -- the directory part is a parent and a slash
    have hne : dir ≠ [] := by
      rintro rfl
      simp at hdir
    obtain ⟨parent, rfl⟩ : ∃ parent, dir = parent ++ ['/'] :=
      ⟨dir.dropLast, by rw [← hsplit.dir_end hne, List.dropLast_append_getLast]⟩
    have hparent : pathstrGetRelative parent ≠ [] := by
      apply getRelative_ne_nil_iff.mpr
      obtain ⟨c, hc, hslash⟩ := hdir
      exact ⟨c, by simpa [hslash] using hc, hslash⟩
    rw [List.append_assoc, List.singleton_append] at hempty hdot
    have hempty' := not_mem_of_append_slash hparent hempty
    have hdot' := not_mem_of_append_slash hparent hdot
    have hlast : parent.getLast (ne_nil_of_getRelative hparent) ≠ '/' := by
      intro hslash
      obtain ⟨front, rfl⟩ : ∃ front, parent = front ++ ['/'] :=
        ⟨parent.dropLast, by rw [← hslash, List.dropLast_append_getLast]⟩
      have hfront : pathstrGetRelative front ≠ [] := by
        apply getRelative_ne_nil_iff.mpr
        obtain ⟨c, hc, hne⟩ := exists_ne_slash hparent
        exact ⟨c, by simpa [hne] using hc, hne⟩
      exact absurd (trail_eq_nil hfront hempty' (by simp)) (by simp)
    rw [if_neg hne, trimDir_concat_slash _ hlast, chdirPieces_eq_components (ne_dot_of_not_mem hdot'),
      components_eq_splitOn hparent, List.append_assoc, List.singleton_append,
      getRelative_append hparent, List.splitOn_append_cons_self,
      List.splitOn_eq_singleton hsplit.name_slash]
  · push Not at hdir
    have hnone : chdirPieces (if dir = [] then ['.'] else trimDir dir) = [] := by
      split_ifs
      · rfl
      · exact chdirPieces_of_slashes (trimDir_of_slashes hdir)
    rw [hnone, getRelative_slashes_append hdir, getRelative_name hsplit.name_slash,
      List.splitOn_eq_singleton hsplit.name_slash]
    rfl

/-! ## When the two agree -/

variable (L) in
/-- The search in the listing finds an entry exactly when the library does, and the same one; so
the block of a link is the block of what is found, and whatever can be entered or opened is found. -/
def LookupsAgree (adfimage : Adfimage Image) (path : CStr) (dir : Sector) : Prop :=
  let found := (adfimageGetdentry L adfimage path).1
  (found.type ≠ .none ↔ (L.lookupName adfimage.vol.image dir (basename path)).isSome) ∧
    (∀ entry ∈ L.lookupName adfimage.vol.image dir (basename path), found.adflibEntry = entry) ∧
    (∀ parent block, L.adfReadEntryBlock adfimage.vol.image dir = some parent →
      L.adfNameToEntryBlk adfimage.vol.image parent.hashTable (basename path) = some block →
      found.type ≠ .none ∧
        L.adfReadEntryBlock adfimage.vol.image found.adflibEntry.sector = some block) ∧
    (pathstrGetRelative path ≠ [] → ['.'] ∉ components path →
      (adfimageChdir L adfimage path).1 = true → found.type ≠ .none) ∧
    ((adfimageFileOpen L adfimage path .read).1.isSome → found.type ≠ .none)

variable (L) in
/-- Every entry of the directory that has this name is written in the same letters. -/
def WrittenAs (image : Image) (dir : Sector) (name : CStr) : Prop :=
  ∀ entry ∈ L.adfGetDirEnt image dir, L.sameName name entry.name → entry.name = name

theorem lookupName_eq_find {image : Image} (hL : L.NameLookup image) {dir : Sector} {name : CStr}
    (h : WrittenAs L image dir name) :
    L.lookupName image dir name = adflibListFind name (L.adfGetDirEnt image dir) := by
  rw [adflibListFind_eq_find, Adflib.lookupName]
  apply List.find?_congr
  intro entry hentry
  rw [Bool.eq_iff_iff, beq_iff_eq]
  constructor
  · exact h entry hentry
  · rintro rfl
    exact hL.refl entry.name

/-- The entry that the library finds has the name, up to the case of letters. -/
theorem of_lookupName {image : Image} {dir : Sector} {name : CStr} {entry : AdfEntry}
    (h : L.lookupName image dir name = some entry) :
    entry ∈ L.adfGetDirEnt image dir ∧ L.sameName name entry.name := by
  have hname := List.find?_some h
  exact ⟨List.mem_of_find?_eq_some h, hname⟩

/-- Two entries with the same name are one. -/
theorem eq_of_sameName {image : Image} (hL : L.NameLookup image) {dir : Sector} {name : CStr}
    {entry entry' : AdfEntry} (hentry : entry ∈ L.adfGetDirEnt image dir)
    (hname : L.sameName name entry.name) (hentry' : entry' ∈ L.adfGetDirEnt image dir)
    (hname' : L.sameName name entry'.name) : entry = entry' := by
  by_contra hne
  have hsymm : Std.Symm fun a b : AdfEntry ↦ ¬ L.sameName a.name b.name :=
    ⟨fun a b hab hba ↦ hab (hL.symm _ _ hba)⟩
  exact (hL.unique dir).forall hentry hentry' hne (hL.trans _ _ _ (hL.symm _ _ hname) hname')

/-- An entry is found in its listing by its own name. -/
theorem listFind_of_mem {image : Image} (hL : L.NameLookup image) {dir : Sector} {entry : AdfEntry}
    (h : entry ∈ L.adfGetDirEnt image dir) :
    adflibListFind entry.name (L.adfGetDirEnt image dir) = some entry := by
  rw [adflibListFind_eq_find]
  have hsome : ((L.adfGetDirEnt image dir).find? fun other ↦ other.name == entry.name).isSome :=
    List.find?_isSome.mpr ⟨entry, h, by simp⟩
  obtain ⟨found, hfound⟩ := Option.isSome_iff_exists.mp hsome
  have hname : found.name = entry.name := by simpa using List.find?_some hfound
  have hsame : L.sameName entry.name found.name := hname ▸ hL.refl _
  rw [hfound, eq_of_sameName hL h (hL.refl _) (List.mem_of_find?_eq_some hfound) hsame]

/-- An absolute path that can be entered has a last component that the library finds. -/
theorem lookupName_of_chdir {adfimage : Adfimage Image} (hL : L.NameLookup adfimage.vol.image)
    {path : CStr} {dir : Sector} (habs : path.head? = some '/')
    (hdir : namedDir L adfimage (dirname path) = some dir) (hrel : pathstrGetRelative path ≠ [])
    (hdot : ['.'] ∉ components path) (h : (adfimageChdir L adfimage path).1 = true) :
    (L.lookupName adfimage.vol.image dir (basename path)).isSome := by
  rw [chdir_fst L adfimage (ne_nil_of_getRelative hrel)] at h
  obtain ⟨target, htarget⟩ := Option.isSome_iff_exists.mp h
  rw [namedDir_of_absolute L adfimage habs] at htarget
  rw [namedDir_of_absolute L adfimage (head_dirname habs)] at hdir
  have hempty : [] ∉ components path := by
    rw [← chdirPieces_eq_components (ne_dot_of_not_mem hdot)]
    exact not_mem_of_walk hL.changeDir_nil htarget
  rw [chdirPieces_concat hrel hempty hdot, walk_append, hdir, Option.bind_some] at htarget
  obtain ⟨next, hnext, -⟩ := Option.bind_eq_some_iff.mp htarget
  obtain ⟨entry, hentry, -⟩ := hL.changeDir dir (basename path) next hnext
  exact Option.isSome_iff_exists.mpr ⟨entry, hentry⟩

/-- So has one that can be opened for reading. -/
theorem lookupName_of_fileOpen {adfimage : Adfimage Image} (hL : L.NameLookup adfimage.vol.image)
    {path : CStr} {dir : Sector} (hdir : namedDir L adfimage (dirname path) = some dir)
    (h : (adfimageFileOpen L adfimage path .read).1.isSome) :
    (L.lookupName adfimage.vol.image dir (basename path)).isSome := by
  apply hL.fileOpen dir (basename path)
  rw [adfimageFileOpen, openInParent_eq, hdir] at h
  dsimp only at h
  cases hopen : (L.adfFileOpen adfimage.vol.image dir (basename path) .read).2 with
  | none => simp [hopen] at h
  | some file => rfl

/-- For every absolute path whose directory part resolves, the lookups agree exactly if the
directory has no entry with the same name in other letters. -/
theorem lookupsAgree_iff (adfimage : Adfimage Image) (hL : L.NameLookup adfimage.vol.image)
    (path : CStr) (dir : Sector) (habs : path.head? = some '/') (hroot : path ≠ ['/'])
    (hdir : namedDir L adfimage (dirname path) = some dir) :
    LookupsAgree L adfimage path dir ↔ WrittenAs L adfimage.vol.image dir (basename path) := by
  have hfound : (adfimageGetdentry L adfimage path).1 =
      dentryOf (adflibListFind (basename path) (L.adfGetDirEnt adfimage.vol.image dir)) := by
    rw [getdentry_fst L adfimage hroot, entryAt, lastDir_of_namedDir L hdir]
  unfold LookupsAgree
  rw [hfound]
  constructor
  · rintro ⟨hsome, hsame, _, _, _⟩ entry hentry hname
    obtain ⟨other, hother⟩ : ∃ other,
        L.lookupName adfimage.vol.image dir (basename path) = some other :=
      Option.isSome_iff_exists.mp (List.find?_isSome.mpr ⟨entry, hentry, hname⟩)
    obtain ⟨hmem, hname'⟩ := of_lookupName hother
    obtain rfl := eq_of_sameName hL hentry hname hmem hname'
    have hlisted := hsame entry hother
    have htype := hsome.mpr (by rw [hother]; rfl)
    cases hexact : adflibListFind (basename path) (L.adfGetDirEnt adfimage.vol.image dir) with
    | none => simp [hexact, dentryOf, AdfimageDentry.missing] at htype
    | some listed =>
      rw [hexact] at hlisted
      rw [adflibListFind_eq_find] at hexact
      have hspelled := List.find?_some hexact
      rw [← hlisted]
      exact beq_iff_eq.mp hspelled
  · intro hwritten
    have hlookup := lookupName_eq_find hL hwritten
    have htype : (dentryOf (adflibListFind (basename path)
        (L.adfGetDirEnt adfimage.vol.image dir))).type ≠ .none ↔
          (L.lookupName adfimage.vol.image dir (basename path)).isSome := by
      rw [hlookup, ne_eq, dentryOf_type_eq_none, ← ne_eq, Option.ne_none_iff_isSome]
    have hsame : ∀ entry ∈ L.lookupName adfimage.vol.image dir (basename path),
        (dentryOf (adflibListFind (basename path)
          (L.adfGetDirEnt adfimage.vol.image dir))).adflibEntry = entry := by
      intro entry hentry
      rw [hlookup] at hentry
      rw [hentry]
      rfl
    refine ⟨htype, hsame, ?_, ?_, ?_⟩
    · intro parent block hparent hblock
      rw [hL.nameToEntryBlk dir parent _ hparent] at hblock
      obtain ⟨entry, hentry, hread⟩ := Option.bind_eq_some_iff.mp hblock
      rw [hsame entry hentry]
      exact ⟨htype.mpr (by rw [hentry]; rfl), hread⟩
    · exact fun hrel hdot hchdir ↦ htype.mpr (lookupName_of_chdir hL habs hdir hrel hdot hchdir)
    · exact fun hopen ↦ htype.mpr (lookupName_of_fileOpen hL hdir hopen)

theorem lookupsAgree_foo : LookupsAgree RamDisk.lib RamDisk.mounted "/foo".toList 880 := by
  apply (lookupsAgree_iff RamDisk.mounted (RamDisk.nameLookup RamDisk.consistent_sample)
    "/foo".toList 880 rfl (by decide) (by decide)).mpr
  have hlisting : ∀ entry ∈ RamDisk.sample.getDirEnt 880,
      RamDisk.sameName "foo".toList entry.name = true → entry.name = "foo".toList := by decide
  exact hlisting

/-- The directory `Plot` can be entered as `/plot`, and is not found by that name. -/
theorem not_lookupsAgree_plot :
    ¬ LookupsAgree RamDisk.lib RamDisk.mounted "/plot".toList 880 := by
  intro ⟨_, _, _, hchdir, _⟩
  exact hchdir (by decide) (by decide) (by decide) (by decide)

end FuseAdf
