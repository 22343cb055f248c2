import FuseAdf.Adffs.Renaming
import FuseAdf.Path.PathNames

/-!
# The entry of a converted directory path

A renaming converts both directory parts to AmigaDOS notation and looks the results up with the
functions of libgen.h, which take a doubled slash for a single one.  So a path that ends with `..` is
looked up as the directory whose parent it means.
-/

namespace FuseAdf

open Adfimage NameWalk

variable {Image File : Type} (L : Adflib Image File)

/-- A directory and the directories that lead to it, the nearest first. -/
structure Trail where
  current : Sector
  above : List Sector

/-- The root is its own parent. -/
def Trail.parent (trail : Trail) : Trail :=
  match trail.above with
  | [] => trail
  | up :: above => ⟨up, above⟩

def lookTrail (adfimage : Adfimage Image) (trail : Trail) (name : CStr) : Option Trail :=
  if name = "..".toList then some trail.parent
  else (look L adfimage trail.current name).map fun next ↦ ⟨next, trail.current :: trail.above⟩

/-- The directory that an absolute path names, with `..` read as the parent directory and repeated
slashes as one. -/
def resolve (adfimage : Adfimage Image) (path : CStr) : Option Trail :=
  walk (lookTrail L adfimage) ⟨adfimage.vol.rootBlock, []⟩ (pathNames path)

/-- The entry is that of the directory, or of a hard link to it. -/
def IsEntryOf (dentry : AdfimageDentry) (dir : Sector) : Prop :=
  (dentry.type = .directory ∧ dentry.adflibEntry.sector = dir) ∨
    (dentry.type = .linkdir ∧ dentry.adflibEntry.real = dir)

/-- The root block can be read and is one. -/
def RootReadable (adfimage : Adfimage Image) : Prop :=
  ∃ block entry, L.adfReadRootBlock adfimage.vol.image adfimage.vol.rootBlock = some block ∧
    L.adfEntBlock2Entry block.asEntryBlock = some entry ∧ entry.type = .root

/-- An entry of the listing has exactly this name and is the directory `target` or a hard link to
it. -/
def LeadsTo (image : Image) (dir : Sector) (name : CStr) (target : Sector) : Prop :=
  ∃ entry ∈ L.adfGetDirEnt image dir, entry.name = name ∧
    ((entry.type = .root ∨ entry.type = .dir) ∧ entry.sector = target ∨
      entry.type = .ldir ∧ entry.real = target)

/-- The root can be read; a directory is listed in its parent under exactly the last name of the path;
and for a path that ends with `..`, the name before is listed as a link to the very directory it is
in. -/
structure EntryKept (adfimage : Adfimage Image) (path : CStr) (dir : Sector) : Prop where
  root : pathNames path = [] → RootReadable L adfimage
  name : ∀ front last, pathNames path = front ++ [last] → last ≠ "..".toList →
    ∃ trail, walk (lookTrail L adfimage) ⟨adfimage.vol.rootBlock, []⟩ front = some trail ∧
      ∃ entry ∈ L.adfGetDirEnt adfimage.vol.image trail.current, entry.name = last
  parent : ∀ front, pathNames path = front ++ ["..".toList] →
    LeadsTo L adfimage.vol.image dir (front.getLast?.getD ['/']) dir

variable {L}

/-- This is what a renaming looks at. -/
theorem isEntryOf_iff {dentry : AdfimageDentry} {dir : Sector} :
    IsEntryOf dentry dir ↔ checkParent dentry = none ∧ parentSector dentry = dir := by
  rcases dentry with ⟨type, entry⟩
  cases type <;> simp [IsEntryOf, checkParent, parentSector]

/-- Away from `..` the trail is walked as the code walks. -/
theorem map_current_walk {adfimage : Adfimage Image} {names : List CStr}
    (h : "..".toList ∉ names) (trail : Trail) :
    (walk (lookTrail L adfimage) trail names).map Trail.current =
      walk (look L adfimage) trail.current names := by
  apply walk_map Trail.current
  intro name hname trail
  have hne : name ≠ "..".toList := by
    rintro rfl
    exact h hname
  rw [lookTrail, if_neg hne, Option.map_map]
  exact congrFun Option.map_id _

theorem namedDir_of_parent {adfimage : Adfimage Image} {parent : CStr} (h : IsParentPath parent) :
    namedDir L adfimage (if parent = [] then ['/'] else parent) =
      (resolve L adfimage parent).map Trail.current := by
  rcases h with rfl | hparent
  · rfl
  · have hne : parent ≠ [] := by
      rintro rfl
      exact absurd hparent.absolute (by simp)
    have hdots : "..".toList ∉ pathNames parent := by
      rw [hparent.pathNames_eq]
      exact fun hmem ↦ (hparent.components _ hmem).2.2 rfl
    have hpieces : chdirPieces parent = pathNames parent := by
      have hdot : ['.'] ∉ components parent := by
        rw [components_of_fusePath hparent]
        exact fun hmem ↦ (hparent.components _ hmem).2.1 rfl
      rw [chdirPieces_eq_components (ne_dot_of_not_mem hdot), components_of_fusePath hparent,
        hparent.pathNames_eq]
    rw [if_neg hne, namedDir_of_absolute L adfimage hparent.absolute, hpieces, resolve,
      map_current_walk hdots]

/-- So the entry is looked up in the directory that the parent means. -/
theorem getdentry_of_parent {adfimage : Adfimage Image} {parent name trail : CStr} {place : Trail}
    (h : IsParentPath parent) (hplace : resolve L adfimage parent = some place) (hne : name ≠ [])
    (hslash : '/' ∉ name) (htrail : ∀ c ∈ trail, c = '/') :
    (adfimageGetdentry L adfimage (parent ++ '/' :: name ++ trail)).1 =
      dentryOf (adflibListFind name (L.adfGetDirEnt adfimage.vol.image place.current)) := by
  obtain ⟨hdirname, hbasename⟩ := h.splits hne hslash htrail
  have hroot : parent ++ '/' :: name ++ trail ≠ ['/'] := by
    intro heq
    have hmem : name ⊆ ['/'] := by
      rw [← heq]
      intro c hc
      simp [hc]
    obtain ⟨c, hc⟩ := List.exists_mem_of_ne_nil name hne
    exact hslash (List.mem_singleton.mp (hmem hc) ▸ hc)
  have hnamed : namedDir L adfimage (dirname (parent ++ '/' :: name ++ trail)) =
      some place.current := by
    rw [hdirname, namedDir_of_parent h, hplace]
    rfl
  rw [getdentry_fst L adfimage hroot, entryAt, lastDir_of_namedDir L hnamed, hbasename]

theorem isEntryOf_dentryOf {entry : AdfEntry} {target : Sector} :
    IsEntryOf (dentryOf (some entry)) target ↔
      (entry.type = .root ∨ entry.type = .dir) ∧ entry.sector = target ∨
        entry.type = .ldir ∧ entry.real = target := by
  cases htype : entry.type <;> simp [IsEntryOf, dentryOf, dentryType, htype]

/-- What is found in a listing is the entry of a directory exactly if one entry leads there. -/
theorem isEntryOf_found {image : Image} (hL : L.NameLookup image) {dir target : Sector}
    {name : CStr} :
    IsEntryOf (dentryOf (adflibListFind name (L.adfGetDirEnt image dir))) target ↔
      LeadsTo L image dir name target := by
  constructor
  · intro h
    cases hfind : adflibListFind name (L.adfGetDirEnt image dir) with
    | none => simp [hfind, IsEntryOf, dentryOf, AdfimageDentry.missing] at h
    | some entry =>
      rw [hfind] at h
      rw [adflibListFind_eq_find] at hfind
      have hname : entry.name = name := by simpa using List.find?_some hfind
      exact ⟨entry, List.mem_of_find?_eq_some hfind, hname, isEntryOf_dentryOf.mp h⟩
  · rintro ⟨entry, hentry, rfl, h⟩
    rw [listFind_of_mem hL hentry]
    exact isEntryOf_dentryOf.mpr h

/-- A directory that can be entered by a name is found exactly if it is listed in these letters. -/
theorem leadsTo_of_look {adfimage : Adfimage Image} (hL : L.NameLookup adfimage.vol.image)
    {dir target : Sector} {name : CStr} (h : look L adfimage dir name = some target) :
    LeadsTo L adfimage.vol.image dir name target ↔
      ∃ entry ∈ L.adfGetDirEnt adfimage.vol.image dir, entry.name = name := by
  constructor
  · rintro ⟨entry, hentry, hname, -⟩
    exact ⟨entry, hentry, hname⟩
  · rintro ⟨entry, hentry, rfl⟩
    obtain ⟨entered, hentered, htype⟩ := hL.changeDir dir entry.name target h
    obtain ⟨hmem, hsame⟩ := of_lookupName hentered
    obtain rfl := eq_of_sameName hL hmem hsame hentry (hL.refl _)
    refine ⟨entered, hmem, rfl, ?_⟩
    rcases htype with ⟨htype, hsector⟩ | ⟨htype, hsector⟩
    · exact Or.inl ⟨Or.inr htype, hsector.symm⟩
    · exact Or.inr ⟨htype, hsector.symm⟩

/-! ## The condition -/

section Condition

variable {adfimage : Adfimage Image} {path : CStr} {dir : Sector} {front : List CStr} {last : CStr}

theorem entryKept_root (h : pathNames path = []) :
    EntryKept L adfimage path dir ↔ RootReadable L adfimage := by
  constructor
  · exact fun hkept ↦ hkept.root h
  · intro hroot
    refine ⟨fun _ ↦ hroot, fun front last hnames ↦ ?_, fun front hnames ↦ ?_⟩ <;>
    · rw [h] at hnames
      exact absurd hnames (by simp)

theorem entryKept_name (h : pathNames path = front ++ [last]) (hlast : last ≠ "..".toList) :
    EntryKept L adfimage path dir ↔
      ∃ trail, walk (lookTrail L adfimage) ⟨adfimage.vol.rootBlock, []⟩ front = some trail ∧
        ∃ entry ∈ L.adfGetDirEnt adfimage.vol.image trail.current, entry.name = last := by
  constructor
  · exact fun hkept ↦ hkept.name front last h hlast
  · intro hlisted
    refine ⟨fun hnames ↦ ?_, fun front' last' hnames _ ↦ ?_, fun front' hnames ↦ ?_⟩
    · rw [h] at hnames
      exact absurd hnames (by simp)
    · obtain ⟨rfl, hsame⟩ := List.append_inj' (h.symm.trans hnames) rfl
      obtain rfl := List.singleton_inj.mp hsame
      exact hlisted
    · have hsame := (List.append_inj' (h.symm.trans hnames) rfl).2
      exact absurd (List.singleton_inj.mp hsame) hlast

theorem entryKept_parent (h : pathNames path = front ++ ["..".toList]) :
    EntryKept L adfimage path dir ↔
      LeadsTo L adfimage.vol.image dir (front.getLast?.getD ['/']) dir := by
  constructor
  · exact fun hkept ↦ hkept.parent front h
  · intro hleads
    refine ⟨fun hnames ↦ ?_, fun front' last' hnames hlast ↦ ?_, fun front' hnames ↦ ?_⟩
    · rw [h] at hnames
      exact absurd hnames (by simp)
    · have hsame := (List.append_inj' (h.symm.trans hnames) rfl).2
      exact absurd (List.singleton_inj.mp hsame).symm hlast
    · obtain rfl := (List.append_inj' (h.symm.trans hnames) rfl).1
      exact hleads

end Condition

theorem resolve_concat {adfimage : Adfimage Image} {path parent name : CStr} {trail : Trail}
    (hnames : pathNames path = pathNames parent ++ [name])
    (h : resolve L adfimage path = some trail) :
    ∃ place, resolve L adfimage parent = some place ∧
      lookTrail L adfimage place name = some trail := by
  rw [resolve, hnames, walk_append] at h
  obtain ⟨place, hplace, hlast⟩ := Option.bind_eq_some_iff.mp h
  rw [walk_cons] at hlast
  obtain ⟨next, hnext, hnil⟩ := Option.bind_eq_some_iff.mp hlast
  obtain rfl := Option.some.inj hnil
  exact ⟨place, hplace, hnext⟩

theorem getRootDentry_type_iff {adfimage : Adfimage Image} :
    (adfimageGetRootDentry L adfimage).type = .directory ↔ RootReadable L adfimage := by
  unfold adfimageGetRootDentry RootReadable
  cases L.adfReadRootBlock adfimage.vol.image adfimage.vol.rootBlock with
  | none => simp [AdfimageDentry.missing]
  | some block =>
    dsimp only
    cases hentry : L.adfEntBlock2Entry block.asEntryBlock with
    | none => simp [AdfimageDentry.missing, hentry]
    | some entry =>
      dsimp only
      split_ifs with htype <;> simp [hentry, htype]

theorem isEntryOf_root {adfimage : Adfimage Image} :
    IsEntryOf (adfimageGetRootDentry L adfimage) adfimage.vol.rootBlock ↔
      RootReadable L adfimage := by
  rw [← getRootDentry_type_iff]
  constructor
  · rintro (⟨htype, -⟩ | ⟨htype, -⟩)
    · exact htype
    · have hvalid : adfimageDentryValid (adfimageGetRootDentry L adfimage) = true := by
        simp [adfimageDentryValid, htype]
      exact (getRootDentry_valid_iff adfimage).mp hvalid
  · exact fun htype ↦ Or.inl ⟨htype, getRootDentry_sector htype⟩

/-- A path that ends with a name is looked up as it is. -/
theorem isEntryOf_name {adfimage : Adfimage Image} (hL : L.NameLookup adfimage.vol.image)
    {path parent name slash : CStr} {trail : Trail} (hparent : IsParentPath parent)
    (hnames : pathNames path = pathNames parent ++ [name]) (hne : name ≠ []) (hslash : '/' ∉ name)
    (hdots : name ≠ "..".toList) (htrail : ∀ c ∈ slash, c = '/')
    (h : resolve L adfimage path = some trail) :
    IsEntryOf (adfimageGetdentry L adfimage (parent ++ '/' :: name ++ slash)).1 trail.current ↔
      EntryKept L adfimage path trail.current := by
  obtain ⟨place, hplace, hlast⟩ := resolve_concat hnames h
  rw [lookTrail, if_neg hdots] at hlast
  obtain ⟨next, hnext, rfl⟩ := Option.map_eq_some_iff.mp hlast
  rw [getdentry_of_parent hparent hplace hne hslash htrail, isEntryOf_found hL,
    leadsTo_of_look hL hnext, entryKept_name hnames hdots]
  constructor
  · exact fun hlisted ↦ ⟨place, hplace, hlisted⟩
  · rintro ⟨place', hplace', hlisted⟩
    obtain rfl := Option.some.inj (hplace.symm.trans hplace')
    exact hlisted

/-- A path that ends with `..` is looked up as the name before, in the directory that is meant. -/
theorem isEntryOf_parent {adfimage : Adfimage Image} (hL : L.NameLookup adfimage.vol.image)
    {path parent : CStr} {trail : Trail} (hparent : IsParentPath parent)
    (hnames : pathNames path = pathNames parent ++ ["..".toList])
    (h : resolve L adfimage path = some trail) :
    IsEntryOf (adfimageGetdentry L adfimage (parent ++ "//".toList)).1 trail.current ↔
      EntryKept L adfimage path trail.current := by
  obtain ⟨place, hplace, hlast⟩ := resolve_concat hnames h
  obtain rfl := Option.some.inj hlast
  rw [entryKept_parent hnames]
  rcases hparent with rfl | hpath
  · -- the root is looked up in itself, by the name that basename gives it
    obtain rfl := Option.some.inj hplace
    have hentry : (adfimageGetdentry L adfimage ([] ++ "//".toList)).1 =
        dentryOf (adflibListFind ['/']
          (L.adfGetDirEnt adfimage.vol.image adfimage.vol.rootBlock)) := by
      rw [getdentry_fst L adfimage (by decide)]
      rfl
    rw [hentry, isEntryOf_found hL]
    rfl
  · obtain ⟨grandparent, name, rfl, hne, hslash, hgrandparent⟩ := hpath.split
    have hnames' : pathNames (grandparent ++ '/' :: name) = pathNames grandparent ++ [name] := by
      rw [pathNames_append, pathNames_name hne hslash]
    have hmem : name ∈ (grandparent ++ '/' :: name).tail.splitOn '/' := by
      rw [← hpath.pathNames_eq, hnames']
      simp
    have hdots : name ≠ "..".toList := (hpath.components name hmem).2.2
    obtain ⟨place', hplace', hlast'⟩ := resolve_concat hnames' hplace
    rw [lookTrail, if_neg hdots] at hlast'
    obtain ⟨next, hnext, rfl⟩ := Option.map_eq_some_iff.mp hlast'
    rw [getdentry_of_parent hgrandparent hplace' hne hslash (by simp), isEntryOf_found hL, hnames',
      List.getLast?_concat]
    rfl

/-- When a converted path that resolves to a directory is looked up as the entry of that directory. -/
theorem isEntryOf_getdentry_iff (adfimage : Adfimage Image) (hL : L.NameLookup adfimage.vol.image)
    (path converted : CStr) (trail : Trail) (hnul : nul ∉ path) (habs : path.head? = some '/')
    (hdot : ".".toList ∉ pathNames path) (hconverts : ConvertsTo path converted)
    (hresolves : resolve L adfimage path = some trail) :
    IsEntryOf (adfimageGetdentry L adfimage converted).1 trail.current ↔
      EntryKept L adfimage path trail.current := by
  obtain ⟨hdrop, hparent, -, rfl⟩ := (convertsTo_iff_last hnul).mp hconverts
  have hnames := pathNames_collapseSlashes hdrop
  rcases eq_or_ne (collapseSlashes path) ['/'] with hroot | hroot
  · have hnone : pathNames path = [] := by
      rw [← hnames, hroot]
      rfl
    rw [resolve, hnone] at hresolves
    obtain rfl := Option.some.inj hresolves
    rw [hroot, entryKept_root hnone]
    exact isEntryOf_root
  · obtain ⟨parent, name, slash, hpath, hisParent, hne, hslash, hend⟩ := exists_parent
      (nul_not_mem_collapseSlashes hnul) (by rw [head_collapseSlashes, habs])
      (collapseSlashes_single path) hparent (by rw [hnames]; exact hdot) hroot
    have htrail : ∀ c ∈ slash, c = '/' := by
      rcases hend with rfl | ⟨rfl, -⟩ <;> simp
    have hconcat : pathNames path = pathNames parent ++ [name] := by
      rw [← hnames, hpath, pathNames_concat parent hne hslash htrail]
    by_cases hdots : name = "..".toList
    · obtain rfl : slash = [] := hend.resolve_right fun h ↦ h.2 hdots
      subst hdots
      rw [hpath, List.append_nil, replaceLastParent_join hslash]
      exact isEntryOf_parent hL hisParent hconcat hresolves
    · have hsame : replaceLastParent (parent ++ '/' :: name ++ slash) =
          parent ++ '/' :: name ++ slash := by
        rcases hend with rfl | ⟨rfl, -⟩
        · rw [List.append_nil, replaceLastParent_join hslash, parentComponent, if_neg hdots]
        · exact replaceLastParent_slash _
      rw [hpath, hsame]
      exact isEntryOf_name hL hisParent hconcat hne hslash hdots htrail hresolves

theorem isEntryOf_getdentry_plot :
    IsEntryOf (adfimageGetdentry RamDisk.lib RamDisk.mounted "/Plot/".toList).1 882 := by
  have hnames : pathNames "/Plot//".toList = [] ++ ["Plot".toList] := by decide
  have hlisted : ∃ entry ∈ RamDisk.sample.getDirEnt 880, entry.name = "Plot".toList := by decide
  apply (isEntryOf_getdentry_iff RamDisk.mounted
    (RamDisk.nameLookup RamDisk.consistent_sample) "/Plot//".toList "/Plot/".toList ⟨882, [880]⟩
    (by decide +kernel) rfl (by decide +kernel) ⟨2, by decide +kernel⟩ rfl).mpr
  exact (entryKept_name hnames (by decide)).mpr ⟨⟨880, []⟩, rfl, hlisted⟩

/-- The parent of `Plot` is the root, and what is found is `Plot` itself. -/
theorem not_isEntryOf_getdentry_parent :
    ¬ ∀ (adfimage : Adfimage RamDisk) (path converted : CStr) (trail : Trail),
      RamDisk.lib.NameLookup adfimage.vol.image → nul ∉ path → path.head? = some '/' →
      ".".toList ∉ pathNames path → ConvertsTo path converted →
      resolve RamDisk.lib adfimage path = some trail →
      IsEntryOf (adfimageGetdentry RamDisk.lib adfimage converted).1 trail.current := by
  intro h
  have hentry := h RamDisk.mounted "/Plot/..".toList "/Plot//".toList ⟨880, []⟩
    (RamDisk.nameLookup RamDisk.consistent_sample) (by decide +kernel) rfl (by decide +kernel)
    ⟨2, by decide +kernel⟩ rfl
  have hplot : parentSector
      (adfimageGetdentry RamDisk.lib RamDisk.mounted "/Plot//".toList).1 = 882 := by decide +kernel
  have hroot := (isEntryOf_iff.mp hentry).2
  rw [hplot] at hroot
  exact absurd hroot (by decide)

end FuseAdf
