import FuseAdf.Path.ParentDirs

/-!
# When the conversion of a directory part ends

`pathstr_fuse2amigados` replaces `../` and a trailing `/..`.  The loops that should shift the rest of
the string copy one character onto the same place again and again, and a `/..` that is not at the end
is found again by every search.  So for a path as FUSE sends it the conversion either changes nothing
or never ends.
-/

namespace FuseAdf

theorem nul_not_mem_collapseSlashes {pathstr : CStr} (hnul : nul ∉ pathstr) :
    nul ∉ collapseSlashes pathstr :=
  fun hmem ↦ hnul (mem_of_mem_collapseSlashes hmem)

/-- When the conversion ends, and what it has made of the last component. -/
theorem convertsTo_iff_last {pathstr converted : CStr} (hnul : nul ∉ pathstr) :
    ConvertsTo pathstr converted ↔ ¬ "//".toList <:+: pathstr.dropLast ∧
      ¬ "../".toList <:+: collapseSlashes pathstr ∧
      ¬ "/..".toList <:+: (collapseSlashes pathstr).dropLast ∧
      converted = replaceLastParent (collapseSlashes pathstr) := by
  have hnulSingle := nul_not_mem_collapseSlashes hnul
  constructor
  · intro ⟨fuel, h⟩
    obtain ⟨single, hremove, hparents⟩ := Option.bind_eq_some_iff.mp h
    obtain ⟨hdrop, rfl⟩ := (removeDoubleSlashes_iff hnul).mp ⟨fuel, hremove⟩
    exact ⟨hdrop, (dirparentU2a_iff hnulSingle).mp ⟨fuel, hparents⟩⟩
  · rintro ⟨hdrop, hparent, hend, rfl⟩
    exact ⟨2, Option.bind_eq_some_iff.mpr ⟨collapseSlashes pathstr,
      removeDoubleSlashes_eq_collapse hnul hdrop 0,
      dirparentU2a_eq_last hnulSingle hparent hend 0⟩⟩

/-- Nothing in the string is taken for a parent directory. -/
def IsConvertible (pathstr : CStr) : Prop :=
  ¬ "../".toList <:+: pathstr ∧ ¬ "/..".toList <:+: pathstr

/-- A string without double slashes that does not end with `/..` is left as it is, or its conversion
does not end. -/
theorem convertsTo_iff {pathstr converted : CStr} (hnul : nul ∉ pathstr)
    (hsingle : ¬ "//".toList <:+: pathstr) (hend : ¬ "/..".toList <:+ pathstr) :
    ConvertsTo pathstr converted ↔ IsConvertible pathstr ∧ converted = pathstr := by
  have hdrop : ¬ "//".toList <:+: pathstr.dropLast :=
    fun hoccurs ↦ hsingle (hoccurs.trans (List.dropLast_prefix _).isInfix)
  have hinner : "/..".toList <:+: pathstr.dropLast ↔ "/..".toList <:+: pathstr := by
    constructor
    · exact fun hoccurs ↦ hoccurs.trans (List.dropLast_prefix _).isInfix
    · intro hoccurs
      by_contra hnone
      exact hend (suffix_of_occurs hoccurs hnone)
  rw [convertsTo_iff_last hnul, collapseSlashes_of_single hsingle, hinner, replaceLastParent,
    if_neg hend, IsConvertible, and_assoc]
  exact and_iff_right hdrop

/-- An absolute path with at least one component, in which no component is empty, a dot or two
dots. -/
structure IsFusePath (path : CStr) : Prop where
  absolute : path.head? = some '/'
  components : ∀ name ∈ path.tail.splitOn '/', name ≠ [] ∧ name ≠ ".".toList ∧ name ≠ "..".toList
  nul : nul ∉ path

/-- The last component and the path of its directory, which is empty for the root. -/
theorem IsFusePath.split {path : CStr} (h : IsFusePath path) :
    ∃ parent name, path = parent ++ '/' :: name ∧ name ≠ [] ∧ '/' ∉ name ∧
      (parent = [] ∨ IsFusePath parent) := by
  obtain ⟨parent, name, rfl, hslash⟩ := exists_last_slash (List.mem_of_mem_head? h.absolute)
  have hcomponents := h.components
  cases parent with
  | nil =>
    rw [List.nil_append, List.tail_cons, List.splitOn_eq_singleton hslash] at hcomponents
    exact ⟨[], name, rfl, (hcomponents name List.mem_cons_self).1, hslash, Or.inl rfl⟩
  | cons c parent =>
    have hc : c = '/' := by simpa using h.absolute
    subst hc
    rw [List.cons_append, List.tail_cons, List.splitOn_append_cons_self,
      List.splitOn_eq_singleton hslash] at hcomponents
    refine ⟨'/' :: parent, name, rfl, (hcomponents name (by simp)).1, hslash, Or.inr ?_⟩
    exact ⟨rfl, fun other hother ↦ hcomponents other (List.mem_append_left _ hother),
      fun hnul ↦ h.nul (List.mem_append_left _ hnul)⟩

/-- Two slashes in a row would have an empty component between them. -/
theorem IsFusePath.single {path : CStr} (h : IsFusePath path) : ¬ "//".toList <:+: path := by
  rintro ⟨front, back, hpath⟩
  have htail := eq_cons_tail h.absolute
  have hempty : [] ∈ path.tail.splitOn '/' := by
    cases front with
    | nil =>
      have hrest : path.tail = [] ++ '/' :: back := by
        rw [← hpath]
        rfl
      rw [hrest, List.splitOn_append_cons_self]
      simp
    | cons c front =>
      have hrest : path.tail = (front ++ '/' :: []) ++ '/' :: back := by
        rw [← hpath]
        simp
      rw [hrest, List.splitOn_append_cons_self, List.splitOn_append_cons_self]
      simp
  exact (h.components [] hempty).1 rfl

/-- The last component is not two dots. -/
theorem IsFusePath.not_parent {path : CStr} (h : IsFusePath path) : ¬ "/..".toList <:+ path := by
  rintro ⟨front, hpath⟩
  have hdots : "..".toList ∈ path.tail.splitOn '/' := by
    cases front with
    | nil =>
      have hrest : path.tail = "..".toList := by
        rw [← hpath]
        rfl
      rw [hrest]
      decide
    | cons c front =>
      have hrest : path.tail = front ++ '/' :: "..".toList := by
        rw [← hpath]
        rfl
      rw [hrest, List.splitOn_append_cons_self]
      exact List.mem_append_right _ (by decide)
  exact (h.components _ hdots).2.2 rfl

theorem IsFusePath.getLast_ne {path : CStr} (h : IsFusePath path) (hne : path ≠ []) :
    path.getLast hne ≠ '/' := by
  obtain ⟨parent, name, rfl, hname, hslash, -⟩ := h.split
  rw [List.getLast_append_of_ne_nil _ (List.cons_ne_nil _ _), List.getLast_cons hname]
  intro hlast
  exact hslash (hlast ▸ List.getLast_mem hname)

/-- The directory part of such a path is the root or again such a path. -/
theorem IsFusePath.dirname_eq {path : CStr} (h : IsFusePath path) :
    dirname path = ['/'] ∨ IsFusePath (dirname path) := by
  obtain ⟨parent, name, rfl, hname, hslash, hparent⟩ := h.split
  rw [(splits_join parent hname hslash).dirname_eq, if_neg (by simp)]
  rcases hparent with rfl | hparent
  · exact Or.inl (by decide)
  · have hne : parent ≠ [] := by
      rintro rfl
      exact absurd hparent.absolute (by simp)
    rw [trimDir_concat_slash hne (hparent.getLast_ne hne)]
    exact Or.inr hparent

/-- The conversion of the directory part of such a path changes nothing, or does not end. -/
theorem IsFusePath.convertsTo_dirname_iff {path converted : CStr} (h : IsFusePath path) :
    ConvertsTo (dirname path) converted ↔
      IsConvertible (dirname path) ∧ converted = dirname path := by
  rcases h.dirname_eq with hroot | hdir
  · rw [hroot]
    exact convertsTo_iff (by decide) (by decide) (by decide)
  · exact convertsTo_iff hdir.nul hdir.single hdir.not_parent

end FuseAdf
