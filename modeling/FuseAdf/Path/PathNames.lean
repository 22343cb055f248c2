import FuseAdf.Path.Converting

/-!
# The names of a path

A path as its reader understands it: empty components do not count.  A path without double slashes is
the root, or a parent, a name and perhaps one slash; what the conversion makes of it keeps the parent.
-/

namespace FuseAdf

/-- The components of a path, with repeated slashes read as one. -/
def pathNames (path : CStr) : List CStr := (path.splitOn '/').filter (· ≠ [])

example : pathNames "/a//../b/".toList = ["a".toList, "..".toList, "b".toList] := by decide

theorem pathNames_append (front back : CStr) :
    pathNames (front ++ '/' :: back) = pathNames front ++ pathNames back := by
  rw [pathNames, List.splitOn_append_cons_self, List.filter_append]
  rfl

@[simp] theorem pathNames_nil : pathNames [] = [] := rfl

theorem pathNames_name {name : CStr} (hne : name ≠ []) (hslash : '/' ∉ name) :
    pathNames name = [name] := by
  rw [pathNames, List.splitOn_eq_singleton hslash, List.filter_cons_of_pos (by simpa using hne)]
  rfl

theorem pathNames_slashes {trail : CStr} (h : ∀ c ∈ trail, c = '/') : pathNames trail = [] := by
  induction trail with
  | nil => rfl
  | cons c trail ih =>
    obtain rfl := h c List.mem_cons_self
    have happend := pathNames_append [] trail
    rw [List.nil_append, pathNames_nil, List.nil_append] at happend
    rw [happend, ih fun other hother ↦ h other (List.mem_cons_of_mem _ hother)]

/-- Slashes at the end do not count. -/
theorem pathNames_trail (front : CStr) {trail : CStr} (h : ∀ c ∈ trail, c = '/') :
    pathNames (front ++ trail) = pathNames front := by
  cases trail with
  | nil => rw [List.append_nil]
  | cons c trail =>
    obtain rfl := h c List.mem_cons_self
    rw [pathNames_append, pathNames_slashes fun other hother ↦ h other (List.mem_cons_of_mem _ hother),
      List.append_nil]

theorem pathNames_concat (parent : CStr) {name trail : CStr} (hne : name ≠ []) (hslash : '/' ∉ name)
    (htrail : ∀ c ∈ trail, c = '/') :
    pathNames (parent ++ '/' :: name ++ trail) = pathNames parent ++ [name] := by
  rw [pathNames_trail _ htrail, pathNames_append, pathNames_name hne hslash]

theorem pathNames_collapseSlashes {path : CStr} (h : ¬ "//".toList <:+: path.dropLast) :
    pathNames (collapseSlashes path) = pathNames path := by
  by_cases hslashes : "//".toList <:+: path
  · obtain ⟨front, rfl⟩ := suffix_of_occurs hslashes h
    have hdrop : (front ++ "//".toList).dropLast = front ++ ['/'] := by
      rw [List.dropLast_append_of_ne_nil (by decide)]
      rfl
    rw [hdrop] at h
    rw [collapseSlashes_concat h, pathNames_trail front (by simp), pathNames_trail front (by simp)]
  · rw [collapseSlashes_of_single hslashes]

theorem pathNames_of_absolute {path : CStr} (habs : path.head? = some '/')
    (hempty : [] ∉ path.tail.splitOn '/') : pathNames path = path.tail.splitOn '/' := by
  have hnames : pathNames path = pathNames path.tail := by
    have happend := pathNames_append [] path.tail
    rwa [List.nil_append, ← eq_cons_tail habs] at happend
  rw [hnames, pathNames, List.filter_eq_self.mpr]
  intro name hname
  have hne : name ≠ [] := fun hnil ↦ hempty (hnil ▸ hname)
  simpa using hne

/-- The components of an absolute path that neither repeats slashes nor ends with one. -/
theorem pathNames_tail {path : CStr} (habs : path.head? = some '/')
    (hsingle : ¬ "//".toList <:+: path ++ ['/']) : pathNames path = path.tail.splitOn '/' := by
  apply pathNames_of_absolute habs
  intro hmem
  have hbetween := infix_of_mem_components hmem
  rw [List.intercalate_splitOn, ← eq_cons_tail habs] at hbetween
  exact hsingle hbetween

theorem IsFusePath.pathNames_eq {path : CStr} (h : IsFusePath path) :
    pathNames path = path.tail.splitOn '/' :=
  pathNames_of_absolute h.absolute fun hmem ↦ (h.components [] hmem).1 rfl

/-- The path of the root, without its slash, or a path as FUSE sends it. -/
def IsParentPath (path : CStr) : Prop := path = [] ∨ IsFusePath path

theorem isParentPath_of_front {parent back : CStr} (hnul : nul ∉ parent ++ '/' :: back)
    (habs : (parent ++ '/' :: back).head? = some '/')
    (hsingle : ¬ "//".toList <:+: parent ++ '/' :: back)
    (hparent : ¬ "../".toList <:+: parent ++ '/' :: back)
    (hdot : ".".toList ∉ pathNames (parent ++ '/' :: back)) : IsParentPath parent := by
  rcases eq_or_ne parent [] with hnil | hne
  · exact Or.inl hnil
  have hhead : parent.head? = some '/' := by
    rwa [List.head?_append_of_ne_nil _ hne] at habs
  have hfront : parent ++ ['/'] <:+: parent ++ '/' :: back := ⟨[], back, by simp⟩
  refine Or.inr ⟨hhead, ?_, fun hmem ↦ hnul (List.mem_append_left _ hmem)⟩
  intro name hname
  refine ⟨?_, ?_, ?_⟩
  · rw [← pathNames_tail hhead fun hoccurs ↦ hsingle (hoccurs.trans hfront)] at hname
    simpa using (List.mem_filter.mp hname).2
  · rintro rfl
    rw [← pathNames_tail hhead fun hoccurs ↦ hsingle (hoccurs.trans hfront)] at hname
    exact hdot (by rw [pathNames_append]; exact List.mem_append_left _ hname)
  · rintro rfl
    have htail : parent.tail ++ ['/'] <:+: parent ++ ['/'] := by
      rw [eq_cons_tail hhead]
      exact (List.suffix_cons '/' _).isInfix
    exact hparent ((infix_of_mem_splitOn hname).trans (htail.trans hfront))

/-- An absolute path without double slashes and with `..` in the last place only: its parent is a path
as FUSE sends it. -/
theorem exists_parent {path : CStr} (hnul : nul ∉ path) (habs : path.head? = some '/')
    (hsingle : ¬ "//".toList <:+: path) (hparent : ¬ "../".toList <:+: path)
    (hdot : ".".toList ∉ pathNames path) (hroot : path ≠ ['/']) :
    ∃ parent name trail, path = parent ++ '/' :: name ++ trail ∧ IsParentPath parent ∧
      name ≠ [] ∧ '/' ∉ name ∧ (trail = [] ∨ trail = ['/'] ∧ name ≠ "..".toList) := by
  obtain ⟨parent, name, rfl, hslash⟩ := exists_last_slash (List.mem_of_mem_head? habs)
  rcases eq_or_ne name [] with rfl | hname
  · -- a slash at the end: the name stands before it
    have hne : parent ≠ [] := by
      rintro rfl
      exact hroot rfl
    have hhead : parent.head? = some '/' := by
      rwa [List.head?_append_of_ne_nil _ hne] at habs
    obtain ⟨grandparent, name, rfl, hslash'⟩ := exists_last_slash (List.mem_of_mem_head? hhead)
    have hpath : grandparent ++ '/' :: name ++ ['/'] = grandparent ++ '/' :: (name ++ ['/']) := by
      simp
    refine ⟨grandparent, name, ['/'], rfl, ?_, ?_, hslash', Or.inr ⟨rfl, ?_⟩⟩
    · rw [hpath] at hnul habs hsingle hparent hdot
      exact isParentPath_of_front hnul habs hsingle hparent hdot
    · rintro rfl
      exact hsingle ⟨grandparent, [], by simp⟩
    · rintro rfl
      exact hparent ⟨grandparent ++ ['/'], [], by simp⟩
  · refine ⟨parent, name, [], by simp, ?_, hname, hslash, Or.inl rfl⟩
    exact isParentPath_of_front hnul habs hsingle hparent hdot

/-- What the two functions of libgen.h make of such a path. -/
theorem IsParentPath.splits {parent name trail : CStr} (h : IsParentPath parent) (hne : name ≠ [])
    (hslash : '/' ∉ name) (htrail : ∀ c ∈ trail, c = '/') :
    dirname (parent ++ '/' :: name ++ trail) = (if parent = [] then ['/'] else parent) ∧
      basename (parent ++ '/' :: name ++ trail) = name := by
  have hsplit : Splits (parent ++ '/' :: name ++ trail) (parent ++ ['/']) name :=
    ⟨⟨trail, by simp, htrail⟩, by simp, hne, hslash⟩
  refine ⟨?_, hsplit.basename_eq⟩
  rw [hsplit.dirname_eq, if_neg (by simp)]
  rcases h with rfl | hparent
  · decide
  · have hnil : parent ≠ [] := by
      rintro rfl
      exact absurd hparent.absolute (by simp)
    rw [if_neg hnil, trimDir_concat_slash hnil (hparent.getLast_ne hnil)]

end FuseAdf
