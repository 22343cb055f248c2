import FuseAdf.Path.PathNames

/-!
# Paths as FUSE sends them, by their names

The root or a path with components: what the functions of libgen.h take apart, and what the conversion
of a directory part ends on, said of the list of the components alone.
-/

namespace FuseAdf

/-- A path inside of the mount point: its root, or a path with components. -/
def IsMountPath (path : CStr) : Prop := path = ['/'] ∨ IsFusePath path

/-- The last component: the name of an entry in its directory. -/
def entryName (names : List CStr) : CStr := names.getLastD []

@[simp] theorem entryName_concat (names : List CStr) (name : CStr) :
    entryName (names ++ [name]) = name := by
  simp [entryName]

@[simp] theorem pathNames_root : pathNames ['/'] = [] := rfl

theorem pathNames_join (parent : CStr) {name : CStr} (hne : name ≠ []) (hslash : '/' ∉ name) :
    pathNames (parent ++ '/' :: name) = pathNames parent ++ [name] := by
  rw [pathNames_append, pathNames_name hne hslash]

section Parts

variable {path : CStr}

/-- The directory is again a path inside of the mount point, and its names are all but the last. -/
theorem IsFusePath.parts (h : IsFusePath path) :
    IsMountPath (dirname path) ∧ pathNames path = pathNames (dirname path) ++ [basename path] := by
  obtain ⟨parent, name, rfl, hname, hslash, hparent⟩ := h.split
  have hsplits := @IsParentPath.splits parent name [] hparent hname hslash (by simp)
  rw [List.append_nil] at hsplits
  obtain ⟨hdirname, hbasename⟩ := hsplits
  rw [hdirname, hbasename, pathNames_join parent hname hslash]
  rcases hparent with rfl | hparent
  · exact ⟨Or.inl rfl, rfl⟩
  · have hne : parent ≠ [] := by
      rintro rfl
      exact absurd hparent.absolute (by simp)
    rw [if_neg hne]
    exact ⟨Or.inr hparent, rfl⟩

theorem IsFusePath.dirname_mount (h : IsFusePath path) : IsMountPath (dirname path) := h.parts.1

theorem IsFusePath.pathNames_dirname (h : IsFusePath path) :
    pathNames (dirname path) = (pathNames path).dropLast := by
  rw [h.parts.2, List.dropLast_concat]

theorem IsFusePath.basename_eq (h : IsFusePath path) : basename path = entryName (pathNames path) := by
  rw [h.parts.2, entryName_concat]

theorem IsFusePath.pathNames_ne_nil (h : IsFusePath path) : pathNames path ≠ [] := by
  rw [h.parts.2]
  simp

theorem IsMountPath.absolute (h : IsMountPath path) : path.head? = some '/' := by
  rcases h with rfl | h
  · rfl
  · exact h.absolute

end Parts

/-- The directories in whose path the conversion for a renaming finds nothing to replace: no name
begins with two dots, and none before the last ends with two. -/
def AreConvertible (names : List CStr) : Prop :=
  (∀ name ∈ names, ¬ "..".toList <+: name) ∧ ∀ name ∈ names.dropLast, ¬ "..".toList <:+ name

instance (names : List CStr) : Decidable (AreConvertible names) :=
  inferInstanceAs (Decidable (_ ∧ _))

example : AreConvertible ["a".toList, "b..".toList] ∧ ¬ AreConvertible ["b..".toList, "a".toList] := by
  decide

section Occurrences

variable {parent name : CStr} (hslash : '/' ∉ name)

include hslash

/-- A slash with two dots behind it is the one before the name, or stands in the parent. -/
theorem infix_slash_dots_iff :
    "/..".toList <:+: parent ++ '/' :: name ↔ "/..".toList <:+: parent ∨ "..".toList <+: name := by
  have hname : ¬ "/..".toList <:+: name := fun hoccurs ↦ hslash (hoccurs.subset (by decide))
  have hfront : "/..".toList <+: '/' :: name ↔ "..".toList <+: name := List.prefix_cons_inj '/'
  rw [List.infix_append_iff, List.infix_cons_iff, hfront, or_iff_left hname]
  constructor
  · rintro (hparent | hdots | ⟨front, back, hsplit, hsuffix, hback⟩)
    · exact Or.inl hparent
    · exact Or.inr hdots
    · cases back with
      | nil =>
        rw [List.append_nil] at hsplit
        exact Or.inl (hsplit ▸ hsuffix.isInfix)
      | cons c back =>
        -- the name's slash begins `/..`: nothing of it stands in the parent
        obtain ⟨rfl, -⟩ := List.cons_prefix_cons.mp hback
        cases front with
        | nil =>
          rw [List.nil_append] at hsplit
          exact Or.inr (hfront.mp (hsplit ▸ hback))
        | cons d front =>
          have htail : ".".toList ++ ".".toList = front ++ '/' :: back := (List.cons.inj hsplit).2
          have hmem : '/' ∈ ".".toList ++ ".".toList := by
            rw [htail]
            simp
          exact absurd hmem (by decide)
  · rintro (hparent | hdots)
    · exact Or.inl hparent
    · exact Or.inr (Or.inl hdots)

/-- Two dots with a slash behind them end the parent, or stand in it. -/
theorem infix_dots_slash_iff :
    "../".toList <:+: parent ++ '/' :: name ↔
      "../".toList <:+: parent ∨ "..".toList <:+ parent := by
  have hlast : "../".toList <:+ parent ++ ['/'] ↔ "..".toList <:+ parent := by
    constructor
    · rintro ⟨front, hfront⟩
      have happend : front ++ "..".toList ++ ['/'] = parent ++ ['/'] := by
        rw [← hfront, List.append_assoc]
        rfl
      exact ⟨front, List.append_cancel_right happend⟩
    · rintro ⟨front, rfl⟩
      exact ⟨front, by simp⟩
  have hparent : "../".toList <:+: parent ++ ['/'] ↔
      "../".toList <:+: parent ∨ "..".toList <:+ parent := by
    rw [List.infix_concat_iff, hlast, or_comm]
  rw [← hparent, show parent ++ '/' :: name = parent ++ ['/'] ++ name by simp, List.infix_append_iff]
  constructor
  · rintro (hfront | hname | ⟨front, back, hsplit, hsuffix, hback⟩)
    · exact hfront
    · exact absurd (hname.subset (by decide)) hslash
    · rcases List.eq_nil_or_concat' back with rfl | ⟨init, c, rfl⟩
      · rw [List.append_nil] at hsplit
        exact hsplit ▸ hsuffix.isInfix
      · -- the slash would stand in the name
        have hc : c = '/' := by
          have hlast := congrArg List.getLast? hsplit
          simpa using hlast.symm
        exact absurd (hback.subset (by simp [hc])) hslash
  · exact Or.inl

end Occurrences

/-- The end of a path is the end of its last name. -/
theorem suffix_dots_iff {parent name : CStr} :
    "..".toList <:+ parent ++ '/' :: name ↔ "..".toList <:+ name := by
  constructor
  · intro hdots
    have hname : name <:+ parent ++ '/' :: name := ⟨parent ++ ['/'], by simp⟩
    by_cases hlength : 2 ≤ name.length
    · exact List.suffix_of_suffix_length_le hdots hname hlength
    · have hback : '/' :: name <:+ parent ++ '/' :: name := ⟨parent, rfl⟩
      have hshort : ('/' :: name).length ≤ "..".toList.length := Nat.lt_of_not_le hlength
      have hwithin := List.suffix_of_suffix_length_le hback hdots hshort
      exact absurd (hwithin.subset List.mem_cons_self) (by decide)
  · exact fun hdots ↦ hdots.trans ⟨parent ++ ['/'], by simp⟩

theorem areConvertible_concat (names : List CStr) (name : CStr) :
    AreConvertible (names ++ [name]) ↔ AreConvertible names ∧ ¬ "..".toList <+: name ∧
      ¬ "..".toList <:+ entryName names := by
  have hbefore : (∀ other ∈ names, ¬ "..".toList <:+ other) ↔
      (∀ other ∈ names.dropLast, ¬ "..".toList <:+ other) ∧ ¬ "..".toList <:+ entryName names := by
    rcases List.eq_nil_or_concat' names with rfl | ⟨init, last, rfl⟩
    · exact iff_of_true (by simp) ⟨by simp, by decide⟩
    · simp [or_imp, forall_and]
  rw [AreConvertible, List.dropLast_concat, hbefore, AreConvertible]
  simp only [List.mem_append, List.mem_singleton, or_imp, forall_and, forall_eq]
  exact and_and_and_comm

/-- The parent of a name ends as its last name does, and the root's path has no name. -/
theorem IsParentPath.suffix_dots_iff {parent : CStr} (h : IsParentPath parent) :
    "..".toList <:+ parent ↔ "..".toList <:+ entryName (pathNames parent) := by
  rcases h with rfl | h
  · exact Iff.rfl
  · obtain ⟨front, name, rfl, hname, hslash, -⟩ := h.split
    rw [pathNames_join front hname hslash, entryName_concat, FuseAdf.suffix_dots_iff]

/-- The induction is on the names, the last one first. -/
theorem IsParentPath.isConvertible_iff {names : List CStr} {path : CStr} (h : IsParentPath path)
    (hpath : pathNames path = names) : IsConvertible path ↔ AreConvertible names := by
  induction names using List.reverseRecOn generalizing path with
  | nil =>
    rcases h with rfl | h
    · exact iff_of_true ⟨by decide, by decide⟩ (by decide)
    · exact absurd hpath h.pathNames_ne_nil
  | append_singleton names name ih =>
    rcases h with rfl | h
    · simp at hpath
    obtain ⟨parent, last, rfl, hlast, hslash, hparent⟩ := h.split
    rw [pathNames_join parent hlast hslash] at hpath
    obtain ⟨rfl, hname⟩ := List.append_inj' hpath rfl
    obtain rfl := List.singleton_inj.mp hname
    have hdots : "..".toList <:+ parent ↔ _ := IsParentPath.suffix_dots_iff hparent
    have hfront : IsConvertible parent ↔ _ := ih hparent rfl
    rw [IsConvertible, infix_slash_dots_iff hslash, infix_dots_slash_iff hslash,
      areConvertible_concat, ← hfront, ← hdots, IsConvertible, not_or, not_or]
    exact and_and_and_comm.trans (and_congr_right' and_comm)

theorem IsMountPath.isConvertible_iff {path : CStr} (h : IsMountPath path) :
    IsConvertible path ↔ AreConvertible (pathNames path) := by
  rcases h with rfl | h
  · exact iff_of_true ⟨by decide, by decide⟩ (by decide)
  · exact IsParentPath.isConvertible_iff (Or.inr h) rfl

end FuseAdf
