import FuseAdf.Path.DoubleSlashes

/-!
# Parent directories in AmigaDOS notation

The first loop of `pathstr_dirparent_u2a` never ends when it finds `../`, and the second one never ends
when it finds a `/..` that is not at the end.  Only a `/..` at the end is replaced, and a string that
is nothing but `..` is left as it is.
-/

namespace FuseAdf

/-- A component as AmigaDOS reads it: the parent directory is an empty one. -/
def parentComponent (name : CStr) : CStr := if name = "..".toList then "/".toList else name

/-- The replacement that the comment on `pathstr_dirparent_u2a` describes, for each component. -/
def replaceParents (pathstr : CStr) : CStr :=
  ['/'].intercalate ((pathstr.splitOn '/').map parentComponent)

/-- The replacement of the last component only. -/
def replaceLastParent (pathstr : CStr) : CStr :=
  if "/..".toList <:+ pathstr then pathstr.dropLast.dropLast ++ ['/'] else pathstr

example : replaceParents "a/..".toList = "a//".toList := by decide

theorem dirparentLoop_of_none {pathstr : CStr} (hnul : nul ∉ pathstr)
    (h : ¬ "../".toList <:+: pathstr) (fuel : ℕ) :
    dirparentLoop (fuel + 1) (pathstr ++ [nul]) = some (pathstr ++ [nul]) := by
  rw [dirparentLoop, cstrAt_zero hnul, (strstr_eq_none_iff (by decide)).mpr h]

/-- The slash of `../` is behind the place that is to be overwritten. -/
theorem dirparentLoop_eq_none {pathstr : CStr} (hnul : nul ∉ pathstr)
    (h : "../".toList <:+: pathstr) (fuel : ℕ) : dirparentLoop fuel (pathstr ++ [nul]) = none := by
  cases fuel with
  | zero => rfl
  | succ fuel =>
    rw [dirparentLoop, cstrAt_zero hnul]
    cases hfind : strstr "../".toList pathstr with
    | none => exact absurd h ((strstr_eq_none_iff (by decide)).mp hfind)
    | some parent =>
      obtain ⟨front, back, rfl, rfl⟩ := exists_of_strstr hfind
      have hslash : load ((front ++ "../".toList ++ back ++ [nul]).set front.length '/')
          (front.length + 1 + 1) = '/' := by
        rw [List.append_assoc, List.append_assoc, List.set_append_right _ _ (Nat.le_refl _),
          load_append front _ 2]
        simp [load]
      dsimp only
      rw [copyNext_eq_none (by rw [hslash]; decide)]
      rfl

theorem dirparentEndLoop_of_none {pathstr : CStr} (hnul : nul ∉ pathstr)
    (h : ¬ "/..".toList <:+: pathstr) (fuel : ℕ) :
    dirparentEndLoop (fuel + 1) (pathstr ++ [nul]) = some (pathstr ++ [nul]) := by
  rw [dirparentEndLoop, cstrAt_zero hnul, (strstr_eq_none_iff (by decide)).mpr h]

/-- A `/..` that is not at the end is left as it is and found again. -/
theorem dirparentEndLoop_eq_none {pathstr : CStr} (hnul : nul ∉ pathstr)
    (h : "/..".toList <:+: pathstr.dropLast) (fuel : ℕ) :
    dirparentEndLoop fuel (pathstr ++ [nul]) = none := by
  induction fuel with
  | zero => rfl
  | succ fuel ih =>
    rw [dirparentEndLoop, cstrAt_zero hnul]
    cases hfind : strstr "/..".toList pathstr with
    | none =>
      exact absurd (h.trans (List.dropLast_prefix _).isInfix)
        ((strstr_eq_none_iff (by decide)).mp hfind)
    | some parent =>
      obtain ⟨front, c, back, hpath, rfl⟩ := exists_more_of_strstr (by decide) hfind h
      have hc : c ≠ nul := by
        rintro rfl
        exact hnul (by simp [hpath])
      have hload : load (pathstr ++ [nul]) (front.length + 3) = c := by
        rw [hpath, List.append_assoc, List.append_assoc, load_append]
        rfl
      dsimp only
      rw [if_neg (by rw [hload]; exact hc)]
      exact ih

theorem infix_of_infix_slash {text : CStr} (h : "/..".toList <:+: text ++ ['/']) :
    "/..".toList <:+: text := by
  by_contra htext
  obtain ⟨front, hfront⟩ := suffix_of_occurs h (by rwa [List.dropLast_concat])
  have hlast := congrArg List.getLast? hfront
  rw [List.getLast?_append_of_ne_nil _ (by decide), List.getLast?_concat] at hlast
  exact absurd hlast (by decide)

/-- Nothing is found in what the replacement at the end leaves. -/
theorem not_infix_slashes {front : CStr} (h : ¬ "/..".toList <:+: front ++ "/.".toList) :
    ¬ "/..".toList <:+: front ++ "//".toList := by
  intro hoccurs
  have hfront : "/..".toList <:+: front := by
    apply infix_of_infix_slash
    apply infix_of_infix_slash
    rwa [List.append_assoc]
  exact h (hfront.trans (List.prefix_append _ _).isInfix)

/-- A `/..` at the end becomes two slashes. -/
theorem dirparentEndLoop_concat {front : CStr} (hnul : nul ∉ front)
    (h : ¬ "/..".toList <:+: front ++ "/.".toList) (fuel : ℕ) :
    dirparentEndLoop (fuel + 2) (front ++ "/..".toList ++ [nul]) =
      some (front ++ "//".toList ++ [nul, nul]) := by
  have hparent : nul ∉ front ++ "/..".toList := by simpa [nul] using hnul
  have hfind : strstr "/..".toList (front ++ "/..".toList) = some front.length := by
    apply strstr_concat (by decide)
    have hdrop : (front ++ "/..".toList).dropLast = front ++ "/.".toList := by
      rw [List.dropLast_append_of_ne_nil (by decide)]
      rfl
    rw [hdrop]
    exact h
  have hend : load (front ++ "/..".toList ++ [nul]) (front.length + 3) = nul := by
    rw [List.append_assoc, load_append]
    rfl
  have hset : (front ++ "/..".toList ++ [nul]).set (front.length + 1) '/' =
      front ++ "//".toList ++ ['.', nul] := by
    rw [List.append_assoc, List.append_assoc, List.set_append_right _ _ (Nat.le_add_right _ _),
      Nat.add_sub_cancel_left]
    rfl
  have hcopy : copyNext (fuel + 1) (front ++ "//".toList ++ ['.', nul]) (front.length + 2) =
      some (front ++ "//".toList ++ [nul, nul]) := by
    have hlast := copyNext_last (front ++ "//".toList) '.' fuel
    rwa [List.length_append] at hlast
  have hslashes : cstrAt (front ++ "//".toList ++ [nul, nul]) 0 = front ++ "//".toList :=
    cstrAt_append [] (by simpa [nul] using hnul) [nul]
  rw [dirparentEndLoop, cstrAt_zero hparent, hfind]
  dsimp only
  rw [if_pos hend, hset, hcopy]
  change dirparentEndLoop (fuel + 1) (front ++ "//".toList ++ [nul, nul]) = _
  rw [dirparentEndLoop, hslashes, (strstr_eq_none_iff (by decide)).mpr (not_infix_slashes h)]

/-! ## The two loops together -/

theorem replaceLastParent_concat (front : CStr) :
    replaceLastParent (front ++ "/..".toList) = front ++ "//".toList := by
  have hdrop : (front ++ "/..".toList).dropLast.dropLast = front ++ ['/'] := by
    rw [List.dropLast_append_of_ne_nil (by decide), List.dropLast_append_of_ne_nil (by decide)]
    rfl
  rw [replaceLastParent, if_pos (List.suffix_append _ _), hdrop, List.append_assoc]
  rfl

/-- Without `../`, and with `/..` at most at the end, there is a result. -/
theorem dirparentU2a_eq_last {pathstr : CStr} (hnul : nul ∉ pathstr)
    (hparent : ¬ "../".toList <:+: pathstr) (hend : ¬ "/..".toList <:+: pathstr.dropLast)
    (fuel : ℕ) : pathstrDirparentU2a (fuel + 2) pathstr = some (replaceLastParent pathstr) := by
  rw [pathstrDirparentU2a, dirparentLoop_of_none hnul hparent]
  by_cases hlast : "/..".toList <:+: pathstr
  · obtain ⟨front, rfl⟩ := suffix_of_occurs hlast hend
    have hfront : nul ∉ front := fun hmem ↦ hnul (List.mem_append_left _ hmem)
    have hdrop : (front ++ "/..".toList).dropLast = front ++ "/.".toList := by
      rw [List.dropLast_append_of_ne_nil (by decide)]
      rfl
    rw [hdrop] at hend
    change (dirparentEndLoop (fuel + 2) _).bind (fun buf ↦ some (cstrAt buf 0)) = _
    rw [dirparentEndLoop_concat hfront hend, Option.bind_some, replaceLastParent_concat]
    exact congrArg some (cstrAt_append [] (by simpa [nul] using hfront) [nul])
  · have hsame : replaceLastParent pathstr = pathstr :=
      if_neg fun hsuffix ↦ hlast hsuffix.isInfix
    change (dirparentEndLoop (fuel + 2) _).bind (fun buf ↦ some (cstrAt buf 0)) = _
    rw [dirparentEndLoop_of_none hnul hlast, Option.bind_some, cstrAt_zero hnul, hsame]

theorem dirparentU2a_iff {pathstr : CStr} (hnul : nul ∉ pathstr) {converted : CStr} :
    (∃ fuel, pathstrDirparentU2a fuel pathstr = some converted) ↔
      ¬ "../".toList <:+: pathstr ∧ ¬ "/..".toList <:+: pathstr.dropLast ∧
        converted = replaceLastParent pathstr := by
  constructor
  · intro ⟨fuel, h⟩
    obtain ⟨middle, hmiddle, hlast⟩ := Option.bind_eq_some_iff.mp h
    obtain ⟨last, hloop, -⟩ := Option.bind_eq_some_iff.mp hlast
    have hparent : ¬ "../".toList <:+: pathstr := by
      intro hoccurs
      rw [dirparentLoop_eq_none hnul hoccurs] at hmiddle
      exact absurd hmiddle (by simp)
    have hend : ¬ "/..".toList <:+: pathstr.dropLast := by
      intro hoccurs
      have hsame := dirparentLoop_mono (Nat.le_succ fuel) hmiddle
      rw [dirparentLoop_of_none hnul hparent] at hsame
      obtain rfl := Option.some.inj hsame
      rw [dirparentEndLoop_eq_none hnul hoccurs] at hloop
      exact absurd hloop (by simp)
    have hmore := pathstrDirparentU2a_mono (Nat.le_add_right fuel 2) h
    rw [dirparentU2a_eq_last hnul hparent hend] at hmore
    exact ⟨hparent, hend, (Option.some.inj hmore).symm⟩
  · rintro ⟨hparent, hend, rfl⟩
    exact ⟨2, dirparentU2a_eq_last hnul hparent hend 0⟩

theorem intercalate_concat {names : List CStr} (h : names ≠ []) (name : CStr) :
    ['/'].intercalate (names ++ [name]) = ['/'].intercalate names ++ '/' :: name := by
  induction names with
  | nil => exact absurd rfl h
  | cons first rest ih =>
    cases rest with
    | nil => simp [List.intercalate_cons_cons]
    | cons second rest =>
      rw [List.cons_append, List.intercalate_cons_of_ne_nil (List.append_ne_nil_of_right_ne_nil _
        (List.cons_ne_nil _ _)), ih (List.cons_ne_nil _ _), List.intercalate_cons_cons,
        List.append_assoc (first ++ ['/'])]

/-- Every component stands between two slashes when the path does. -/
theorem infix_of_mem_components {names : List CStr} {name : CStr} (h : name ∈ names) :
    '/' :: name ++ ['/'] <:+: '/' :: ['/'].intercalate names ++ ['/'] := by
  induction names with
  | nil => simp at h
  | cons first rest ih =>
    cases rest with
    | nil =>
      obtain rfl := List.mem_singleton.mp h
      simp only [List.intercalate_singleton]
      exact List.infix_refl _
    | cons second rest =>
      rw [List.intercalate_cons_cons]
      rcases List.mem_cons.mp h with rfl | hrest
      · exact ⟨[], ['/'].intercalate (second :: rest) ++ ['/'], by simp⟩
      · exact (ih hrest).trans ⟨'/' :: first, [], by simp⟩

theorem infix_of_cons_infix {α : Type*} {a b : α} {front text : List α}
    (h : a :: front <:+: b :: text) : front <:+: text := by
  rcases List.infix_cons_iff.mp h with hstarts | hoccurs
  · exact (List.cons_prefix_cons.mp hstarts).2.isInfix
  · exact (List.suffix_cons a front).isInfix.trans hoccurs

/-- Every component ends with a slash when the path does. -/
theorem infix_of_mem_splitOn {text name : CStr} (h : name ∈ text.splitOn '/') :
    name ++ ['/'] <:+: text ++ ['/'] := by
  have hbetween := infix_of_mem_components h
  rw [List.intercalate_splitOn] at hbetween
  exact infix_of_cons_infix hbetween

theorem map_parentComponent {names : List CStr} (h : "..".toList ∉ names) :
    names.map parentComponent = names := by
  have hsame : ∀ name ∈ names, parentComponent name = id name := by
    intro name hname
    have hdots : name ≠ "..".toList := fun hdots ↦ h (hdots ▸ hname)
    exact if_neg hdots
  rw [List.map_congr_left hsame, List.map_id]

/-- Only the last component can be a parent directory when `../` does not occur. -/
theorem replaceParents_concat {parent name : CStr} (hslash : '/' ∉ name)
    (h : ¬ "../".toList <:+: parent ++ ['/']) :
    replaceParents (parent ++ '/' :: name) = parent ++ '/' :: parentComponent name := by
  have hnames : "..".toList ∉ parent.splitOn '/' := fun hmem ↦ h (infix_of_mem_splitOn hmem)
  rw [replaceParents, List.splitOn_append_cons_self, List.splitOn_eq_singleton hslash,
    List.map_append, map_parentComponent hnames]
  change ['/'].intercalate (parent.splitOn '/' ++ [parentComponent name]) = _
  rw [intercalate_concat (List.splitOn_ne_nil _ _), List.intercalate_splitOn]

theorem replaceLastParent_join {parent name : CStr} (hslash : '/' ∉ name) :
    replaceLastParent (parent ++ '/' :: name) = parent ++ '/' :: parentComponent name := by
  by_cases hname : name = "..".toList
  · subst hname
    exact replaceLastParent_concat parent
  · have hsuffix : ¬ "/..".toList <:+ parent ++ '/' :: name := by
      rintro ⟨front, hfront⟩
      have hcomponents : front.splitOn '/' ++ ["..".toList] = parent.splitOn '/' ++ [name] := by
        rw [← List.splitOn_eq_singleton hslash, ← List.splitOn_append_cons_self, ← hfront]
        exact (List.splitOn_append_cons_self front "..".toList).symm
      have hlast := List.append_inj_right' hcomponents rfl
      exact hname (List.singleton_inj.mp hlast).symm
    rw [replaceLastParent, if_neg hsuffix, parentComponent, if_neg hname]

theorem replaceLastParent_slash (front : CStr) :
    replaceLastParent (front ++ ['/']) = front ++ ['/'] := by
  apply if_neg
  rintro ⟨before, hbefore⟩
  have hlast := congrArg List.getLast? hbefore
  rw [List.getLast?_append_of_ne_nil _ (by decide), List.getLast?_concat] at hlast
  exact absurd hlast (by decide)

/-- The last component is the only one that the function can replace, unless it is all there is. -/
theorem replaceLastParent_eq_iff {pathstr : CStr} (h : ¬ "../".toList <:+: pathstr) :
    replaceLastParent pathstr = replaceParents pathstr ↔ pathstr ≠ "..".toList := by
  by_cases hslash : '/' ∈ pathstr
  · obtain ⟨parent, name, rfl, hname⟩ := exists_last_slash hslash
    have hparent : ¬ "../".toList <:+: parent ++ ['/'] := by
      intro hoccurs
      refine h (hoccurs.trans ?_)
      exact ⟨[], name, by rw [List.nil_append, List.append_assoc]; rfl⟩
    have hne : parent ++ '/' :: name ≠ "..".toList := by
      intro hdots
      have hmem : '/' ∈ "..".toList := by
        rw [← hdots]
        simp
      exact absurd hmem (by decide)
    rw [replaceLastParent_join hname, replaceParents_concat hname hparent]
    exact iff_of_true rfl hne
  · have hlast : replaceLastParent pathstr = pathstr := by
      apply if_neg
      rintro ⟨front, rfl⟩
      exact hslash (by simp)
    have hall : replaceParents pathstr = parentComponent pathstr := by
      rw [replaceParents, List.splitOn_eq_singleton hslash]
      exact List.intercalate_singleton
    rw [hlast, hall, parentComponent]
    split_ifs with hdots
    · subst hdots
      exact iff_of_false (by decide) (fun hne ↦ hne rfl)
    · exact iff_of_true rfl hdots

/-- The function returns and has replaced the components that are `..` and no others. -/
def ReplacesParents (pathstr : CStr) : Prop :=
  ∃ fuel, pathstrDirparentU2a fuel pathstr = some (replaceParents pathstr)

theorem replacesParents_iff {pathstr : CStr} (hnul : nul ∉ pathstr) :
    ReplacesParents pathstr ↔ pathstr ≠ "..".toList ∧ ¬ "../".toList <:+: pathstr ∧
      ¬ "/..".toList <:+: pathstr.dropLast := by
  rw [ReplacesParents, dirparentU2a_iff hnul]
  constructor
  · rintro ⟨hparent, hend, hsame⟩
    exact ⟨(replaceLastParent_eq_iff hparent).mp hsame.symm, hparent, hend⟩
  · rintro ⟨hne, hparent, hend⟩
    exact ⟨hparent, hend, ((replaceLastParent_eq_iff hparent).mpr hne).symm⟩

theorem replacesParents_end : ReplacesParents "a/..".toList :=
  (replacesParents_iff (by decide +kernel)).mpr (by decide +kernel)

/-- The path of the comment on the function keeps the function busy for ever. -/
theorem not_replacesParents_tmp :
    ¬ ∀ pathstr : CStr, nul ∉ pathstr → ¬ "//".toList <:+: pathstr → ReplacesParents pathstr := by
  intro h
  obtain ⟨fuel, hfuel⟩ := h "../tmp".toList (by decide +kernel) (by decide +kernel)
  have hparent := ((dirparentU2a_iff (by decide +kernel)).mp ⟨fuel, hfuel⟩).1
  exact hparent (by decide +kernel)

end FuseAdf
