import Mathlib.Data.List.Basic
import Mathlib.Data.List.DropRight

/-!
# C strings and the two path functions of libgen.h

A C string is the list of its characters before the terminating NUL.  `dirname` and `basename`
follow the C library: trailing slashes are dropped, the last component is cut off, and the
degenerate cases give `"."`, `"/"` or `"//"`.  The C functions write into their argument; the
callers always pass a private copy, so the pure functions below are all that can be observed.

The last section relates both functions to leading slashes, which fuseadf sometimes strips before
it calls them and sometimes does not.
-/

namespace FuseAdf

/-- The characters of a C string, without the terminating NUL. -/
abbrev CStr := List Char

/-- The test used wherever the source compares a character with the path separator. -/
def isSlash (c : Char) : Bool := c == '/'

@[simp] theorem isSlash_slash : isSlash '/' = true := rfl

theorem isSlash_iff {c : Char} : isSlash c = true ↔ c = '/' := by simp [isSlash]

/-- Drop the trailing slashes of a directory part; a string of slashes only is the root, which
the C library writes `"//"` when it is given exactly two slashes. -/
def trimDir (dir : CStr) : CStr :=
  if dir.rdropWhile isSlash = [] then
    if dir = ['/', '/'] then ['/', '/'] else ['/']
  else dir.rdropWhile isSlash

/-- `dirname` of the C library. -/
def dirname (path : CStr) : CStr :=
  if path.rdropWhile isSlash = [] then
    if path = [] then ['.'] else trimDir path
  else
    let upto := (path.rdropWhile isSlash).rdropWhile (fun c ↦ !isSlash c)
    if upto = [] then ['.'] else trimDir upto

/-- `basename` of the C library (the POSIX version, which libgen.h selects). -/
def basename (path : CStr) : CStr :=
  if path.rdropWhile isSlash = [] then
    if path = [] then ['.'] else ['/']
  else (path.rdropWhile isSlash).rtakeWhile (fun c ↦ !isSlash c)

example : dirname "/a//b/".toList = "/a".toList := by decide
example : dirname "//a".toList = "//".toList := by decide
example : basename "/a//b/".toList = "b".toList := by decide

/-! ## A path taken apart

Every path with a character other than the slash is a directory part (empty, or ending with a
slash), an entry name and trailing slashes, and the two functions read off the first two.
-/

/-- `path` is the directory part `dir`, then the entry name, then slashes only. -/
structure Splits (path dir name : CStr) : Prop where
  eq : ∃ trail : CStr, path = dir ++ name ++ trail ∧ ∀ c ∈ trail, c = '/'
  dir_end : ∀ h : dir ≠ [], dir.getLast h = '/'
  name_ne : name ≠ []
  name_slash : '/' ∉ name

theorem rdropWhile_append_all {p : Char → Bool} (front : CStr) {back : CStr}
    (hback : ∀ c ∈ back, p c = true) : (front ++ back).rdropWhile p = front.rdropWhile p := by
  simp only [List.rdropWhile, List.reverse_append]
  rw [List.dropWhile_append_of_pos]
  simpa using hback

theorem rdropWhile_append_ne_nil {p : Char → Bool} (front : CStr) {back : CStr}
    (hback : back.rdropWhile p ≠ []) :
    (front ++ back).rdropWhile p = front ++ back.rdropWhile p := by
  simp only [List.rdropWhile, List.reverse_append, ne_eq, List.reverse_eq_nil_iff] at hback ⊢
  rw [List.dropWhile_append, if_neg (by simpa using hback)]
  simp

theorem rtakeWhile_append_of_last {p : Char → Bool} (front back : CStr)
    (hback : ∀ c ∈ back, p c = true) (hfront : ∀ h : front ≠ [], p (front.getLast h) = false) :
    (front ++ back).rtakeWhile p = back := by
  induction front using List.reverseRecOn with
  | nil => simpa using List.rtakeWhile_eq_self_iff.mpr hback
  | append_singleton front c _ =>
    have hc : p c = false := by simpa using hfront (by simp)
    simp only [List.rtakeWhile, List.reverse_append]
    rw [List.takeWhile_append_of_pos (by simpa using hback)]
    simp [hc]

theorem notSlash_of_not_mem {name : CStr} (h : '/' ∉ name) :
    ∀ c ∈ name, (!isSlash c) = true := by
  intro c hc
  have : c ≠ '/' := fun he ↦ h (he ▸ hc)
  simpa [isSlash] using this

/-- Without its trailing slashes a split path ends with the entry name. -/
theorem Splits.rdropWhile {path dir name : CStr} (h : Splits path dir name) :
    path.rdropWhile isSlash = dir ++ name := by
  obtain ⟨trail, rfl, htrail⟩ := h.eq
  rw [rdropWhile_append_all _ (fun c hc ↦ isSlash_iff.mpr (htrail c hc)),
    List.rdropWhile_eq_self_iff]
  intro hne
  rw [List.getLast_append_of_ne_nil _ h.name_ne]
  intro hlast
  exact h.name_slash (isSlash_iff.mp hlast ▸ List.getLast_mem h.name_ne)

theorem Splits.basename_eq {path dir name : CStr} (h : Splits path dir name) :
    basename path = name := by
  have hne : dir ++ name ≠ [] := by simp [h.name_ne]
  rw [basename, h.rdropWhile, if_neg hne]
  apply rtakeWhile_append_of_last _ _ (notSlash_of_not_mem h.name_slash)
  intro hdir
  simp [h.dir_end hdir]

theorem Splits.dirname_eq {path dir name : CStr} (h : Splits path dir name) :
    dirname path = if dir = [] then ['.'] else trimDir dir := by
  have hne : dir ++ name ≠ [] := by simp [h.name_ne]
  have hupto : (dir ++ name).rdropWhile (fun c ↦ !isSlash c) = dir := by
    rw [rdropWhile_append_all _ (notSlash_of_not_mem h.name_slash), List.rdropWhile_eq_self_iff]
    intro hdir
    simp [h.dir_end hdir]
  rw [dirname, h.rdropWhile, if_neg hne, hupto]

/-- Only strings of slashes cannot be taken apart. -/
theorem exists_splits {path : CStr} (h : ∃ c ∈ path, c ≠ '/') :
    ∃ dir name, Splits path dir name := by
  have hbody : path.rdropWhile isSlash ≠ [] := by
    obtain ⟨c, hc, hne⟩ := h
    rw [ne_eq, List.rdropWhile_eq_nil_iff]
    exact fun hall ↦ hne (isSlash_iff.mp (hall c hc))
  refine ⟨(path.rdropWhile isSlash).rdropWhile (fun c ↦ !isSlash c),
    (path.rdropWhile isSlash).rtakeWhile (fun c ↦ !isSlash c), ?_, ?_, ?_, ?_⟩
  · refine ⟨path.rtakeWhile isSlash, ?_, fun c hc ↦ isSlash_iff.mp (List.mem_rtakeWhile_imp hc)⟩
    rw [List.rdropWhile_append_rtakeWhile, List.rdropWhile_append_rtakeWhile]
  · intro hne
    simpa [isSlash] using List.rdropWhile_last_not _ _ hne
  · rw [ne_eq, List.rtakeWhile_eq_nil_iff]
    push Not
    exact ⟨hbody, by simpa using List.rdropWhile_last_not _ _ hbody⟩
  · intro hmem
    simpa using List.mem_rtakeWhile_imp hmem

theorem splits_name {name : CStr} (hne : name ≠ []) (hslash : '/' ∉ name) :
    Splits name [] name where
  eq := ⟨[], by simp, by simp⟩
  dir_end h := (h rfl).elim
  name_ne := hne
  name_slash := hslash

theorem splits_join (parent : CStr) {name : CStr} (hne : name ≠ []) (hslash : '/' ∉ name) :
    Splits (parent ++ '/' :: name) (parent ++ ['/']) name where
  eq := ⟨[], by simp, by simp⟩
  dir_end h := by simp
  name_ne := hne
  name_slash := hslash

/-- Slashes put in front of a path belong to its directory part. -/
theorem Splits.prepend {path dir name : CStr} (h : Splits path dir name) {lead : CStr}
    (hlead : ∀ c ∈ lead, c = '/') : Splits (lead ++ path) (lead ++ dir) name where
  eq := by
    obtain ⟨trail, rfl, htrail⟩ := h.eq
    exact ⟨trail, by simp, htrail⟩
  dir_end hne := by
    rcases eq_or_ne dir [] with rfl | hdir
    · exact hlead _ (by simp)
    · rw [List.getLast_append_of_ne_nil _ hdir]
      exact h.dir_end hdir
  name_ne := h.name_ne
  name_slash := h.name_slash

theorem trimDir_ne_nil (dir : CStr) : trimDir dir ≠ [] := by
  unfold trimDir
  split_ifs with h <;> simp_all

theorem dirname_ne_nil (path : CStr) : dirname path ≠ [] := by
  unfold dirname
  simp only
  split_ifs <;> first | exact trimDir_ne_nil _ | simp

theorem trimDir_of_slashes {dir : CStr} (h : ∀ c ∈ dir, c = '/') :
    ∀ c ∈ trimDir dir, c = '/' := by
  have hnil : dir.rdropWhile isSlash = [] :=
    List.rdropWhile_eq_nil_iff.mpr fun c hc ↦ isSlash_iff.mpr (h c hc)
  rw [trimDir, if_pos hnil]
  split_ifs <;> simp

theorem trimDir_append {dir : CStr} (lead : CStr) (h : dir.rdropWhile isSlash ≠ []) :
    trimDir (lead ++ dir) = lead ++ trimDir dir := by
  have happend := rdropWhile_append_ne_nil lead h
  rw [trimDir, trimDir, happend, if_neg (by simp [h]), if_neg h]

/-- A parent written without trailing slash comes back as it was written. -/
theorem trimDir_concat_slash {parent : CStr} (hne : parent ≠ [])
    (hlast : parent.getLast hne ≠ '/') : trimDir (parent ++ ['/']) = parent := by
  have hself : parent.rdropWhile isSlash = parent := by
    rw [List.rdropWhile_eq_self_iff]
    exact fun _ h ↦ hlast (isSlash_iff.mp h)
  rw [trimDir, rdropWhile_append_all _ (by simp), hself, if_neg hne]

theorem head_trimDir {dir : CStr} (h : dir.head? = some '/') : (trimDir dir).head? = some '/' := by
  unfold trimDir
  split_ifs with hnil
  · rfl
  · rfl
  · obtain ⟨trail, htrail⟩ := List.rdropWhile_prefix isSlash (l := dir)
    rw [← htrail, List.head?_append_of_ne_nil _ hnil] at h
    exact h

/-- The directory part of an absolute path is absolute. -/
theorem head_dirname {path : CStr} (h : path.head? = some '/') :
    (dirname path).head? = some '/' := by
  by_cases hpath : ∃ c ∈ path, c ≠ '/'
  · obtain ⟨dir, name, hsplit⟩ := exists_splits hpath
    obtain ⟨trail, rfl, _⟩ := hsplit.eq
    have hdir : dir ≠ [] := by
      rintro rfl
      obtain ⟨c, rest, hname⟩ := List.exists_cons_of_ne_nil hsplit.name_ne
      have hc : c = '/' := by simpa [hname] using h
      exact hsplit.name_slash (by simp [hname, hc])
    rw [hsplit.dirname_eq, if_neg hdir]
    apply head_trimDir
    simpa [List.head?_append_of_ne_nil _ hdir, List.append_assoc] using h
  · push Not at hpath
    have hnil : path.rdropWhile isSlash = [] :=
      List.rdropWhile_eq_nil_iff.mpr fun c hc ↦ isSlash_iff.mpr (hpath c hc)
    have hne : path ≠ [] := by rintro rfl; simp at h
    rw [dirname, if_pos hnil, if_neg hne]
    exact head_trimDir h

/-- The entry name of a path that is not made of slashes only can be an entry of a directory. -/
theorem basename_ne_nil {path : CStr} (h : ∃ c ∈ path, c ≠ '/') : basename path ≠ [] := by
  obtain ⟨dir, name, hsplit⟩ := exists_splits h
  rw [hsplit.basename_eq]
  exact hsplit.name_ne

theorem slash_not_mem_basename {path : CStr} (h : ∃ c ∈ path, c ≠ '/') :
    '/' ∉ basename path := by
  obtain ⟨dir, name, hsplit⟩ := exists_splits h
  rw [hsplit.basename_eq]
  exact hsplit.name_slash

theorem dirname_name {name : CStr} (hne : name ≠ []) (hslash : '/' ∉ name) :
    dirname name = ['.'] := by
  rw [(splits_name hne hslash).dirname_eq, if_pos rfl]

theorem basename_name {name : CStr} (hne : name ≠ []) (hslash : '/' ∉ name) :
    basename name = name :=
  (splits_name hne hslash).basename_eq

end FuseAdf
