import FuseAdf.Path.Searching

/-!
# Repeated slashes

The inner loop of `pathstr_remove_double_slashes` does not advance, so it ends only when the second
slash it overwrites is the last character.  Every other string with two slashes in a row keeps the
function busy for ever.
-/

namespace FuseAdf

/-- Every run of slashes becomes one slash. -/
def collapseSlashes : CStr → CStr
  | [] => []
  | c :: rest =>
      if c = '/' ∧ rest.head? = some '/' then collapseSlashes rest else c :: collapseSlashes rest

theorem collapseSlashes_cons {c : Char} {rest : CStr} (h : c ≠ '/' ∨ rest.head? ≠ some '/') :
    collapseSlashes (c :: rest) = c :: collapseSlashes rest := by
  rw [collapseSlashes, if_neg]
  rintro ⟨hc, hrest⟩
  exact h.elim (· hc) (· hrest)

theorem collapseSlashes_run (count : ℕ) {rest : CStr} (h : rest.head? ≠ some '/') :
    collapseSlashes (List.replicate (count + 1) '/' ++ rest) = '/' :: collapseSlashes rest := by
  induction count with
  | zero => exact collapseSlashes_cons (Or.inr h)
  | succ count ih =>
    rw [List.replicate_succ, List.cons_append, collapseSlashes, if_pos ⟨rfl, rfl⟩]
    exact ih

theorem head_collapseSlashes (pathstr : CStr) : (collapseSlashes pathstr).head? = pathstr.head? := by
  induction pathstr with
  | nil => rfl
  | cons c rest ih =>
    rw [collapseSlashes]
    split_ifs with h
    · rw [ih, h.2, h.1]
      rfl
    · rfl

theorem collapseSlashes_single (pathstr : CStr) : ¬ "//".toList <:+: collapseSlashes pathstr := by
  induction pathstr with
  | nil => decide
  | cons c rest ih =>
    rw [collapseSlashes]
    split_ifs with h
    · exact ih
    · rw [List.infix_cons_iff]
      rintro (hfront | hrest)
      · obtain ⟨hc, hnext⟩ := List.cons_prefix_cons.mp hfront
        have hhead : (collapseSlashes rest).head? = some '/' := by
          obtain ⟨back, hback⟩ := hnext
          rw [← hback]
          rfl
        exact h ⟨hc.symm, by rw [← head_collapseSlashes, hhead]⟩
      · exact ih hrest

/-- The other characters keep their order. -/
theorem filter_collapseSlashes (pathstr : CStr) :
    (collapseSlashes pathstr).filter (· ≠ '/') = pathstr.filter (· ≠ '/') := by
  induction pathstr with
  | nil => rfl
  | cons c rest ih =>
    rw [collapseSlashes]
    split_ifs with h
    · rw [ih, List.filter_cons_of_neg (by simp [h.1])]
    · rw [List.filter_cons, List.filter_cons, ih]

theorem mem_of_mem_collapseSlashes {pathstr : CStr} {c : Char} (h : c ∈ collapseSlashes pathstr) :
    c ∈ pathstr := by
  induction pathstr with
  | nil => exact h
  | cons first rest ih =>
    rw [collapseSlashes] at h
    split_ifs at h
    · exact List.mem_cons_of_mem _ (ih h)
    · rcases List.mem_cons.mp h with rfl | hrest
      · exact List.mem_cons_self
      · exact List.mem_cons_of_mem _ (ih hrest)

theorem collapseSlashes_of_single {pathstr : CStr} (h : ¬ "//".toList <:+: pathstr) :
    collapseSlashes pathstr = pathstr := by
  induction pathstr with
  | nil => rfl
  | cons c rest ih =>
    have hrest : ¬ "//".toList <:+: rest := fun hoccurs ↦ h (List.infix_cons hoccurs)
    rw [collapseSlashes_cons, ih hrest]
    by_contra hslashes
    push Not at hslashes
    obtain ⟨rfl, hhead⟩ := hslashes
    rw [eq_cons_tail hhead] at h
    exact h ⟨[], rest.tail, rfl⟩

/-- Two slashes at the end become one. -/
theorem collapseSlashes_concat {front : CStr} (h : ¬ "//".toList <:+: front ++ ['/']) :
    collapseSlashes (front ++ "//".toList) = front ++ ['/'] := by
  induction front with
  | nil => decide
  | cons c front ih =>
    have hrest : ¬ "//".toList <:+: front ++ ['/'] := fun hoccurs ↦ h (List.infix_cons hoccurs)
    rw [List.cons_append, collapseSlashes_cons, ih hrest, List.cons_append]
    by_contra hslashes
    push Not at hslashes
    obtain ⟨rfl, hhead⟩ := hslashes
    cases front with
    | nil => exact h (by decide)
    | cons next front =>
      obtain rfl : next = '/' := by simpa using hhead
      exact h ⟨[], front ++ ['/'], rfl⟩

/-! ## The loop -/

theorem removeDoubleSlashes_of_single {pathstr : CStr} (hnul : nul ∉ pathstr)
    (h : ¬ "//".toList <:+: pathstr) (fuel : ℕ) :
    pathstrRemoveDoubleSlashes (fuel + 1) pathstr = some pathstr := by
  rw [pathstrRemoveDoubleSlashes, removeDoubleSlashesLoop, cstrAt_zero hnul,
    (strstr_eq_none_iff (by decide)).mpr h]
  exact congrArg some (cstrAt_zero hnul)

/-- The first double slash with something behind it is never left. -/
theorem removeDoubleSlashes_eq_none {pathstr : CStr} (hnul : nul ∉ pathstr)
    (h : "//".toList <:+: pathstr.dropLast) (fuel : ℕ) :
    pathstrRemoveDoubleSlashes fuel pathstr = none := by
  cases fuel with
  | zero => rfl
  | succ fuel =>
    rw [pathstrRemoveDoubleSlashes, removeDoubleSlashesLoop, cstrAt_zero hnul]
    cases hfind : strstr "//".toList pathstr with
    | none =>
      exact absurd (h.trans (List.dropLast_prefix _).isInfix)
        ((strstr_eq_none_iff (by decide)).mp hfind)
    | some offset =>
      obtain ⟨front, c, back, rfl, rfl⟩ := exists_more_of_strstr (by decide) hfind h
      have hc : c ≠ nul := by
        rintro rfl
        exact hnul (by simp)
      have hnext : load (front ++ "//".toList ++ c :: back ++ [nul]) (front.length + 2) = c := by
        rw [List.append_assoc, List.append_assoc, load_append]
        rfl
      dsimp only
      rw [Nat.zero_add, copyNext_eq_none (by rw [hnext]; exact hc)]
      rfl

theorem removeDoubleSlashes_concat {front : CStr} (hnul : nul ∉ front)
    (h : ¬ "//".toList <:+: front ++ ['/']) (fuel : ℕ) :
    pathstrRemoveDoubleSlashes (fuel + 2) (front ++ "//".toList) = some (front ++ ['/']) := by
  have hcopy : copyNext (fuel + 1) (front ++ "//".toList ++ [nul]) (front.length + 1) =
      some (front ++ ['/', nul, nul]) := by
    have hlast := copyNext_last (front ++ ['/']) '/' fuel
    rw [List.length_append, List.append_assoc, List.append_assoc] at hlast
    rw [List.append_assoc]
    exact hlast
  have hfind : strstr "//".toList (front ++ "//".toList) = some front.length := by
    apply strstr_concat (by decide)
    have hdrop : (front ++ "//".toList).dropLast = front ++ ['/'] := by
      rw [List.dropLast_append_of_ne_nil (by decide)]
      rfl
    rw [hdrop]
    exact h
  have hslash : cstrAt (front ++ ['/', nul, nul]) front.length = ['/'] := by
    have hrest := cstrAt_append front (by decide : nul ∉ ['/']) [nul]
    rwa [List.append_assoc] at hrest
  have hresult : cstrAt (front ++ ['/', nul, nul]) 0 = front ++ ['/'] := by
    have hsingle : nul ∉ front ++ ['/'] := by simpa [nul] using hnul
    have hstart := cstrAt_append [] hsingle [nul]
    rwa [List.nil_append, List.append_assoc] at hstart
  have hslashes : nul ∉ front ++ "//".toList := by simpa [nul] using hnul
  rw [pathstrRemoveDoubleSlashes, removeDoubleSlashesLoop, cstrAt_zero hslashes, hfind]
  dsimp only
  rw [Nat.zero_add, hcopy]
  change ((removeDoubleSlashesLoop (fuel + 1) _ front.length).map _ : Option CStr) = _
  rw [removeDoubleSlashesLoop, hslash]
  exact congrArg some hresult

/-- Unless two slashes in a row stand before the last character, there is a result. -/
theorem removeDoubleSlashes_eq_collapse {pathstr : CStr} (hnul : nul ∉ pathstr)
    (h : ¬ "//".toList <:+: pathstr.dropLast) (fuel : ℕ) :
    pathstrRemoveDoubleSlashes (fuel + 2) pathstr = some (collapseSlashes pathstr) := by
  by_cases hslashes : "//".toList <:+: pathstr
  · obtain ⟨front, rfl⟩ := suffix_of_occurs hslashes h
    have hdrop : (front ++ "//".toList).dropLast = front ++ ['/'] := by
      rw [List.dropLast_append_of_ne_nil (by decide)]
      rfl
    rw [hdrop] at h
    rw [collapseSlashes_concat h]
    exact removeDoubleSlashes_concat (fun hmem ↦ hnul (List.mem_append_left _ hmem)) h fuel
  · rw [collapseSlashes_of_single hslashes]
    exact removeDoubleSlashes_of_single hnul hslashes (fuel + 1)

theorem removeDoubleSlashes_iff {pathstr : CStr} (hnul : nul ∉ pathstr) {single : CStr} :
    (∃ fuel, pathstrRemoveDoubleSlashes fuel pathstr = some single) ↔
      ¬ "//".toList <:+: pathstr.dropLast ∧ single = collapseSlashes pathstr := by
  constructor
  · intro ⟨fuel, h⟩
    by_cases hdrop : "//".toList <:+: pathstr.dropLast
    · rw [removeDoubleSlashes_eq_none hnul hdrop] at h
      exact absurd h (by simp)
    · have hmore := pathstrRemoveDoubleSlashes_mono (Nat.le_add_right fuel 2) h
      rw [removeDoubleSlashes_eq_collapse hnul hdrop] at hmore
      exact ⟨hdrop, (Option.some.inj hmore).symm⟩
  · rintro ⟨hdrop, rfl⟩
    exact ⟨2, removeDoubleSlashes_eq_collapse hnul hdrop 0⟩

/-- The function returns and leaves one slash for every run; then nothing is left to do. -/
def RemovesDoubleSlashes (pathstr : CStr) : Prop :=
  ∃ fuel single, pathstrRemoveDoubleSlashes fuel pathstr = some single ∧
    single = collapseSlashes pathstr ∧ ¬ "//".toList <:+: single ∧
    single.filter (· ≠ '/') = pathstr.filter (· ≠ '/') ∧
    pathstrRemoveDoubleSlashes fuel single = some single

theorem removesDoubleSlashes_iff {pathstr : CStr} (hnul : nul ∉ pathstr) :
    RemovesDoubleSlashes pathstr ↔ ¬ "//".toList <:+: pathstr.dropLast := by
  constructor
  · rintro ⟨fuel, single, hremove, -⟩
    exact ((removeDoubleSlashes_iff hnul).mp ⟨fuel, hremove⟩).1
  · intro hdrop
    refine ⟨2, collapseSlashes pathstr, removeDoubleSlashes_eq_collapse hnul hdrop 0, rfl,
      collapseSlashes_single pathstr, filter_collapseSlashes pathstr, ?_⟩
    exact removeDoubleSlashes_of_single (fun hmem ↦ hnul (mem_of_mem_collapseSlashes hmem))
      (collapseSlashes_single pathstr) 1

theorem removesDoubleSlashes_trailing : RemovesDoubleSlashes "Plot/Scene//".toList :=
  (removesDoubleSlashes_iff (by decide +kernel)).mpr (by decide +kernel)

/-- A double slash inside of a path keeps the function busy for ever. -/
theorem not_removesDoubleSlashes_inside :
    ¬ ∀ pathstr : CStr, nul ∉ pathstr → RemovesDoubleSlashes pathstr := by
  intro h
  obtain ⟨fuel, single, hremove, -⟩ := h "Plot//Scene".toList (by decide +kernel)
  rw [removeDoubleSlashes_eq_none (by decide +kernel) (by decide +kernel)] at hremove
  exact absurd hremove (by simp)

end FuseAdf
