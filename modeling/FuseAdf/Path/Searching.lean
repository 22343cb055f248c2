import FuseAdf.Path.Pathstr

/-!
# Searching a path and writing into it

What `strstr` finds, and what the loop that should shift the rest of a string by one place does to
the buffer.  The loop copies one character onto the same place again and again, so it ends only when
the next character is the last one.
-/

namespace FuseAdf

theorem eq_cons_tail {path : CStr} (h : path.head? = some '/') : path = '/' :: path.tail := by
  cases path with
  | nil => simp at h
  | cons c rest =>
    obtain rfl := Option.some.inj h
    rfl

theorem exists_last_slash {path : CStr} (h : '/' ∈ path) :
    ∃ parent name, path = parent ++ '/' :: name ∧ '/' ∉ name := by
  obtain ⟨after, before, hsplit, hname⟩ := List.eq_append_cons_of_mem (List.mem_reverse.mpr h)
  refine ⟨before.reverse, after.reverse, ?_, fun hc ↦ hname (List.mem_reverse.mp hc)⟩
  rw [← List.reverse_reverse path, hsplit]
  simp

theorem strstr_eq_none_iff {needle text : CStr} (hneedle : needle ≠ []) :
    strstr needle text = none ↔ ¬ needle <:+: text := by
  induction text with
  | nil => simp [strstr, hneedle]
  | cons c rest ih =>
    rw [strstr, List.infix_cons_iff]
    by_cases hfront : needle <+: c :: rest
    · simp [hfront]
    · have hnot : needle.isPrefixOf (c :: rest) = false := by
        rw [Bool.eq_false_iff, ne_eq, List.isPrefixOf_iff_prefix]
        exact hfront
      rw [if_neg (by simp [hnot]), Option.map_eq_none_iff, ih]
      simp [hfront]

/-- A match is a place where the text is the needle. -/
theorem exists_of_strstr {needle text : CStr} {offset : ℕ} (h : strstr needle text = some offset) :
    ∃ front back, text = front ++ needle ++ back ∧ front.length = offset := by
  induction text generalizing offset with
  | nil =>
    rw [strstr] at h
    split_ifs at h with hneedle
    exact ⟨[], [], by simp [hneedle], Option.some.inj h⟩
  | cons c rest ih =>
    rw [strstr] at h
    split_ifs at h with hfront
    · obtain ⟨back, hback⟩ := List.isPrefixOf_iff_prefix.mp hfront
      exact ⟨[], back, by simp [hback], Option.some.inj h⟩
    · obtain ⟨inner, hinner, rfl⟩ := Option.map_eq_some_iff.mp h
      obtain ⟨front, back, hrest, hlength⟩ := ih hinner
      exact ⟨c :: front, back, by simp [hrest], by simp [hlength]⟩

/-- With a match before the last character, the first match has a character behind it. -/
theorem exists_more_of_strstr {needle text : CStr} (hneedle : needle ≠ []) {offset : ℕ}
    (h : strstr needle text = some offset) (hmatch : needle <:+: text.dropLast) :
    ∃ front c back, text = front ++ needle ++ c :: back ∧ front.length = offset := by
  induction text generalizing offset with
  | nil => exact absurd (List.eq_nil_of_infix_nil hmatch) hneedle
  | cons first rest ih =>
    rw [strstr] at h
    split_ifs at h with hfront
    · obtain ⟨back, hback⟩ := List.isPrefixOf_iff_prefix.mp hfront
      have hlonger : needle.length < (first :: rest).length := by
        have hle := hmatch.length_le
        rw [List.length_dropLast, List.length_cons] at hle
        rw [List.length_cons]
        omega
      obtain ⟨c, more, rfl⟩ : ∃ c more, back = c :: more := by
        apply List.exists_cons_of_ne_nil
        rintro rfl
        rw [← hback, List.append_nil] at hlonger
        exact lt_irrefl _ hlonger
      exact ⟨[], c, more, by rw [List.nil_append, hback], Option.some.inj h⟩
    · obtain ⟨inner, hinner, rfl⟩ := Option.map_eq_some_iff.mp h
      have hrest : needle <:+: rest.dropLast := by
        cases rest with
        | nil => exact absurd (List.eq_nil_of_infix_nil hmatch) hneedle
        | cons next rest =>
          rw [List.dropLast_cons_cons, List.infix_cons_iff] at hmatch
          rcases hmatch with hstarts | hoccurs
          · refine absurd (List.isPrefixOf_iff_prefix.mpr (hstarts.trans ?_)) hfront
            exact List.cons_prefix_cons.mpr ⟨rfl, List.dropLast_prefix _⟩
          · exact hoccurs
      obtain ⟨front, c, back, htext, hlength⟩ := ih hinner hrest
      exact ⟨first :: front, c, back, by rw [htext]; rfl, by rw [List.length_cons, hlength]⟩

/-- A match that does not end before the last character is at the end. -/
theorem suffix_of_occurs {needle text : CStr} (h : needle <:+: text)
    (hdrop : ¬ needle <:+: text.dropLast) : needle <:+ text := by
  obtain ⟨front, back, rfl⟩ := h
  rcases List.eq_nil_or_concat back with rfl | ⟨more, c, rfl⟩
  · rw [List.append_nil]
    exact List.suffix_append front needle
  · refine absurd ⟨front, more, ?_⟩ hdrop
    rw [List.concat_eq_append, ← List.append_assoc, List.dropLast_concat]

/-- Without such a match, the first match is at the end. -/
theorem strstr_concat {needle front : CStr} (hneedle : needle ≠ [])
    (h : ¬ needle <:+: (front ++ needle).dropLast) :
    strstr needle (front ++ needle) = some front.length := by
  cases hfind : strstr needle (front ++ needle) with
  | none =>
    have hmatch : needle <:+: front ++ needle := (List.suffix_append front needle).isInfix
    exact absurd hmatch ((strstr_eq_none_iff hneedle).mp hfind)
  | some offset =>
    obtain ⟨front', back, htext, rfl⟩ := exists_of_strstr hfind
    rcases List.eq_nil_or_concat back with rfl | ⟨more, c, rfl⟩
    · rw [List.append_nil] at htext
      rw [List.append_cancel_right htext]
    · refine absurd ⟨front', more, ?_⟩ h
      rw [htext, List.concat_eq_append, ← List.append_assoc, List.dropLast_concat]

theorem cstrAt_zero {text : CStr} (h : nul ∉ text) : cstrAt (text ++ [nul]) 0 = text := by
  rw [cstrAt, List.drop_zero, List.takeWhile_append_of_pos]
  · simp
  · intro c hc
    have hne : c ≠ nul := fun he ↦ h (he ▸ hc)
    simpa using hne

theorem load_append (front back : CBuf) (position : ℕ) :
    load (front ++ back) (front.length + position) = load back position := by
  rw [load, load, List.getD_eq_getElem?_getD, List.getD_eq_getElem?_getD,
    List.getElem?_append_right (Nat.le_add_right _ _), Nat.add_sub_cancel_left]

/-- `copyNext` stays in its place, so it goes on for ever unless the next character is the last. -/
theorem copyNext_eq_none {buf : CBuf} {ch : ℕ} (h : load buf (ch + 1) ≠ nul) (fuel : ℕ) :
    copyNext fuel buf ch = none := by
  induction fuel generalizing buf with
  | zero => rfl
  | succ fuel ih =>
    have hnext : load (buf.set ch (load buf (ch + 1))) (ch + 1) = load buf (ch + 1) := by
      simp [load, List.getD_eq_getElem?_getD]
    rw [copyNext, if_pos (by rw [hnext]; exact h)]
    exact ih (by rw [hnext]; exact h)

/-- Before the last character the inner loop puts the NUL in its place and ends. -/
theorem copyNext_last (before : CBuf) (c : Char) (fuel : ℕ) :
    copyNext (fuel + 1) (before ++ [c, nul]) before.length = some (before ++ [nul, nul]) := by
  have hload : load (before ++ [c, nul]) (before.length + 1) = nul := load_append before [c, nul] 1
  have hset : (before ++ [c, nul]).set before.length nul = before ++ [nul, nul] := by
    rw [List.set_append_right _ _ (Nat.le_refl _), Nat.sub_self]
    rfl
  have hend : load (before ++ [nul, nul]) (before.length + 1) = nul :=
    load_append before [nul, nul] 1
  rw [copyNext, hload, hset, if_neg (by rw [hend]; exact not_not_intro rfl)]

/-- The string between two places of the buffer. -/
theorem cstrAt_append (before : CBuf) {text : CStr} (hnul : nul ∉ text) (rest : CBuf) :
    cstrAt (before ++ text ++ nul :: rest) before.length = text := by
  rw [cstrAt, List.append_assoc, List.drop_left, List.takeWhile_append_of_pos]
  · simp
  · intro c hc
    have hne : c ≠ nul := fun he ↦ hnul (he ▸ hc)
    simpa using hne

end FuseAdf
