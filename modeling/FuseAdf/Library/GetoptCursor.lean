import FuseAdf.Library.Getopt
import Mathlib.Data.List.TakeWhile

/-!
# Reading a command line

A cursor is how many elements are before the index of the scanner, which letters of an option element
are still to be read, and what follows.  A call moves the cursor in the same way whatever order the
elements before it are in.  A caller that deletes the last of these elements moves it back, and when
none is left, the scanner starts anew behind the first element that there is then.

`options` are the options that a caller gets who deletes elements in this way, or none.  `trace` are
those of the command line as it is, with the index behind each.  As long as the first element is not
deleted the two are the same.
-/

namespace FuseAdf.Getopt

/-- An option with its argument. -/
abbrev Given := Char × Option (List Char)

/-- A position in a command line. -/
structure Cursor where
  index : ℕ
  letters : List Char
  rest : List (List Char)
deriving DecidableEq, Repr

namespace Cursor

/-- Behind the first element. -/
def start (args : List (List Char)) : Cursor where
  index := 1
  letters := []
  rest := args

/-- Into the next option element, if the options have not come to their end. -/
def enter (cursor : Cursor) : Option Cursor :=
  match cursor.rest.dropWhile isOperand with
  | [] => none
  | element :: rest =>
      if element = "--".toList then none
      else
        some {
          index := cursor.index + (cursor.rest.takeWhile isOperand).length
          letters := element.tail
          rest := rest }

/-- The next letter and its argument; `'?'` stands for every error. -/
def read (optstring : List Char) (cursor : Cursor) : Given × Cursor :=
  match cursor.letters with
  | [] => (('?', none), cursor)
  | c :: letters =>
      let behind := { cursor with index := cursor.index + 1, letters := [] }
      let after := if letters = [] then behind else { cursor with letters := letters }
      match takesArgument optstring c with
      | none => (('?', none), after)
      | some .no => ((c, none), after)
      | some .optional => ((c, if letters = [] then none else some letters), behind)
      | some .required =>
          if letters ≠ [] then ((c, some letters), behind)
          else
            match cursor.rest with
            | [] => (('?', none), behind)
            | argument :: rest =>
                ((c, some argument), { index := cursor.index + 2, letters := [], rest := rest })

/-- The next option. -/
def next (optstring : List Char) (cursor : Cursor) : Option (Given × Cursor) :=
  (if cursor.letters = [] then cursor.enter else some cursor).map (read optstring)

/-- The last elements before the cursor are deleted. -/
def delete (num : ℕ) (cursor : Cursor) : Cursor :=
  if cursor.index = num then
    start (if cursor.letters = [] then cursor.rest.tail else cursor.rest)
  else { cursor with index := cursor.index - num }

/-- The characters that are still to be read. -/
def size (cursor : Cursor) : ℕ := cursor.letters.length + cursor.rest.flatten.length

/-- At most so many options, for a caller that deletes a number of elements after each of them, or
stops. -/
def optionsUpTo (optstring : List Char) (deletes : Given → Option ℕ) : ℕ → Cursor → List Given
  | 0, _ => []
  | count + 1, cursor =>
      match cursor.next optstring with
      | none => []
      | some (given, after) =>
          given :: (deletes given).elim []
            fun num ↦ optionsUpTo optstring deletes count (after.delete num)

/-- All options; each has at least one character. -/
def options (optstring : List Char) (deletes : Given → Option ℕ) (cursor : Cursor) : List Given :=
  optionsUpTo optstring deletes cursor.size cursor

/-- At most so many options of the command line as it is, and the index behind each. -/
def traceUpTo (optstring : List Char) : ℕ → Cursor → List (Given × ℕ)
  | 0, _ => []
  | count + 1, cursor =>
      match cursor.next optstring with
      | none => []
      | some (given, after) => (given, after.index) :: traceUpTo optstring count after

/-- The options of the command line as it is. -/
def trace (optstring : List Char) (cursor : Cursor) : List (Given × ℕ) :=
  traceUpTo optstring cursor.size cursor

/-- What is deleted up to each option is never all that is before the index. -/
def sparesFirst (deletes : Given → Option ℕ) : ℕ → List (Given × ℕ) → Bool
  | _, [] => true
  | gone, (given, index) :: rest =>
      match deletes given with
      | none => true
      | some num => gone + num < index && sparesFirst deletes (gone + num) rest

/-- The options up to the one at which the caller stops, or with which the first element is
deleted. -/
def heeded (deletes : Given → Option ℕ) : ℕ → List (Given × ℕ) → List Given
  | _, [] => []
  | gone, (given, index) :: rest =>
      given :: match deletes given with
      | none => []
      | some num => if gone + num < index then heeded deletes (gone + num) rest else []

section Steps

variable {optstring : List Char} {deletes : Given → Option ℕ} {cursor after : Cursor} {given : Given}

theorem delete_zero (h : 0 < cursor.index) : cursor.delete 0 = cursor := by
  rw [delete, if_neg (Nat.ne_of_gt h), Nat.sub_zero]

/-- An argument is behind its letter. -/
theorem index_read {arg : List Char} (h : (cursor.read optstring).1.2 = some arg) :
    cursor.index + 1 ≤ (cursor.read optstring).2.index := by
  unfold read at h ⊢
  cases hletters : cursor.letters with
  | nil => simp [hletters] at h
  | cons c letters =>
    simp only [hletters] at h ⊢
    cases htakes : takesArgument optstring c with
    | none => simp [htakes] at h
    | some takes =>
      cases takes with
      | no => simp [htakes] at h
      | optional => exact Nat.le_refl _
      | required =>
        dsimp only
        split_ifs
        · exact Nat.le_refl _
        · cases cursor.rest with
          | nil => exact Nat.le_refl _
          | cons argument rest => exact Nat.le_succ _

theorem index_enter (h : cursor.enter = some after) : cursor.index ≤ after.index := by
  unfold enter at h
  split at h
  · exact absurd h (by simp)
  · split_ifs at h
    obtain rfl := Option.some.inj h
    exact Nat.le_add_right _ _

theorem index_next {arg : List Char} (h : cursor.next optstring = some (given, after))
    (harg : given.2 = some arg) : cursor.index + 1 ≤ after.index := by
  obtain ⟨inner, hinner, hread⟩ := Option.map_eq_some_iff.mp h
  have hle : cursor.index ≤ inner.index := by
    split_ifs at hinner
    · exact index_enter hinner
    · rw [Option.some.inj hinner]
  have hindex : inner.index + 1 ≤ (inner.read optstring).2.index :=
    index_read (by rw [hread]; exact harg)
  rw [hread] at hindex
  exact Nat.le_trans (Nat.succ_le_succ hle) hindex

theorem letters_enter (h : cursor.enter = some after) : after.letters ≠ [] := by
  unfold enter at h
  split at h
  · exact absurd h (by simp)
  · rename_i element rest hrest
    split_ifs at h
    obtain rfl := Option.some.inj h
    exact tail_ne_nil (isOperand_of_dropWhile hrest)

theorem size_enter (h : cursor.enter = some after) : after.size ≤ cursor.size := by
  have hsplit : cursor.rest.flatten.length =
      (cursor.rest.takeWhile isOperand).flatten.length +
        (cursor.rest.dropWhile isOperand).flatten.length := by
    rw [← List.length_append, ← List.flatten_append, List.takeWhile_append_dropWhile]
  unfold enter at h
  split at h
  · exact absurd h (by simp)
  · rename_i element rest hrest
    split_ifs at h
    obtain rfl := Option.some.inj h
    rw [hrest, List.flatten_cons, List.length_append] at hsplit
    simp only [size, List.length_tail]
    omega

theorem size_read (optstring : List Char) (h : cursor.letters ≠ []) :
    (cursor.read optstring).2.size < cursor.size := by
  obtain ⟨c, letters, hletters⟩ := List.exists_cons_of_ne_nil h
  have hafter : (if letters = [] then { cursor with index := cursor.index + 1, letters := [] }
      else { cursor with letters := letters }).size < cursor.size := by
    split_ifs <;> simp [size, hletters]
  unfold read
  rw [hletters]
  dsimp only
  cases takesArgument optstring c with
  | none => exact hafter
  | some takes =>
    cases takes with
    | no => exact hafter
    | optional => simp [size, hletters]
    | required =>
      dsimp only
      split_ifs
      · simp [size, hletters]
      · cases hrest : cursor.rest with
        | nil => simp [size, hletters, hrest]
        | cons argument rest =>
          simp only [size, hletters, hrest, List.length_nil, List.length_cons, List.flatten_cons,
            List.length_append]
          omega

/-- A call takes at least one character. -/
theorem size_next (h : cursor.next optstring = some (given, after)) : after.size < cursor.size := by
  unfold next at h
  split_ifs at h with hletters
  · obtain ⟨inner, hinner, hread⟩ := Option.map_eq_some_iff.mp h
    have hsize := size_enter hinner
    have hread_size := size_read optstring (letters_enter hinner)
    rw [hread] at hread_size
    exact Nat.lt_of_lt_of_le hread_size hsize
  · have hread := size_read optstring hletters
    rwa [Option.some.inj h] at hread

theorem size_delete (num : ℕ) (cursor : Cursor) : (cursor.delete num).size ≤ cursor.size := by
  unfold delete
  split_ifs
  · cases hrest : cursor.rest with
    | nil => simp [size, start]
    | cons first rest =>
      simp only [size, start, hrest, List.tail_cons, List.length_nil, List.flatten_cons,
        List.length_append]
      omega
  · simp [size, start]
  · exact Nat.le_refl _

theorem optionsUpTo_of_none (h : cursor.next optstring = none) (count : ℕ) :
    optionsUpTo optstring deletes count cursor = [] := by
  cases count with
  | zero => rfl
  | succ count => rw [optionsUpTo, h]

/-- More than enough is the same as enough. -/
theorem optionsUpTo_eq {count count' : ℕ} (h : cursor.size ≤ count) (h' : cursor.size ≤ count') :
    optionsUpTo optstring deletes count cursor = optionsUpTo optstring deletes count' cursor := by
  induction count generalizing cursor count' with
  | zero =>
    have hnext : cursor.next optstring = none := by
      rw [Option.eq_none_iff_forall_ne_some]
      exact fun option hnext ↦ absurd (size_next hnext) (by omega)
    rw [optionsUpTo_of_none hnext, optionsUpTo_of_none hnext]
  | succ count ih =>
    cases hnext : cursor.next optstring with
    | none => rw [optionsUpTo_of_none hnext, optionsUpTo_of_none hnext]
    | some option =>
      obtain ⟨given, after⟩ := option
      have hsize := size_next hnext
      obtain ⟨count', rfl⟩ := Nat.exists_eq_succ_of_ne_zero (by omega : count' ≠ 0)
      rw [optionsUpTo, Nat.succ_eq_add_one, optionsUpTo, hnext]
      dsimp only
      congr 1
      cases deletes given with
      | none => rfl
      | some num =>
        have hdelete := size_delete num after
        exact ih (by omega) (by omega)

theorem options_of_none (h : cursor.next optstring = none) :
    cursor.options optstring deletes = [] := optionsUpTo_of_none h cursor.size

theorem options_of_some (h : cursor.next optstring = some (given, after)) :
    cursor.options optstring deletes =
      given :: (deletes given).elim [] fun num ↦ (after.delete num).options optstring deletes := by
  have hsize := size_next h
  obtain ⟨count, hcount⟩ := Nat.exists_eq_succ_of_ne_zero (Nat.ne_zero_of_lt hsize)
  rw [options, hcount, Nat.succ_eq_add_one, optionsUpTo, h]
  dsimp only
  congr 1
  cases deletes given with
  | none => rfl
  | some num =>
    have hdelete := size_delete num after
    exact optionsUpTo_eq (by omega) (Nat.le_refl _)

/-! ## The options of the command line as it is -/

variable (cursor) in
/-- The same place with more elements before it. -/
def shift (gone : ℕ) : Cursor := { cursor with index := cursor.index + gone }

theorem enter_shift (cursor : Cursor) (gone : ℕ) :
    (cursor.shift gone).enter = cursor.enter.map (shift · gone) := by
  unfold enter shift
  dsimp only
  split
  · rfl
  · split_ifs
    · rfl
    · simp only [Option.map_some, Nat.add_right_comm]

theorem read_shift (cursor : Cursor) (gone : ℕ) : (cursor.shift gone).read optstring =
    ((cursor.read optstring).1, (cursor.read optstring).2.shift gone) := by
  obtain ⟨index, letters, rest⟩ := cursor
  unfold read shift
  cases letters with
  | nil => rfl
  | cons c letters =>
    dsimp only
    cases takesArgument optstring c with
    | none => split_ifs <;> simp [Nat.add_right_comm]
    | some takes =>
      cases takes with
      | no => split_ifs <;> simp [Nat.add_right_comm]
      | optional => simp [Nat.add_right_comm]
      | required =>
        by_cases hletters : letters = []
        · subst hletters
          cases rest <;> simp [Nat.add_right_comm]
        · simp [hletters, Nat.add_right_comm]

theorem next_shift (cursor : Cursor) (gone : ℕ) :
    (cursor.shift gone).next optstring =
      (cursor.next optstring).map fun (given, after) ↦ (given, after.shift gone) := by
  have hinside : (if (cursor.shift gone).letters = [] then (cursor.shift gone).enter
      else some (cursor.shift gone)) =
      (if cursor.letters = [] then cursor.enter else some cursor).map (shift · gone) := by
    change (if cursor.letters = [] then _ else _) = _
    split_ifs
    · exact enter_shift cursor gone
    · rfl
  rw [next, next, hinside, Option.map_map, Option.map_map]
  congr 1
  funext inner
  exact read_shift inner gone

/-- Until the first element is deleted, deletions only move the index. -/
theorem delete_shift {num : ℕ} (gone : ℕ) (h : num < cursor.index) :
    (cursor.delete num).shift (gone + num) = cursor.shift gone := by
  rw [delete, if_neg (Nat.ne_of_gt h), shift, shift, Cursor.mk.injEq]
  refine ⟨?_, rfl, rfl⟩
  dsimp only
  omega

/-- The caller gets the options of the command line for as long as there is the first element. -/
theorem heeded_prefix (count gone : ℕ) (cursor : Cursor) :
    heeded deletes gone (traceUpTo optstring count (cursor.shift gone)) <+:
      optionsUpTo optstring deletes count cursor := by
  induction count generalizing gone cursor with
  | zero => exact List.nil_prefix
  | succ count ih =>
    rw [traceUpTo, optionsUpTo, next_shift]
    cases hnext : cursor.next optstring with
    | none => exact List.nil_prefix
    | some option =>
      obtain ⟨given, after⟩ := option
      simp only [Option.map_some, heeded, List.cons_prefix_cons, true_and]
      cases deletes given with
      | none => exact List.nil_prefix
      | some num =>
        dsimp only
        split_ifs with hspares
        · have hnum : num < after.index := by
            change gone + num < after.index + gone at hspares
            omega
          rw [← delete_shift gone hnum]
          exact ih (gone + num) (after.delete num)
        · exact List.nil_prefix

theorem heeded_eq (count gone : ℕ) (cursor : Cursor)
    (h : sparesFirst deletes gone (traceUpTo optstring count (cursor.shift gone)) = true) :
    heeded deletes gone (traceUpTo optstring count (cursor.shift gone)) =
      optionsUpTo optstring deletes count cursor := by
  induction count generalizing gone cursor with
  | zero => rfl
  | succ count ih =>
    rw [traceUpTo, next_shift] at h ⊢
    rw [optionsUpTo]
    cases hnext : cursor.next optstring with
    | none => rfl
    | some option =>
      obtain ⟨given, after⟩ := option
      simp only [hnext, Option.map_some, sparesFirst] at h
      simp only [Option.map_some, heeded]
      congr 1
      cases hdeletes : deletes given with
      | none => rfl
      | some num =>
        simp only [hdeletes, Bool.and_eq_true, decide_eq_true_eq] at h
        obtain ⟨hspares, hrest⟩ := h
        have hnum : num < after.index := by
          change gone + num < after.index + gone at hspares
          omega
        rw [← delete_shift gone hnum] at hrest
        dsimp only
        rw [if_pos hspares, ← delete_shift gone hnum]
        exact ih (gone + num) (after.delete num) hrest

/-- The first element is safe from a caller that never deletes more than it has just passed. -/
theorem sparesFirst_of_next {Holds : Cursor → Prop}
    (hstep : ∀ cursor given after num, Holds cursor → cursor.next optstring = some (given, after) →
      deletes given = some num → Holds after ∧ cursor.index + num ≤ after.index)
    (count : ℕ) {gone : ℕ} (h : Holds cursor) (hgone : gone < cursor.index) :
    sparesFirst deletes gone (traceUpTo optstring count cursor) = true := by
  induction count generalizing gone cursor with
  | zero => rfl
  | succ count ih =>
    rw [traceUpTo]
    cases hnext : cursor.next optstring with
    | none => rfl
    | some option =>
      obtain ⟨given, after⟩ := option
      dsimp only
      rw [sparesFirst]
      cases hdeletes : deletes given with
      | none => rfl
      | some num =>
        obtain ⟨hafter, hindex⟩ := hstep cursor given after num h hnext hdeletes
        rw [Bool.and_eq_true, decide_eq_true_eq]
        exact ⟨by omega, ih hafter (by omega)⟩

theorem heeded_subset (gone : ℕ) (trace : List (Given × ℕ)) :
    heeded deletes gone trace ⊆ trace.map Prod.fst := by
  induction trace generalizing gone with
  | nil => exact List.nil_subset _
  | cons option rest ih =>
    obtain ⟨given, index⟩ := option
    rw [heeded, List.map_cons]
    apply List.cons_subset_cons
    cases deletes given with
    | none => exact List.nil_subset _
    | some num =>
      dsimp only
      split_ifs
      · exact ih (gone + num)
      · exact List.nil_subset _

end Steps

/-- What is still to be read are letters from the end of one of these strings, and strings. -/
structure DrawnFrom (strings : List (List Char)) (cursor : Cursor) : Prop where
  letters : cursor.letters = [] ∨ ∃ string ∈ strings, cursor.letters <:+ string
  rest : ∀ element ∈ cursor.rest, element ∈ strings

section DrawnFrom

variable {optstring : List Char} {deletes : Given → Option ℕ} {strings : List (List Char)}
  {cursor after : Cursor} {given : Given}

theorem DrawnFrom.enter (h : cursor.DrawnFrom strings) (henter : cursor.enter = some after) :
    after.DrawnFrom strings := by
  unfold Cursor.enter at henter
  split at henter
  · exact absurd henter (by simp)
  · rename_i element rest hrest
    have hmem : ∀ other ∈ element :: rest, other ∈ strings := by
      intro other hother
      rw [← hrest] at hother
      exact h.rest other ((List.dropWhile_suffix isOperand).subset hother)
    split_ifs at henter
    obtain rfl := Option.some.inj henter
    exact ⟨Or.inr ⟨element, hmem element List.mem_cons_self, List.tail_suffix element⟩,
      fun other hother ↦ hmem other (List.mem_cons_of_mem element hother)⟩

/-- An argument is one of the strings, or it is behind its letter in one. -/
theorem DrawnFrom.read (h : cursor.DrawnFrom strings) :
    (cursor.read optstring).2.DrawnFrom strings ∧
      ∀ arg, (cursor.read optstring).1.2 = some arg →
        arg ∈ strings ∨ ∃ string ∈ strings, (cursor.read optstring).1.1 :: arg <:+ string := by
  obtain ⟨index, letters, rest⟩ := cursor
  obtain ⟨hletters, hrest⟩ := h
  have hbehind : ∀ index, (⟨index, [], rest⟩ : Cursor).DrawnFrom strings :=
    fun index ↦ ⟨Or.inl rfl, hrest⟩
  unfold Cursor.read
  cases letters with
  | nil => exact ⟨hbehind index, fun arg harg ↦ absurd harg (by simp)⟩
  | cons c letters =>
    dsimp only at hletters ⊢
    obtain ⟨string, hmem, hsuffix⟩ := hletters.resolve_left (List.cons_ne_nil c letters)
    have hafter : (if letters = [] then (⟨index + 1, [], rest⟩ : Cursor)
        else ⟨index, letters, rest⟩).DrawnFrom strings := by
      split_ifs
      · exact hbehind (index + 1)
      · exact ⟨Or.inr ⟨string, hmem, (List.suffix_cons c letters).trans hsuffix⟩, hrest⟩
    cases takesArgument optstring c with
    | none => exact ⟨hafter, fun arg harg ↦ absurd harg (by simp)⟩
    | some takes =>
      cases takes with
      | no => exact ⟨hafter, fun arg harg ↦ absurd harg (by simp)⟩
      | optional =>
        refine ⟨hbehind (index + 1), fun arg harg ↦ ?_⟩
        dsimp only at harg
        split_ifs at harg
        obtain rfl := Option.some.inj harg
        exact Or.inr ⟨string, hmem, hsuffix⟩
      | required =>
        by_cases hlast : letters = []
        · cases rest with
          | nil =>
            simp only [hlast, ne_eq, not_true_eq_false, if_false]
            exact ⟨hbehind (index + 1), fun arg harg ↦ absurd harg (by simp)⟩
          | cons argument rest =>
            simp only [hlast, ne_eq, not_true_eq_false, if_false]
            refine ⟨⟨Or.inl rfl, fun other hother ↦ hrest other (List.mem_cons_of_mem _ hother)⟩,
              fun arg harg ↦ ?_⟩
            obtain rfl := Option.some.inj harg
            exact Or.inl (hrest argument List.mem_cons_self)
        · simp only [ne_eq, hlast, not_false_eq_true, if_true]
          refine ⟨hbehind (index + 1), fun arg harg ↦ ?_⟩
          obtain rfl := Option.some.inj harg
          exact Or.inr ⟨string, hmem, hsuffix⟩

theorem DrawnFrom.next (h : cursor.DrawnFrom strings)
    (hnext : cursor.next optstring = some (given, after)) :
    after.DrawnFrom strings ∧ ∀ arg, given.2 = some arg →
      arg ∈ strings ∨ ∃ string ∈ strings, given.1 :: arg <:+ string := by
  obtain ⟨inner, hinner, hread⟩ := Option.map_eq_some_iff.mp hnext
  have hdrawn : inner.DrawnFrom strings := by
    split_ifs at hinner
    · exact h.enter hinner
    · rwa [← Option.some.inj hinner]
  have hresult : (inner.read optstring).2.DrawnFrom strings ∧ _ := hdrawn.read
  rwa [hread] at hresult

theorem DrawnFrom.delete (h : cursor.DrawnFrom strings) (num : ℕ) :
    (cursor.delete num).DrawnFrom strings := by
  unfold Cursor.delete
  split_ifs
  · exact ⟨Or.inl rfl, fun element hmem ↦ h.rest element (List.mem_of_mem_tail hmem)⟩
  · exact ⟨Or.inl rfl, h.rest⟩
  · exact ⟨h.letters, h.rest⟩

/-- This holds of all options that a caller can get, whatever is deleted. -/
theorem DrawnFrom.argument (h : cursor.DrawnFrom strings) {c : Char} {arg : List Char}
    (hmem : (c, some arg) ∈ cursor.options optstring deletes) :
    arg ∈ strings ∨ ∃ string ∈ strings, c :: arg <:+ string := by
  unfold options at hmem
  generalize cursor.size = count at hmem
  induction count generalizing cursor with
  | zero => exact absurd hmem List.not_mem_nil
  | succ count ih =>
    rw [optionsUpTo] at hmem
    cases hnext : cursor.next optstring with
    | none =>
      rw [hnext] at hmem
      exact absurd hmem List.not_mem_nil
    | some option =>
      obtain ⟨given, after⟩ := option
      obtain ⟨hafter, hargument⟩ := h.next hnext
      simp only [hnext] at hmem
      rcases List.mem_cons.mp hmem with rfl | hrest
      · exact hargument arg rfl
      · cases hdeletes : deletes given with
        | none =>
          rw [hdeletes] at hrest
          exact absurd hrest List.not_mem_nil
        | some num =>
          rw [hdeletes] at hrest
          exact ih (hafter.delete num) hrest

end DrawnFrom

/-! ## The scanner at a cursor -/

/-- The scanner, once initialized, is at this cursor. -/
structure Standing (cursor : Cursor) (nulls argc : ℕ) (argv : Argv) (d : GetoptData) : Prop where
  elements : ∃ front current, front.length = cursor.index ∧
    current.length = (if cursor.letters = [] then 0 else 1) ∧
    argc = (front ++ current ++ cursor.rest).length ∧
    argv = vector (front ++ current ++ cursor.rest) nulls
  pos : 0 < cursor.index
  optind : d.optind = cursor.index
  nextchar : d.nextchar = cursor.letters
  firstNonopt : 0 < d.firstNonopt
  nonopts : d.firstNonopt ≤ d.lastNonopt
  initialized : d.initialized = true

section Standing

variable {optstring : List Char} {cursor after : Cursor} {given : Given} {nulls argc : ℕ}
  {argv : Argv} {d : GetoptData}

theorem Standing.argc_pos (h : cursor.Standing nulls argc argv d) : 0 < argc := by
  obtain ⟨front, current, hfront, -, rfl, -⟩ := h.elements
  have hpos := h.pos
  simp only [List.length_append]
  omega

theorem Standing.index_le (h : cursor.Standing nulls argc argv d) : cursor.index ≤ argc := by
  obtain ⟨front, current, hfront, -, rfl, -⟩ := h.elements
  simp only [List.length_append]
  omega

/-- One letter. -/
theorem Standing.getopt_read (h : cursor.Standing nulls argc argv d) (hletters : cursor.letters ≠ [])
    (optstring : List Char) :
    ∃ d', getopt optstring argc argv d = (some (cursor.read optstring).1.1, argv, d') ∧
      d'.optarg = (cursor.read optstring).1.2 ∧
      (cursor.read optstring).2.Standing nulls argc argv d' := by
  obtain ⟨front, current, hfront, hcurrent, hargc, hargv⟩ := h.elements
  obtain ⟨c, letters, hcons⟩ := List.exists_cons_of_ne_nil hletters
  have hoptind : d.optind ≠ 0 := by
    have hpos := h.pos
    rw [h.optind]
    omega
  have hnext := h.nextchar
  rw [hcons] at hnext
  rw [if_neg hletters] at hcurrent
  rw [getopt_inside h.argc_pos hoptind h.initialized hnext]
  -- what is left when the element has been read to its end
  have hbehind : ∀ d' : GetoptData, d'.optind = d.optind + 1 → d'.nextchar = [] →
      d'.firstNonopt = d.firstNonopt → d'.lastNonopt = d.lastNonopt → d'.initialized = true →
      ({ cursor with index := cursor.index + 1, letters := [] } : Cursor).Standing nulls argc argv
        d' := by
    intro d' hindex hempty hfirst hlast hinit
    refine ⟨⟨front ++ current, [], ?_, rfl, ?_, ?_⟩, Nat.succ_pos _, ?_, hempty, ?_, ?_, hinit⟩
    · rw [List.length_append, hfront, hcurrent]
    · rw [hargc, List.append_nil]
    · rw [hargv, List.append_nil]
    · rw [hindex, h.optind]
    · rw [hfirst]
      exact h.firstNonopt
    · rw [hfirst, hlast]
      exact h.nonopts
  have hinside : letters ≠ [] → ∀ d' : GetoptData, d'.optind = d.optind → d'.nextchar = letters →
      d'.firstNonopt = d.firstNonopt → d'.lastNonopt = d.lastNonopt → d'.initialized = true →
      ({ cursor with letters := letters } : Cursor).Standing nulls argc argv d' := by
    intro hne d' hindex hrest hfirst hlast hinit
    refine ⟨⟨front, current, hfront, ?_, hargc, hargv⟩, h.pos, hindex.trans h.optind, hrest, ?_, ?_,
      hinit⟩
    · rw [hcurrent, if_neg hne]
    · rw [hfirst]
      exact h.firstNonopt
    · rw [hfirst, hlast]
      exact h.nonopts
  simp only [letter, read, hnext, hcons]
  cases htakes : takesArgument optstring c with
  | none =>
    by_cases hlast : letters = []
    · simp only [if_pos hlast]
      exact ⟨_, rfl, rfl, hbehind _ rfl hlast rfl rfl h.initialized⟩
    · simp only [if_neg hlast]
      exact ⟨_, rfl, rfl, hinside hlast _ rfl rfl rfl rfl h.initialized⟩
  | some takes =>
    cases takes with
    | no =>
      by_cases hlast : letters = []
      · simp only [if_pos hlast]
        exact ⟨_, rfl, rfl, hbehind _ rfl hlast rfl rfl h.initialized⟩
      · simp only [if_neg hlast]
        exact ⟨_, rfl, rfl, hinside hlast _ rfl rfl rfl rfl h.initialized⟩
    | optional =>
      by_cases hlast : letters = []
      · simp only [if_pos hlast, if_neg (not_not_intro hlast)]
        exact ⟨_, rfl, rfl, hbehind _ rfl rfl rfl rfl h.initialized⟩
      · simp only [if_neg hlast, if_pos hlast]
        exact ⟨_, rfl, rfl, hbehind _ rfl rfl rfl rfl h.initialized⟩
    | required =>
      by_cases hlast : letters = []
      · simp only [if_pos hlast, if_neg (not_not_intro hlast)]
        have hlength : (front ++ current).length = d.optind + 1 := by
          rw [List.length_append, hfront, hcurrent, h.optind]
        cases hrest : cursor.rest with
        | nil =>
          have hend : d.optind + 1 = argc := by
            rw [hargc, hrest, List.append_nil, hlength]
          rw [if_pos hend]
          rw [hrest] at hbehind
          exact ⟨_, rfl, rfl, hbehind _ rfl rfl rfl rfl h.initialized⟩
        | cons argument rest =>
          rw [hrest] at hargc hargv
          have hend : d.optind + 1 ≠ argc := by
            rw [hargc, List.length_append, hlength, List.length_cons]
            omega
          have hget : argv.getD (d.optind + 1) none = some argument := by
            rw [hargv, ← hlength, getD_vector]
          rw [if_neg hend]
          refine ⟨_, rfl, hget, ⟨front ++ current ++ [argument], [], ?_, rfl, ?_, ?_⟩,
            Nat.succ_pos _, ?_, rfl, h.firstNonopt, h.nonopts, h.initialized⟩
          · rw [List.length_append, hlength, h.optind]
            rfl
          · rw [hargc]
            simp
          · rw [hargv]
            simp
          · rw [h.optind]
      · simp only [if_neg hlast, if_pos hlast]
        exact ⟨_, rfl, rfl, hbehind _ rfl rfl rfl rfl h.initialized⟩

/-- Where the operands that were passed over are, as the next search takes them. -/
def clamp (d : GetoptData) : GetoptData :=
  d.withNonopts (min d.firstNonopt d.optind) (min d.lastNonopt d.optind)

theorem advance_clamp (argc : ℕ) (argv : Argv) (d : GetoptData) :
    advance argc argv (clamp d) = advance argc argv d := by
  simp only [advance, clamp, GetoptData.withNonopts, Nat.min_assoc, Nat.min_self]

theorem Standing.scanning (h : cursor.Standing nulls argc argv d) (hletters : cursor.letters = []) :
    ∃ front operands recent,
      front.length + operands.length + recent.length = cursor.index ∧
      Scanning front operands recent cursor.rest nulls argc argv (clamp d) := by
  obtain ⟨before, current, hbefore, hcurrent, hargc, hargv⟩ := h.elements
  rw [if_pos hletters] at hcurrent
  obtain rfl := List.length_eq_zero_iff.mp hcurrent
  rw [List.append_nil] at hargc hargv
  have hfirst := h.firstNonopt
  have hnonopts := h.nonopts
  have hoptind := h.optind
  have hpos := h.pos
  obtain ⟨first, hfirstEq⟩ : ∃ first, first = min d.firstNonopt d.optind := ⟨_, rfl⟩
  obtain ⟨last, hlastEq⟩ : ∃ last, last = min d.lastNonopt d.optind := ⟨_, rfl⟩
  have hsplit := segments_eq before (show first ≤ last by omega)
  have hfrontLength : (before.take first).length = first := by
    rw [List.length_take]
    omega
  have hoperandsLength : ((before.drop first).take (last - first)).length = last - first := by
    rw [List.length_take, List.length_drop]
    omega
  have hrecentLength : (before.drop last).length = cursor.index - last := by
    rw [List.length_drop, hbefore]
  refine ⟨before.take first, (before.drop first).take (last - first), before.drop last, by omega, ?_,
    ?_, ?_, ?_, ?_, ?_, h.initialized, ?_⟩
  · rw [hsplit, hargv]
  · rw [hsplit, hargc]
  · change d.optind = _
    omega
  · rw [hfrontLength, hfirstEq]
    rfl
  · rw [hfrontLength, hoperandsLength]
    change min d.lastNonopt d.optind = _
    omega
  · exact h.nextchar.trans hletters
  · apply List.length_pos_iff.mp
    omega

theorem Standing.getopt_clamp (h : cursor.Standing nulls argc argv d)
    (hletters : cursor.letters = []) :
    getopt optstring argc argv d = getopt optstring argc argv (clamp d) := by
  obtain ⟨front, operands, recent, -, hscan⟩ := h.scanning hletters
  have hoptind : d.optind ≠ 0 := by
    have hpos := h.pos
    rw [h.optind]
    omega
  have hadvance := advance_clamp argc argv { d with optarg := none }
  rw [hscan.getopt_eq, getopt_between h.argc_pos hoptind h.initialized (h.nextchar.trans hletters),
    ← hadvance]
  rfl

/-- Inside the element that the search has found. -/
theorem standing_of_inside {front operands : List (List Char)} {element : List Char}
    (h : Inside front operands element cursor.letters cursor.rest nulls argc argv d)
    (hletters : cursor.letters ≠ []) (hindex : cursor.index = front.length + operands.length) :
    cursor.Standing nulls argc argv d := by
  have hpos := List.length_pos_iff.mpr h.front_ne
  refine ⟨⟨front ++ operands, [element], ?_, ?_, ?_, ?_⟩, by omega, h.optind.trans hindex.symm,
    h.nextchar, ?_, ?_, h.initialized⟩
  · rw [List.length_append, hindex]
  · rw [if_neg hletters, List.length_singleton]
  · rw [List.append_assoc _ [element], List.singleton_append, h.argc_eq]
  · rw [List.append_assoc _ [element], List.singleton_append, h.argv_eq]
  · rw [h.firstNonopt]
    exact hpos
  · rw [h.firstNonopt, h.lastNonopt]
    omega

/-- The search for the next element. -/
theorem Standing.getopt_enter (h : cursor.Standing nulls argc argv d) (hletters : cursor.letters = [])
    (optstring : List Char) :
    (cursor.enter = none ∧ (getopt optstring argc argv d).1 = none) ∨
      ∃ inner argv' d', cursor.enter = some inner ∧ inner.Standing nulls argc argv' d' ∧
        getopt optstring argc argv d = getopt optstring argc argv' d' := by
  obtain ⟨front, operands, recent, hindex, hscan⟩ := h.scanning hletters
  have hskipped : ∀ operand ∈ cursor.rest.takeWhile isOperand, isOperand operand = true :=
    fun _ hmem ↦ List.mem_takeWhile_imp hmem
  have hrest : cursor.rest.takeWhile isOperand ++ cursor.rest.dropWhile isOperand = cursor.rest :=
    List.takeWhile_append_dropWhile
  rw [h.getopt_clamp hletters, enter]
  cases hleft : cursor.rest.dropWhile isOperand with
  | nil =>
    rw [hleft, List.append_nil] at hrest
    rw [← hrest] at hscan
    obtain ⟨d', hgetopt, -⟩ := hscan.getopt_end optstring hskipped
    exact Or.inl ⟨rfl, by rw [hgetopt]⟩
  | cons element left =>
    have hoption : isOperand element = false := isOperand_of_dropWhile hleft
    rw [hleft] at hrest
    rw [← hrest] at hscan
    dsimp only
    split_ifs with hdashes
    · subst hdashes
      obtain ⟨d', hgetopt, -⟩ := hscan.getopt_dashes optstring hskipped
      exact Or.inl ⟨rfl, by rw [hgetopt]⟩
    · obtain ⟨argv', d', hinside, hgetopt⟩ :=
        hscan.getopt_element optstring hskipped hoption hdashes
      refine Or.inr ⟨_, argv', d', rfl, ?_, hgetopt⟩
      apply standing_of_inside hinside (tail_ne_nil hoption)
      dsimp only
      rw [List.length_append, List.length_append, ← hindex]
      omega

theorem Standing.getopt_none (h : cursor.Standing nulls argc argv d)
    (hnext : cursor.next optstring = none) : (getopt optstring argc argv d).1 = none := by
  rw [next, Option.map_eq_none_iff] at hnext
  split_ifs at hnext with hletters
  rcases h.getopt_enter hletters optstring with ⟨-, hgetopt⟩ | ⟨inner, argv', d', hinner, -⟩
  · exact hgetopt
  · exact absurd (hnext.symm.trans hinner) (by simp)

/-- A call of the scanner is a step of the cursor. -/
theorem Standing.getopt_some (h : cursor.Standing nulls argc argv d)
    (hnext : cursor.next optstring = some (given, after)) :
    ∃ argv' d', getopt optstring argc argv d = (some given.1, argv', d') ∧ d'.optarg = given.2 ∧
      after.Standing nulls argc argv' d' := by
  obtain ⟨inner, hinner, hread⟩ := Option.map_eq_some_iff.mp hnext
  split_ifs at hinner with hletters
  · rcases h.getopt_enter hletters optstring with ⟨hnone, -⟩ |
      ⟨_, argv', d', hsome, hstanding, hgetopt⟩
    · exact absurd (hnone.symm.trans hinner) (by simp)
    · obtain rfl := Option.some.inj (hsome.symm.trans hinner)
      obtain ⟨d'', hletter, hafter⟩ := hstanding.getopt_read (letters_enter hinner) optstring
      rw [hread] at hletter hafter
      exact ⟨argv', d'', hgetopt.trans hletter, hafter⟩
  · obtain rfl := Option.some.inj hinner
    obtain ⟨d', hletter, hafter⟩ := h.getopt_read hletters optstring
    rw [hread] at hletter hafter
    exact ⟨argv, d', hletter, hafter⟩

end Standing

/-- The data after the initialization with which a call begins, where it does. -/
def ready (d : GetoptData) : GetoptData :=
  if d.optind = 0 ∨ d.initialized = false then getoptInitialize d else d

/-- The next call reads on at this cursor. -/
def At (cursor : Cursor) (nulls argc : ℕ) (argv : Argv) (d : GetoptData) : Prop :=
  (argc = 0 ∧ cursor.letters = [] ∧ cursor.rest = []) ∨ cursor.Standing nulls argc argv (ready d)

section At

variable {optstring : List Char} {cursor after : Cursor} {given : Given} {nulls argc : ℕ}
  {argv : Argv} {d : GetoptData}

theorem Standing.at (h : cursor.Standing nulls argc argv d) : cursor.At nulls argc argv d := by
  have hoptind : d.optind ≠ 0 := by
    have hpos := h.pos
    rw [h.optind]
    omega
  have hready : ready d = d := if_neg (by simp [hoptind, h.initialized])
  exact Or.inr (by rwa [hready])

theorem getopt_ready (optstring : List Char) (hargc : 0 < argc) (argv : Argv) (d : GetoptData) :
    getopt optstring argc argv (ready d) = getopt optstring argc argv d := by
  have hargc' : ¬ argc < 1 := by omega
  by_cases hinit : d.optind = 0 ∨ d.initialized = false
  · have hoptind : (getoptInitialize d).optind ≠ 0 := by
      dsimp only [getoptInitialize]
      split_ifs with hzero
      · exact Nat.one_ne_zero
      · exact hzero
    have hready : ¬ ((getoptInitialize d).optind = 0 ∨ (getoptInitialize d).initialized = false) := by
      push Not
      exact ⟨hoptind, Bool.noConfusion⟩
    rw [ready, if_pos hinit]
    unfold getopt
    dsimp only
    rw [if_pos hinit, if_neg hready, if_neg hargc', if_neg hargc']
    rfl
  · rw [ready, if_neg hinit]

theorem At.getopt_none (h : cursor.At nulls argc argv d) (hnext : cursor.next optstring = none) :
    (getopt optstring argc argv d).1 = none := by
  rcases h with ⟨rfl, -, -⟩ | hstanding
  · rw [getopt, if_pos Nat.zero_lt_one]
  · rw [← getopt_ready optstring hstanding.argc_pos]
    exact hstanding.getopt_none hnext

theorem At.getopt_some (h : cursor.At nulls argc argv d)
    (hnext : cursor.next optstring = some (given, after)) :
    ∃ argv' d', getopt optstring argc argv d = (some given.1, argv', d') ∧ d'.optarg = given.2 ∧
      after.Standing nulls argc argv' d' := by
  rcases h with ⟨-, hletters, hrest⟩ | hstanding
  · rw [next, if_pos hletters, enter, hrest] at hnext
    exact absurd hnext (by simp)
  · rw [← getopt_ready optstring hstanding.argc_pos]
    exact hstanding.getopt_some hnext

theorem At.pos (h : cursor.At nulls argc argv d)
    (hnext : cursor.next optstring = some (given, after)) : 0 < cursor.index := by
  rcases h with ⟨-, hletters, hrest⟩ | hstanding
  · rw [next, if_pos hletters, enter, hrest] at hnext
    exact absurd hnext (by simp)
  · exact hstanding.pos

/-- The scan starts behind the first element. -/
theorem at_start (first : List Char) (args : List (List Char)) (nulls : ℕ)
    (h : d.optind = 0 ∨ d.optind = 1 ∧ d.initialized = false) :
    (start args).At nulls (first :: args).length (vector (first :: args) nulls) d := by
  have hinit : d.optind = 0 ∨ d.initialized = false := h.imp_right And.right
  have hone : (getoptInitialize d).optind = 1 := by
    dsimp only [getoptInitialize]
    split_ifs <;> omega
  refine Or.inr ?_
  rw [ready, if_pos hinit]
  refine ⟨⟨[first], [], rfl, rfl, rfl, rfl⟩, Nat.one_pos, hone, rfl, ?_, Nat.le_refl _, rfl⟩
  change 0 < (getoptInitialize d).optind
  omega

/-- The elements that a caller deletes, and where the next call then reads on. -/
theorem Standing.at_delete (h : cursor.Standing nulls argc argv d) {num : ℕ}
    (hnum : num ≤ cursor.index) :
    ∃ front segment rest, segment.length = num ∧ argc = (front ++ segment ++ rest).length ∧
      argv = vector (front ++ segment ++ rest) nulls ∧ d.optind = front.length + segment.length ∧
      ∀ nulls', (cursor.delete num).At nulls' (front ++ rest).length (vector (front ++ rest) nulls')
        { d with optind := front.length } := by
  obtain ⟨before, current, hbefore, hcurrent, hargc, hargv⟩ := h.elements
  obtain ⟨front, segment, rfl, hsegment⟩ : ∃ front segment, before = front ++ segment ∧
      segment.length = num := by
    refine ⟨before.take (cursor.index - num), before.drop (cursor.index - num),
      (List.take_append_drop _ _).symm, ?_⟩
    rw [List.length_drop]
    omega
  rw [List.length_append] at hbefore
  refine ⟨front, segment, current ++ cursor.rest, hsegment, ?_, ?_, h.optind.trans hbefore.symm, ?_⟩
  · rw [hargc, List.append_assoc]
  · rw [hargv, List.append_assoc]
  · intro nulls'
    by_cases hall : cursor.index = num
    · -- nothing is left before the index
      have hfront : front = [] := List.length_eq_zero_iff.mp (by omega)
      subst hfront
      rw [delete, if_pos hall, List.nil_append]
      by_cases hletters : cursor.letters = []
      · rw [if_pos hletters] at hcurrent ⊢
        obtain rfl := List.length_eq_zero_iff.mp hcurrent
        cases hrest : cursor.rest with
        | nil => exact Or.inl ⟨rfl, rfl, rfl⟩
        | cons first rest => exact at_start first rest nulls' (Or.inl rfl)
      · rw [if_neg hletters] at hcurrent ⊢
        obtain ⟨element, rfl⟩ := List.length_eq_one_iff.mp hcurrent
        exact at_start element cursor.rest nulls' (Or.inl rfl)
    · rw [delete, if_neg hall]
      apply Standing.at
      refine ⟨⟨front, current, ?_, hcurrent, ?_, ?_⟩, ?_, ?_, h.nextchar, h.firstNonopt, h.nonopts,
        h.initialized⟩
      · dsimp only
        omega
      · rw [List.append_assoc]
      · rw [List.append_assoc]
      · dsimp only
        omega
      · dsimp only
        omega

end At

end Cursor

end FuseAdf.Getopt
