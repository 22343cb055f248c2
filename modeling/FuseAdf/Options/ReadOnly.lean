import FuseAdf.Options.Letters

/-!
# Read-only mounts

An argument of `-o` is a list of mount options, but the loop compares it as a whole with `ro`.
Besides, an element that makes the loop delete the program name takes away what follows it unread, so
that the command line and the loop may have different arguments of `-o`.  It does not happen as long as
the options, counted on the command line as it is given, delete less than stands before them.
-/

namespace FuseAdf

open Getopt WhileLoop

/-- The arguments of `-o`. -/
def mountLists (options : List Given) : List CStr :=
  options.filterMap fun (c, optarg) ↦ if c = 'o' then optarg else none

/-- The options of the command line as it is given. -/
def optionsGiven (args : List CStr) : List (Given × ℕ) :=
  Cursor.trace validOptions (.start args.tail)

/-- One element of one list is `ro`. -/
def AsksReadOnly (args : List CStr) : Prop :=
  ∃ list ∈ mountLists ((optionsGiven args).map Prod.fst), "ro".toList ∈ list.splitOn ','

/-- The image is opened read-only just when this is asked for. -/
structure HonoursReadOnly (args : List CStr) (options : CmdlineOptions) : Prop where
  writeMode : options.writeMode = false ↔ AsksReadOnly args
  readOnly : options.readOnly = true ↔ AsksReadOnly args

/-- Up to every option of the command line fewer elements are deleted than are before it, so that the
program name is not among them. -/
def SparesName (args : List CStr) : Prop := Cursor.sparesFirst deletes 0 (optionsGiven args) = true

/-- The lists up to an option with which `parse_args` returns or the program name is deleted. -/
def listsHeeded (args : List CStr) : List CStr :=
  mountLists (Cursor.heeded deletes 0 (optionsGiven args))

/-- Some argument is `ro`, or ends in the letter `o` and `ro`. -/
def EndsReadOnly (args : List CStr) : Prop :=
  "ro".toList ∈ args.tail ∨ ∃ arg ∈ args.tail, "oro".toList <:+ arg

/-- A list is `ro` alone; or none has `ro`, and none could come about by deleting the program name. -/
def KeepsReadOnly (args : List CStr) : Prop :=
  "ro".toList ∈ listsHeeded args ∨ ¬ AsksReadOnly args ∧ (SparesName args ∨ ¬ EndsReadOnly args)

instance : DecidablePred AsksReadOnly := fun args ↦
  inferInstanceAs (Decidable (∃ list ∈ mountLists ((optionsGiven args).map Prod.fst), _))

instance : DecidablePred SparesName := fun _ ↦ inferInstanceAs (Decidable (_ = true))

instance : DecidablePred EndsReadOnly := fun _ ↦ inferInstanceAs (Decidable (_ ∨ _))

instance : DecidablePred KeepsReadOnly := fun _ ↦ inferInstanceAs (Decidable (_ ∨ _))

section Switch

variable {options next result : CmdlineOptions} {given : Given}

/-- The switch takes a list for a request just if it is `ro`. -/
theorem writeMode_of_take (h : options.take given = .inl next) :
    next.writeMode = false ↔ options.writeMode = false ∨ given = ('o', some "ro".toList) := by
  rw [CmdlineOptions.take.eq_def] at h
  split at h
  · split at h
    · exact absurd h (by simp)
    · dsimp only at h
      split_ifs at h
      obtain rfl := Sum.inl.inj h
      simp
  · obtain rfl := Sum.inl.inj h
    simp
  · obtain rfl := Sum.inl.inj h
    simp
  · obtain rfl := Sum.inl.inj h
    simp
  · obtain rfl := Sum.inl.inj h
    simp
  · obtain rfl := Sum.inl.inj h
    simp
  · obtain rfl := Sum.inl.inj h
    split_ifs with hro
    · simp [hro]
    · exact (or_iff_left fun heq ↦ hro (congrArg Prod.snd heq)).symm
  · exact absurd h (by simp)
  · exact absurd h (by simp)
  · exact absurd h (by simp)

theorem writeMode_of_take_accepted (h : options.take given = .inr (true, result)) :
    given ≠ ('o', some "ro".toList) ∧ deletes given = none ∧
      result.writeMode = options.writeMode := by
  rw [CmdlineOptions.take.eq_def] at h
  split at h
  · split at h
    · exact absurd h (by simp)
    · dsimp only at h
      split_ifs at h
      exact absurd h (by simp)
  · exact absurd h (by simp)
  · exact absurd h (by simp)
  · exact absurd h (by simp)
  · exact absurd h (by simp)
  · exact absurd h (by simp)
  · exact absurd h (by simp)
  · obtain rfl := (Prod.mk.inj (Sum.inr.inj h)).2
    exact ⟨by simp, rfl, rfl⟩
  · obtain rfl := (Prod.mk.inj (Sum.inr.inj h)).2
    exact ⟨by simp, rfl, rfl⟩
  · exact absurd h (by simp)

end Switch

section Runs

variable {realpath : CStr → Option CStr} {state last : ParseState} {cursor : Cursor}

theorem mem_mountLists {list : CStr} {options : List Given} :
    list ∈ mountLists options ↔ ('o', some list) ∈ options := by
  rw [mountLists, List.mem_filterMap]
  constructor
  · rintro ⟨⟨c, optarg⟩, hmem, hlist⟩
    dsimp only at hlist
    split_ifs at hlist with hc
    rwa [hc, hlist] at hmem
  · exact fun hmem ↦ ⟨_, hmem, rfl⟩

theorem writeMode_parseOperands (state : ParseState) :
    (parseOperands realpath state).2.options.writeMode = state.options.writeMode := by
  rw [parseOperands]
  split_ifs <;> rfl

/-- An accepted command line: the image is not to be written to if this is set already, or if one of
the options that the loop gets is `-o ro`. -/
theorem writeMode_of_ends (h : Ends (parsePass realpath) state (true, last))
    (hat : state.ReadsAt cursor) :
    last.options.writeMode = false ↔ state.options.writeMode = false ∨
      ('o', some "ro".toList) ∈ cursor.options validOptions deletes := by
  generalize hresult : (true, last) = result at h
  induction h generalizing cursor with
  | done hpass =>
    subst hresult
    cases hnext : cursor.next validOptions with
    | none =>
      obtain ⟨inner, hoptions, -, hinner⟩ := hat.parsePass_none realpath hnext
      have hlast := congrArg Prod.snd (Sum.inr.inj (hpass.symm.trans hinner))
      have hwrite : last.options.writeMode = _ :=
        (congrArg (·.options.writeMode) hlast).trans (writeMode_parseOperands inner)
      rw [hwrite, hoptions, Cursor.options_of_none hnext]
      simp
    | some option =>
      obtain ⟨given, after⟩ := option
      rw [Cursor.options_of_some hnext]
      rcases hat.parsePass_take realpath hnext with
        ⟨next, num, -, -, hgoes, -⟩ | ⟨accepted, stop, hstops, htake⟩
      · exact absurd (hpass.symm.trans hgoes) (by simp)
      · obtain ⟨rfl, rfl⟩ := Prod.mk.inj (Sum.inr.inj (hpass.symm.trans hstops))
        obtain ⟨hne, hdeletes, hwrite⟩ := writeMode_of_take_accepted htake
        rw [hwrite, hdeletes, Option.elim_none, List.mem_singleton, or_iff_left hne.symm]
  | more hpass _ ih =>
    cases hnext : cursor.next validOptions with
    | none =>
      obtain ⟨inner, -, -, hinner⟩ := hat.parsePass_none realpath hnext
      exact absurd (hpass.symm.trans hinner) (by simp)
    | some option =>
      obtain ⟨given, after⟩ := option
      rw [Cursor.options_of_some hnext]
      rcases hat.parsePass_take realpath hnext with
        ⟨next, num, htake, hdeletes, hgoes, -, hreads⟩ | ⟨accepted, stop, hstops, -⟩
      · obtain rfl := Sum.inl.inj (hpass.symm.trans hgoes)
        rw [ih hreads hresult, writeMode_of_take htake, hdeletes, Option.elim_some, List.mem_cons,
          or_assoc, eq_comm (a := given)]
      · exact absurd (hpass.symm.trans hstops) (by simp)

theorem writeMode_iff {fuel : ℕ} {args : List CStr}
    (hparse : parseArgs realpath fuel args = some (true, last)) :
    last.options.writeMode = false ↔ ('o', some "ro".toList) ∈ lettersRead args := by
  have hstart : ¬ (ParseState.start args).options.writeMode = false := Bool.noConfusion
  rw [writeMode_of_ends (ends_of_run hparse) (readsAt_start args), or_iff_right hstart, lettersRead]

end Runs

/-! ## The command line and the loop -/

section Lines

variable {args : List CStr}

/-- The loop gets the lists that are heeded. -/
theorem heeded_subset_lettersRead (args : List CStr) :
    Cursor.heeded deletes 0 (optionsGiven args) ⊆ lettersRead args :=
  (Cursor.heeded_prefix _ 0 (.start args.tail)).subset

/-- If the program name is spared, these are all that it gets. -/
theorem heeded_eq_lettersRead (h : SparesName args) :
    Cursor.heeded deletes 0 (optionsGiven args) = lettersRead args :=
  Cursor.heeded_eq _ 0 (.start args.tail) h

/-- What is behind an element and its argument. -/
def behindElement (rest : List CStr) : Effect → List CStr
  | .keepNext | .dropNext => rest.tail
  | _ => rest

/-- Neither does what is still to be read. -/
def LeavesPrevious (cursor : Cursor) : Prop :=
  effect cursor.letters ≠ .dropPrevious ∧
    ∀ element ∈ (readArgs (behindElement cursor.rest (effect cursor.letters))).elements,
      effect element.tail ≠ .dropPrevious

theorem leavesPrevious_enter {cursor inner : Cursor} (hletters : cursor.letters = [])
    (h : LeavesPrevious cursor) (henter : cursor.enter = some inner) :
    LeavesPrevious inner := by
  obtain ⟨index, letters, rest⟩ := cursor
  obtain rfl : letters = [] := hletters
  have hrest : ∀ element ∈ (readArgs rest).elements, effect element.tail ≠ .dropPrevious := h.2
  have hskipped : ∀ operand ∈ rest.takeWhile isOperand, isOperand operand = true :=
    fun _ hmem ↦ List.mem_takeWhile_imp hmem
  have hread := readArgs_operands hskipped (rest.dropWhile isOperand)
  rw [List.takeWhile_append_dropWhile] at hread
  unfold Cursor.enter at henter
  split at henter
  · exact absurd henter (by simp)
  · rename_i element left hleft
    have hoption := isOperand_of_dropWhile hleft
    split_ifs at henter with hdashes
    obtain rfl := Option.some.inj henter
    have hline : readArgs (element :: left) = _ := readArgs_element hoption hdashes
    dsimp only at hleft
    rw [hread, hleft] at hrest
    change effect element.tail ≠ _ ∧ _
    cases hcase : effect element.tail with
    | keep | drop | refuse =>
      rw [hline, hcase] at hrest
      exact ⟨by simp, fun other hmem ↦ hrest other (List.mem_cons_of_mem element hmem)⟩
    | dropPrevious =>
      rw [hline, hcase] at hrest
      exact absurd hcase (hrest element List.mem_cons_self)
    | keepNext | dropNext =>
      rw [hline, hcase] at hrest
      refine ⟨by simp, fun other hmem ↦ ?_⟩
      cases left with
      | nil => exact absurd hmem List.not_mem_nil
      | cons argument left => exact hrest other (List.mem_cons_of_mem element hmem)

section Letters

variable {index num : ℕ} {c : Char} {letters : List Char} {rest : List CStr}

theorem leavesPrevious_flag (hflag : c = 's' ∨ c = 'd' ∨ c = 'f')
    (h : LeavesPrevious ⟨index, c :: letters, rest⟩)
    (hdeletes : deletes (Cursor.read validOptions ⟨index, c :: letters, rest⟩).1 = some num) :
    LeavesPrevious (Cursor.read validOptions ⟨index, c :: letters, rest⟩).2 ∧
      index + num ≤ (Cursor.read validOptions ⟨index, c :: letters, rest⟩).2.index := by
  obtain ⟨heffect, hrest⟩ := h
  have hno := takesArgument_flag hflag
  have hsame : effect (c :: letters) = effect letters := by rw [effect, if_pos hflag]
  have hzero : num = 0 := by
    rw [Cursor.read] at hdeletes
    simp only [hno] at hdeletes
    rcases hflag with rfl | rfl | rfl <;> exact (Option.some.inj hdeletes).symm
  dsimp only at heffect hrest
  rw [hsame] at heffect hrest
  rw [hzero, Cursor.read]
  simp only [hno]
  split_ifs with hlast
  · subst hlast
    exact ⟨⟨by simp [effect], hrest⟩, Nat.le_succ index⟩
  · exact ⟨⟨heffect, hrest⟩, Nat.le_refl index⟩

/-- An argument of its own is deleted along with the element; an attached one is a list. -/
theorem leavesPrevious_argument (hargument : c = 'o' ∨ c = 'p')
    (h : LeavesPrevious ⟨index, c :: letters, rest⟩)
    (hdeletes : deletes (Cursor.read validOptions ⟨index, c :: letters, rest⟩).1 = some num) :
    LeavesPrevious (Cursor.read validOptions ⟨index, c :: letters, rest⟩).2 ∧
      index + num ≤ (Cursor.read validOptions ⟨index, c :: letters, rest⟩).2.index := by
  obtain ⟨heffect, hrest⟩ := h
  dsimp only at heffect hrest
  have hrequired : takesArgument validOptions c = some .required := by
    rcases hargument with rfl | rfl <;> decide
  have htwo : ∀ argument, deletes (c, some argument) = some num → num ≤ 2 := by
    rintro argument hnum
    rcases hargument with rfl | rfl <;> obtain rfl := Option.some.inj hnum <;> decide
  by_cases hlast : letters = []
  · subst hlast
    have hbehind : behindElement rest (effect [c]) = rest.tail := by
      rcases hargument with rfl | rfl <;> rfl
    rw [hbehind] at hrest
    cases rest with
    | nil => simp [Cursor.read, hrequired, deletes] at hdeletes
    | cons argument rest =>
      simp only [Cursor.read, hrequired, ne_eq, not_true_eq_false, if_false] at hdeletes ⊢
      exact ⟨⟨by simp [effect], hrest⟩, Nat.add_le_add_left (htwo argument hdeletes) index⟩
  · obtain rfl : c = 'o' := by
      refine hargument.resolve_right fun hp ↦ heffect ?_
      simp [effect, hp, hlast]
    have hkeep : effect ('o' :: letters) = .keep := by simp [effect, hlast]
    simp only [Cursor.read, hrequired, ne_eq, hlast, not_false_eq_true, if_true] at hdeletes ⊢
    obtain rfl := Option.some.inj hdeletes
    rw [hkeep] at hrest
    exact ⟨⟨by simp [effect], hrest⟩, Nat.le_succ index⟩

theorem leavesPrevious_delete (hdelete : c = 'l' ∨ c = 'i')
    (h : LeavesPrevious ⟨index, c :: letters, rest⟩)
    (hdeletes : deletes (Cursor.read validOptions ⟨index, c :: letters, rest⟩).1 = some num) :
    LeavesPrevious (Cursor.read validOptions ⟨index, c :: letters, rest⟩).2 ∧
      index + num ≤ (Cursor.read validOptions ⟨index, c :: letters, rest⟩).2.index := by
  obtain ⟨heffect, hrest⟩ := h
  dsimp only at heffect hrest
  have hlast : letters = [] := by
    by_contra hne
    rcases hdelete with rfl | rfl <;> exact heffect (by simp [effect, hne])
  subst hlast
  have hdrop : effect [c] = .drop := by rcases hdelete with rfl | rfl <;> rfl
  have hread : (⟨index, [c], rest⟩ : Cursor).read validOptions =
      ((c, none), ⟨index + 1, [], rest⟩) := by
    rcases hdelete with rfl | rfl <;> rfl
  have hone : num = 1 := by
    rw [hread] at hdeletes
    rcases hdelete with rfl | rfl <;> exact (Option.some.inj hdeletes).symm
  rw [hdrop] at hrest
  rw [hread, hone]
  exact ⟨⟨by simp [effect], hrest⟩, Nat.le_refl _⟩

/-- With any other letter the switch returns. -/
theorem deletes_read_of_returns (hflag : ¬ (c = 's' ∨ c = 'd' ∨ c = 'f'))
    (hargument : ¬ (c = 'o' ∨ c = 'p')) (hdelete : ¬ (c = 'l' ∨ c = 'i')) :
    deletes (Cursor.read validOptions ⟨index, c :: letters, rest⟩).1 = none := by
  have hreturns : ∀ optarg, deletes (c, optarg) = none := by
    intro optarg
    unfold deletes
    split <;> simp_all
  rw [Cursor.read]
  dsimp only
  cases takesArgument validOptions c with
  | none => rfl
  | some takes =>
    cases takes with
    | no | optional => exact hreturns _
    | required =>
      dsimp only
      split_ifs
      · exact hreturns _
      · cases rest with
        | nil => rfl
        | cons argument rest => exact hreturns _

end Letters

/-- A letter deletes at most what it has been read from, if it is not followed by what it should not
be. -/
theorem leavesPrevious_read {cursor : Cursor} {num : ℕ} (hletters : cursor.letters ≠ [])
    (h : LeavesPrevious cursor)
    (hdeletes : deletes (cursor.read validOptions).1 = some num) :
    LeavesPrevious (cursor.read validOptions).2 ∧
      cursor.index + num ≤ (cursor.read validOptions).2.index := by
  obtain ⟨index, letters, rest⟩ := cursor
  obtain ⟨c, letters, rfl⟩ := List.exists_cons_of_ne_nil hletters
  by_cases hflag : c = 's' ∨ c = 'd' ∨ c = 'f'
  · exact leavesPrevious_flag hflag h hdeletes
  · by_cases hargument : c = 'o' ∨ c = 'p'
    · exact leavesPrevious_argument hargument h hdeletes
    · by_cases hdelete : c = 'l' ∨ c = 'i'
      · exact leavesPrevious_delete hdelete h hdeletes
      · rw [deletes_read_of_returns hflag hargument hdelete] at hdeletes
        exact absurd hdeletes (by simp)

theorem leavesPrevious_next {cursor after : Cursor} {given : Given} {num : ℕ}
    (h : LeavesPrevious cursor) (hnext : cursor.next validOptions = some (given, after))
    (hdeletes : deletes given = some num) :
    LeavesPrevious after ∧ cursor.index + num ≤ after.index := by
  obtain ⟨inner, hinner, hread⟩ := Option.map_eq_some_iff.mp hnext
  obtain rfl : (inner.read validOptions).1 = given := congrArg Prod.fst hread
  obtain rfl : (inner.read validOptions).2 = after := congrArg Prod.snd hread
  split_ifs at hinner with hletters
  · have hentered := leavesPrevious_enter hletters h hinner
    obtain ⟨hafter, hle⟩ := leavesPrevious_read (Cursor.letters_enter hinner) hentered hdeletes
    exact ⟨hafter, (Nat.add_le_add_right (Cursor.index_enter hinner) num).trans hle⟩
  · obtain rfl := Option.some.inj hinner
    exact leavesPrevious_read hletters h hdeletes

/-- If no element deletes the one before it, the program name is spared. -/
theorem sparesName_of_previous
    (h : ∀ element ∈ (readArgs args.tail).elements, effect element.tail ≠ .dropPrevious) :
    SparesName args := by
  have hstart : LeavesPrevious (.start args.tail) := ⟨by simp [effect, Cursor.start], h⟩
  exact Cursor.sparesFirst_of_next (fun _ _ _ _ ↦ leavesPrevious_next) _ hstart Nat.one_pos

theorem asksReadOnly_of_heeded (h : "ro".toList ∈ listsHeeded args) : AsksReadOnly args := by
  refine ⟨"ro".toList, ?_, by decide⟩
  rw [listsHeeded, mem_mountLists] at h
  exact mem_mountLists.mpr (Cursor.heeded_subset 0 _ h)

/-- An argument of `-o` is an argument of the process, or behind the letter in one. -/
theorem endsReadOnly_of_lettersRead (h : ('o', some "ro".toList) ∈ lettersRead args) :
    EndsReadOnly args := by
  have hstart : (Cursor.start args.tail).DrawnFrom args.tail := ⟨Or.inl rfl, fun _ ↦ id⟩
  exact hstart.argument h

/-- The loop gets `ro` just if the command line asks for it. -/
theorem lettersRead_iff_of_keeps (h : KeepsReadOnly args) :
    ('o', some "ro".toList) ∈ lettersRead args ↔ AsksReadOnly args := by
  rcases h with hlist | ⟨hasks, hspares⟩
  · have hheeded := mem_mountLists.mp hlist
    exact iff_of_true (heeded_subset_lettersRead args hheeded) (asksReadOnly_of_heeded hlist)
  · refine iff_of_false (fun hread ↦ ?_) hasks
    rcases hspares with hspares | hends
    · rw [← heeded_eq_lettersRead hspares] at hread
      exact hasks (asksReadOnly_of_heeded (mem_mountLists.mpr hread))
    · exact hends (endsReadOnly_of_lettersRead hread)

theorem readOnly_iff_writeMode (options : CmdlineOptions) :
    options.readOnly = true ↔ options.writeMode = false := by
  rw [CmdlineOptions.readOnly, Bool.not_eq_true']

/-- A request is honoured exactly under this condition, on every accepted command line whose options
do not delete the program name, in particular if no element deletes the one before it; on the others
the condition is enough. -/
theorem honoursReadOnly_iff (realpath : CStr → Option CStr) (fuel : ℕ) (args : List CStr)
    (last : ParseState) (hparse : parseArgs realpath fuel args = some (true, last)) :
    ((∀ element ∈ (readArgs args.tail).elements, effect element.tail ≠ .dropPrevious) →
        SparesName args) ∧
      (SparesName args → (HonoursReadOnly args last.options ↔
        "ro".toList ∈ listsHeeded args ∨ ¬ AsksReadOnly args)) ∧
      (KeepsReadOnly args → HonoursReadOnly args last.options) := by
  have hwrite := writeMode_iff hparse
  have hkeeps : KeepsReadOnly args → HonoursReadOnly args last.options := by
    intro h
    have hiff := hwrite.trans (lettersRead_iff_of_keeps h)
    exact ⟨hiff, (readOnly_iff_writeMode last.options).trans hiff⟩
  refine ⟨sparesName_of_previous, fun hspares ↦ ⟨fun h ↦ ?_, fun h ↦ ?_⟩, hkeeps⟩
  · by_cases hasks : AsksReadOnly args
    · have hread := hwrite.mp (h.writeMode.mpr hasks)
      rw [← heeded_eq_lettersRead hspares] at hread
      exact Or.inl (mem_mountLists.mpr hread)
    · exact Or.inr hasks
  · exact hkeeps (h.imp_right fun hasks ↦ ⟨hasks, Or.inl hspares⟩)

theorem honoursReadOnly_alone :
    HonoursReadOnly
      ["fuseadf".toList, "-o".toList, "noatime".toList, "-oro".toList, "img".toList, "mnt".toList]
      { CmdlineOptions.default with
        adfFilename := some "img".toList
        mountPoint := some "mnt".toList
        writeMode := false } :=
  have hiff := honoursReadOnly_iff some 3
    ["fuseadf".toList, "-o".toList, "noatime".toList, "-oro".toList, "img".toList, "mnt".toList] _
    (by rfl)
  (hiff.2.1 (hiff.1 (by decide))).mpr (by decide +kernel)

/-- `-o ro,noatime` opens the image for writing. -/
theorem not_honoursReadOnly_first :
    ¬ ∀ (realpath : CStr → Option CStr) (fuel : ℕ) (args : List CStr) (last : ParseState),
      parseArgs realpath fuel args = some (true, last) → HonoursReadOnly args last.options := by
  intro h
  have hread := h some 2
    ["fuseadf".toList, "-o".toList, "ro,noatime".toList, "img".toList, "mnt".toList] _ (by rfl)
  have hasks : AsksReadOnly
      ["fuseadf".toList, "-o".toList, "ro,noatime".toList, "img".toList, "mnt".toList] := by
    decide +kernel
  exact absurd (hread.writeMode.mpr hasks) (by decide)

/-- The attached number takes the program name with it, and the list behind it is passed over. -/
example : ¬ SparesName ["fuseadf".toList, "-p1".toList, "-oro".toList, "img".toList, "mnt".toList] ∧
    lettersRead ["fuseadf".toList, "-p1".toList, "-oro".toList, "img".toList, "mnt".toList] =
      [('p', some "1".toList)] := by
  decide +kernel

end Lines

end FuseAdf
