import FuseAdf.Library.GetoptCursor
import FuseAdf.Options.Reading

/-!
# The letters that parse_args gets

The loop edits the vector that it is scanning, and what it deletes moves the scanner.  For the options
only the letters count that a reader of the command line gets who deletes as the loop does: the loop
returns after at most one pass for each character, and the options are what the switch makes of these
letters one after another.
-/

namespace FuseAdf

open Getopt WhileLoop

/-- How many elements the switch deletes for an option, or `none` where it returns. -/
def deletes : Given → Option ℕ
  | ('p', _) => some 2
  | ('l', some _) => some 2
  | ('l', none) => some 1
  | ('i', _) => some 1
  | ('s', _) | ('d', _) | ('f', _) | ('o', _) => some 0
  | _ => none

/-- The letters that the loop gets. -/
def lettersRead (args : List CStr) : List Given :=
  Cursor.options validOptions deletes (.start args.tail)

/-- The options after a letter with its argument, or what `parse_args` returns and leaves. -/
def CmdlineOptions.take (options : CmdlineOptions) :
    Given → CmdlineOptions ⊕ (Bool × CmdlineOptions)
  | ('p', optarg) =>
      match optarg.bind strtoul with
      | none => .inr (false, { options with adfVolume := 0 })
      | some number =>
          let options := { options with adfVolume := number.setWidth 32 }
          if options.adfVolume.toNat > 10 then .inr (false, options) else .inl options
  | ('l', optarg) => .inl { options with loggingFile := some (optarg.getD "fuseadf.log".toList) }
  | ('i', _) => .inl { options with ignoreChecksumErrors := true }
  | ('s', _) => .inl { options with singleThreadedFuseModeSet := true }
  | ('d', _) | ('f', _) => .inl options
  | ('o', optarg) =>
      .inl (if optarg = some "ro".toList then { options with writeMode := false } else options)
  | ('h', _) => .inr (true, { options with help := true })
  | ('V', _) => .inr (true, { options with version := true })
  | _ => .inr (false, options)

/-- The letters one after another, up to the first with which `parse_args` returns. -/
def CmdlineOptions.takeAll (options : CmdlineOptions) :
    List Given → CmdlineOptions ⊕ (Bool × CmdlineOptions)
  | [] => .inl options
  | given :: rest =>
      match options.take given with
      | .inl next => next.takeAll rest
      | .inr result => .inr result

/-- What the letters leave open is whether there are two operands, and which. -/
def Decides (outcome : CmdlineOptions ⊕ (Bool × CmdlineOptions)) (accepted : Bool)
    (options : CmdlineOptions) : Prop :=
  match outcome with
  | .inl read => options = if accepted then
      { read with adfFilename := options.adfFilename, mountPoint := options.mountPoint } else read
  | .inr result => (accepted, options) = result

/-- One pass for each character, and the last. -/
def passes (args : List CStr) : ℕ := args.tail.flatten.length + 1

/-- The next pass reads on at this cursor. -/
def ParseState.ReadsAt (state : ParseState) (cursor : Cursor) : Prop :=
  ∃ nulls, cursor.At nulls state.argc state.argv state.getopt

section Pass

variable (realpath : CStr → Option CStr) {state : ParseState} {cursor after : Cursor}
  {given : Given}

theorem take_partition (options : CmdlineOptions) (optarg : Option (List Char)) :
    options.take ('p', optarg) = match optarg.bind strtoul with
      | none => .inr (false, { options with adfVolume := 0 })
      | some number =>
          let options := { options with adfVolume := number.setWidth 32 }
          if options.adfVolume.toNat > 10 then .inr (false, options) else .inl options := rfl

/-- The switch, and the elements that it deletes. -/
theorem parseOption_take (state : ParseState) (c : Char) :
    (∃ options num, state.options.take (c, state.getopt.optarg) = .inl options ∧
      deletes (c, state.getopt.optarg) = some num ∧
      (num ≤ 1 ∨ state.getopt.optarg.isSome ∧ num = 2) ∧
      parseOption state c = .inl (if num = 0 then { state with options := options }
        else { state with options := options }.drop num num)) ∨
    ∃ accepted last, parseOption state c = .inr (accepted, last) ∧
      state.options.take (c, state.getopt.optarg) = .inr (accepted, last.options) := by
  unfold parseOption
  dsimp only
  split
  · rw [take_partition]
    cases hnumber : state.getopt.optarg.bind strtoul with
    | none => exact Or.inr ⟨_, _, rfl, rfl⟩
    | some number =>
      dsimp only
      by_cases hlarge : (number.setWidth 32).toNat > 10
      · rw [if_pos hlarge, if_pos hlarge]
        exact Or.inr ⟨_, _, rfl, rfl⟩
      · have hsome : state.getopt.optarg.isSome := by
          cases hoptarg : state.getopt.optarg with
          | none => simp [hoptarg] at hnumber
          | some text => rfl
        rw [if_neg hlarge, if_neg hlarge]
        exact Or.inl ⟨_, 2, rfl, rfl, Or.inr ⟨hsome, rfl⟩, rfl⟩
  · cases state.getopt.optarg with
    | none => exact Or.inl ⟨_, 1, rfl, rfl, Or.inl (Nat.le_refl _), rfl⟩
    | some optarg => exact Or.inl ⟨_, 2, rfl, rfl, Or.inr ⟨rfl, rfl⟩, rfl⟩
  · exact Or.inl ⟨_, 1, rfl, rfl, Or.inl (Nat.le_refl _), rfl⟩
  · exact Or.inl ⟨_, 0, rfl, rfl, Or.inl (Nat.zero_le _), rfl⟩
  · exact Or.inl ⟨_, 0, rfl, rfl, Or.inl (Nat.zero_le _), rfl⟩
  · exact Or.inl ⟨_, 0, rfl, rfl, Or.inl (Nat.zero_le _), rfl⟩
  · refine Or.inl ⟨_, 0, rfl, rfl, Or.inl (Nat.zero_le _), ?_⟩
    rw [if_pos rfl]
    split_ifs <;> rfl
  · exact Or.inr ⟨_, _, rfl, rfl⟩
  · exact Or.inr ⟨_, _, rfl, rfl⟩
  · refine Or.inr ⟨_, _, rfl, ?_⟩
    unfold CmdlineOptions.take
    split <;> simp_all

/-- Deleting the last elements before the index. -/
theorem ParseState.readsAt_drop {nulls num : ℕ}
    (h : cursor.Standing nulls state.argc state.argv state.getopt) (hnum : num ≤ cursor.index) :
    (state.drop num num).ReadsAt (cursor.delete num) := by
  obtain ⟨front, segment, rest, rfl, hargc, hargv, hoptind, hat⟩ := h.at_delete hnum
  refine ⟨nulls + segment.length, ?_⟩
  rw [state.drop_vector hargc hargv hoptind]
  exact hat (nulls + segment.length)

/-- A pass without another option. -/
theorem ParseState.ReadsAt.parsePass_none (h : state.ReadsAt cursor)
    (hnext : cursor.next validOptions = none) :
    ∃ inner : ParseState, inner.options = state.options ∧ inner.argc = state.argc ∧
      parsePass realpath state = .inr (parseOperands realpath inner) := by
  obtain ⟨nulls, hat⟩ := h
  have hnone := hat.getopt_none hnext
  obtain ⟨⟨opt, argv, d⟩, hgetopt⟩ :
      ∃ call, Getopt.getopt validOptions state.argc state.argv state.getopt = call := ⟨_, rfl⟩
  rw [hgetopt] at hnone
  obtain rfl : opt = none := hnone
  refine ⟨{ state with argv := argv, getopt := d }, rfl, rfl, ?_⟩
  rw [parsePass, hgetopt]

/-- A pass with an option: the loop goes on at the next place, or returns. -/
theorem ParseState.ReadsAt.parsePass_take (h : state.ReadsAt cursor)
    (hnext : cursor.next validOptions = some (given, after)) :
    (∃ next num, state.options.take given = .inl next.options ∧ deletes given = some num ∧
      parsePass realpath state = .inl next ∧ next.argc + num = state.argc ∧
      next.ReadsAt (after.delete num)) ∨
    ∃ accepted last, parsePass realpath state = .inr (accepted, last) ∧
      state.options.take given = .inr (accepted, last.options) := by
  obtain ⟨nulls, hat⟩ := h
  obtain ⟨argv, d, hgetopt, hoptarg, hafter⟩ := hat.getopt_some hnext
  have hpass : parsePass realpath state = _ := parsePass_of_getopt hgetopt
  rcases parseOption_take { state with argv := argv, getopt := d } given.1 with
    ⟨options, num, htake, hdeletes, hnum, hoption⟩ | ⟨accepted, last, hoption, htake⟩
  · rw [hoptarg] at htake hdeletes hnum
    have hindex : num ≤ after.index := by
      rcases hnum with hone | ⟨hsome, htwo⟩
      · have hpos := hafter.pos
        omega
      · obtain ⟨arg, harg⟩ := Option.isSome_iff_exists.mp hsome
        have hpos := hat.pos hnext
        have hbehind := Cursor.index_next hnext harg
        omega
    have hargc := hafter.index_le
    refine Or.inl ⟨_, num, ?_, hdeletes, hpass.trans hoption, ?_, ?_⟩
    · rw [htake]
      split_ifs <;> rfl
    · split_ifs with hzero
      · rw [hzero]
        rfl
      · rw [ParseState.drop_eq]
        change state.argc - num + num = state.argc
        omega
    · by_cases hzero : num = 0
      · rw [if_pos hzero, hzero, Cursor.delete_zero hafter.pos]
        exact ⟨nulls, hafter.at⟩
      · rw [if_neg hzero]
        have hafter' : after.Standing nulls ({ state with
            argv := argv, getopt := d, options := options } : ParseState).argc argv d := hafter
        exact ParseState.readsAt_drop hafter' hindex
  · rw [hoptarg] at htake
    exact Or.inr ⟨accepted, last, hpass.trans hoption, htake⟩

/-- After the loop only the two operands are set. -/
theorem decides_parseOperands (state : ParseState) :
    Decides (.inl state.options) (parseOperands realpath state).1
      (parseOperands realpath state).2.options := by
  rw [parseOperands]
  split_ifs <;> rfl

end Pass

/-! ## The whole loop -/

/-- Every pass takes at least one character, whatever it deletes. -/
theorem run_of_readsAt {realpath : CStr → Option CStr} {fuel : ℕ} {state : ParseState}
    {cursor : Cursor} (hat : state.ReadsAt cursor) (hfuel : cursor.size < fuel) :
    ∃ accepted last, run (parsePass realpath) fuel state = some (accepted, last) ∧
      Decides (state.options.takeAll (cursor.options validOptions deletes)) accepted
        last.options := by
  induction fuel generalizing state cursor with
  | zero => exact absurd hfuel (Nat.not_lt_zero _)
  | succ fuel ih =>
    cases hnext : cursor.next validOptions with
    | none =>
      obtain ⟨inner, hoptions, -, hpass⟩ := hat.parsePass_none realpath hnext
      refine ⟨(parseOperands realpath inner).1, (parseOperands realpath inner).2, ?_, ?_⟩
      · rw [run, hpass]
      · rw [Cursor.options_of_none hnext, ← hoptions]
        exact decides_parseOperands realpath inner
    | some option =>
      obtain ⟨given, after⟩ := option
      rw [Cursor.options_of_some hnext, CmdlineOptions.takeAll]
      rcases hat.parsePass_take realpath hnext with
        ⟨next, num, htake, hdeletes, hpass, -, hreads⟩ | ⟨accepted, last, hpass, htake⟩
      · have hsize := Cursor.size_next hnext
        have hdelete := Cursor.size_delete num after
        obtain ⟨accepted, last, hrun, hdecides⟩ := ih hreads (by omega)
        rw [run, hpass, htake, hdeletes]
        exact ⟨accepted, last, hrun, hdecides⟩
      · rw [run, hpass, htake]
        exact ⟨accepted, last, rfl, rfl⟩

theorem readsAt_start (args : List CStr) : (ParseState.start args).ReadsAt (.start args.tail) := by
  cases args with
  | nil => exact ⟨0, Or.inl ⟨rfl, rfl, rfl⟩⟩
  | cons name args => exact ⟨1, Cursor.at_start name args 1 (Or.inr ⟨rfl, rfl⟩)⟩

theorem size_start (args : List (List Char)) : (Cursor.start args).size = args.flatten.length :=
  Nat.zero_add _

/-- Every command line is read to an end, and what comes of it is decided by the letters. -/
theorem parseArgs_decided (realpath : CStr → Option CStr) (args : List CStr) :
    ∃ accepted last, parseArgs realpath (passes args) args = some (accepted, last) ∧
      Decides (CmdlineOptions.default.takeAll (lettersRead args)) accepted last.options := by
  apply run_of_readsAt (readsAt_start args)
  rw [size_start]
  exact Nat.lt_succ_self _

/-- A letter with which `parse_args` returns true asks for the help or the version. -/
theorem help_or_version_of_take {options result : CmdlineOptions} {given : Given}
    (h : options.take given = .inr (true, result)) : result.help = true ∨ result.version = true := by
  rw [CmdlineOptions.take.eq_def] at h
  split at h
  · split at h
    · simp at h
    · dsimp only at h
      split_ifs at h
      simp at h
  · cases h
  · cases h
  · cases h
  · cases h
  · cases h
  · cases h
  · obtain rfl := (Prod.mk.inj (Sum.inr.inj h)).2
    exact Or.inl rfl
  · obtain rfl := (Prod.mk.inj (Sum.inr.inj h)).2
    exact Or.inr rfl
  · simp at h

theorem help_or_version_of_takeAll {options result : CmdlineOptions} {letters : List Given}
    (h : options.takeAll letters = .inr (true, result)) :
    result.help = true ∨ result.version = true := by
  induction letters generalizing options with
  | nil => cases h
  | cons given rest ih =>
    rw [CmdlineOptions.takeAll] at h
    cases htake : options.take given with
    | inl next =>
      rw [htake] at h
      exact ih h
    | inr stopped =>
      rw [htake] at h
      obtain rfl := Sum.inr.inj h
      exact help_or_version_of_take htake

end FuseAdf
