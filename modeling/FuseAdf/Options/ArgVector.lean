import FuseAdf.Library.GetoptBounds
import FuseAdf.Options.Documented
import FuseAdf.Options.Letters
import FuseAdf.Options.SingleThreaded

/-!
# The argument vector

`parse_args` computes from `optind` which elements of the vector it deletes, and `main` adds an
element at the end.  Whatever the options are, the three functions stay within the vector that the
program has been started with, and what they leave is again an argument vector.
-/

namespace FuseAdf

open Getopt WhileLoop

/-- A call of one of the three functions, with the `int` arguments that the caller computes. -/
inductive ArgvCall
  | dropArg (argc index : ℤ)
  | dropArgs (argc index num : ℤ)
  | addArg (argc : ℤ)
deriving DecidableEq, Repr

/-- The elements that a call reads or writes: what its loops write and read, and what it stores
besides. -/
def ArgvCall.Accesses : ArgvCall → ℤ → Prop
  | .dropArg argc index, i =>
      (index ≤ i ∧ i < argc - 1) ∨ (index + 1 ≤ i ∧ i < argc - 1 + 1) ∨ i = argc - 1
  | .dropArgs argc index num, i =>
      (index ≤ i ∧ i < argc - num) ∨ (index + num ≤ i ∧ i < argc - num + num) ∨
        (argc - num ≤ i ∧ i < argc)
  | .addArg argc, i => i = argc

/-- The call stays within the vector that the program has been started with. -/
def ArgvCall.Within (argc0 : ℕ) (call : ArgvCall) : Prop :=
  ∀ i, call.Accesses i → 0 ≤ i ∧ i ≤ argc0

/-- The call as the model makes it; `main` adds `-s` only. -/
def ArgvCall.apply (argv : Argv) : ArgvCall → ℕ × Argv
  | .dropArg argc index => FuseAdf.dropArg argc.toNat argv index.toNat
  | .dropArgs argc index num => FuseAdf.dropArgs argc.toNat argv index.toNat num.toNat
  | .addArg argc => FuseAdf.addArg argc.toNat argv "-s".toList

/-- The call in one case of the switch. -/
def optionCall (state : ParseState) (opt : Char) : Option ArgvCall :=
  let argc : ℤ := state.argc
  let optind : ℤ := state.getopt.optind
  match opt with
  | 'p' =>
      match state.getopt.optarg.bind strtoul with
      | none => none
      | some number =>
          if (number.setWidth 32).toNat > 10 then none else some (.dropArgs argc (optind - 2) 2)
  | 'l' =>
      match state.getopt.optarg with
      | some _ => some (.dropArgs argc (optind - 2) 2)
      | none => some (.dropArg argc (optind - 1))
  | 'i' | 'h' | 'V' => some (.dropArg argc (optind - 1))
  | _ => none

/-- The call after the loop. -/
def operandCall (state : ParseState) : Option ArgvCall :=
  if (state.getopt.optind : ℤ) ≠ state.argc - 2 then none
  else some (.dropArg state.argc (state.argc - 2))

/-- The call in one pass of `parse_args`. -/
def passCall (state : ParseState) : Option ArgvCall :=
  let (opt, argv, getopt) := getopt validOptions state.argc state.argv state.getopt
  let state := { state with argv := argv, getopt := getopt }
  match opt with
  | some opt => optionCall state opt
  | none => operandCall state

/-- The call in `main` after `parse_args`. -/
def mainCall (accepted : Bool) (state : ParseState) : Option ArgvCall :=
  if accepted && !state.options.help && !state.options.version &&
      !state.options.singleThreadedFuseModeSet then some (.addArg state.argc)
  else none

/-- The argument count and the vector behind a call, if there is one. -/
def afterCall (call : Option ArgvCall) (argc : ℕ) (argv : Argv) : ℕ × Argv :=
  (call.map (ArgvCall.apply argv)).getD (argc, argv)

/-- An argument vector in the space of the first one: strings, then NULL to the end. -/
structure IsArgVector (argc0 argc : ℕ) (argv : Argv) : Prop where
  length : argv.length = argc0 + 1
  argc_le : argc ≤ argc0
  strings : ∀ i < argc, argv.getD i none ≠ none
  nulls : ∀ i, argc ≤ i → i ≤ argc0 → argv.getD i none = none

/-- All calls stay within the vector and are what changes it, besides `getopt`; all returns leave an
argument vector. -/
structure KeepsArgv (realpath : CStr → Option CStr) (args : List CStr) : Prop where
  start : IsArgVector args.length (ParseState.start args).argc (ParseState.start args).argv
  passes : ∀ state, Reaches (parsePass realpath) (.start args) state →
    ∀ call ∈ passCall state, call.Within args.length
  changes : ∀ state, Reaches (parsePass realpath) (.start args) state →
    ((passState (parsePass realpath state)).argc, (passState (parsePass realpath state)).argv) =
      afterCall (passCall state) state.argc
        (getopt validOptions state.argc state.argv state.getopt).2.1
  returned : ∀ fuel accepted last, parseArgs realpath fuel args = some (accepted, last) →
    IsArgVector args.length last.argc last.argv ∧
      ∀ call ∈ mainCall accepted last, call.Within args.length
  launched : ∀ fuel argc argv options,
    launch realpath fuel args = some (.fuse argc argv options) → IsArgVector args.length argc argv ∧
      ∃ last, parseArgs realpath fuel args = some (true, last) ∧
        (argc, argv) = afterCall (mainCall true last) last.argc last.argv

section Calls

variable {realpath : CStr → Option CStr} (state : ParseState)

/-- The argument count and the vector are changed by these calls and nothing else. -/
theorem parseOption_call (c : Char) :
    ∃ options,
      (optionCall state c = none ∧
        passState (parseOption state c) = { state with options := options }) ∨
      (optionCall state c = some (.dropArg state.argc (state.getopt.optind - 1)) ∧
        passState (parseOption state c) = { state with options := options }.drop 1 1) ∨
      ((c = 'p' ∨ c = 'l') ∧
        optionCall state c = some (.dropArgs state.argc (state.getopt.optind - 2) 2) ∧
        passState (parseOption state c) = { state with options := options }.drop 2 2) := by
  unfold parseOption
  dsimp only
  split
  · cases hnumber : state.getopt.optarg.bind strtoul with
    | none =>
      refine ⟨_, Or.inl ⟨?_, rfl⟩⟩
      simp only [optionCall, hnumber]
    | some number =>
      by_cases hlarge : (number.setWidth 32).toNat > 10
      · refine ⟨{ state.options with adfVolume := number.setWidth 32 }, Or.inl ⟨?_, ?_⟩⟩
        · simp only [optionCall, hnumber, if_pos hlarge]
        · dsimp only
          rw [if_pos hlarge]
          rfl
      · refine ⟨{ state.options with adfVolume := number.setWidth 32 },
          Or.inr (Or.inr ⟨Or.inl rfl, ?_, ?_⟩)⟩
        · simp only [optionCall, hnumber, if_neg hlarge]
        · dsimp only
          rw [if_neg hlarge]
          rfl
  · cases hoptarg : state.getopt.optarg with
    | none =>
      refine ⟨_, Or.inr (Or.inl ⟨?_, rfl⟩)⟩
      simp only [optionCall, hoptarg]
    | some optarg =>
      refine ⟨_, Or.inr (Or.inr ⟨Or.inr rfl, ?_, rfl⟩)⟩
      simp only [optionCall, hoptarg]
  · exact ⟨_, Or.inr (Or.inl ⟨rfl, rfl⟩)⟩
  · exact ⟨_, Or.inl ⟨rfl, rfl⟩⟩
  · exact ⟨state.options, Or.inl ⟨rfl, rfl⟩⟩
  · exact ⟨state.options, Or.inl ⟨rfl, rfl⟩⟩
  · split_ifs
    · exact ⟨_, Or.inl ⟨rfl, rfl⟩⟩
    · exact ⟨state.options, Or.inl ⟨rfl, rfl⟩⟩
  · exact ⟨_, Or.inr (Or.inl ⟨rfl, rfl⟩)⟩
  · exact ⟨_, Or.inr (Or.inl ⟨rfl, rfl⟩)⟩
  · refine ⟨state.options, Or.inl ⟨?_, rfl⟩⟩
    unfold optionCall
    dsimp only
    split <;> first | rfl | contradiction

theorem apply_dropArg (argc optind : ℕ) (back : ℕ) (argv : Argv) :
    (ArgvCall.dropArg argc (optind - back)).apply argv = dropArg argc argv (optind - back) := by
  have hindex : ((optind : ℤ) - back).toNat = optind - back := by omega
  rw [ArgvCall.apply, hindex, Int.toNat_natCast]

theorem apply_dropArgs (argc optind back num : ℕ) (argv : Argv) :
    (ArgvCall.dropArgs argc (optind - back) num).apply argv =
      dropArgs argc argv (optind - back) num := by
  have hindex : ((optind : ℤ) - back).toNat = optind - back := by omega
  rw [ArgvCall.apply, hindex, Int.toNat_natCast, Int.toNat_natCast]

/-- The argument count and the vector after a pass are what its call makes of what `getopt` leaves. -/
theorem parsePass_call (realpath : CStr → Option CStr) :
    ((passState (parsePass realpath state)).argc, (passState (parsePass realpath state)).argv) =
      afterCall (passCall state) state.argc
        (getopt validOptions state.argc state.argv state.getopt).2.1 := by
  rw [parsePass, passCall, afterCall]
  generalize getopt validOptions state.argc state.argv state.getopt = call
  obtain ⟨opt, argv, d⟩ := call
  cases opt with
  | none =>
    dsimp only
    rw [parseOperands, operandCall]
    split_ifs with hoptind
    · rfl
    · exact (apply_dropArg state.argc state.argc 2 argv).symm
  | some opt =>
    obtain ⟨options, ⟨hcall, hpass⟩ | ⟨hcall, hpass⟩ | ⟨-, hcall, hpass⟩⟩ :=
      parseOption_call { state with argv := argv, getopt := d } opt
    · dsimp only at hcall hpass ⊢
      rw [hcall, hpass]
      rfl
    · dsimp only at hcall hpass ⊢
      rw [hcall, hpass]
      exact (apply_dropArg state.argc d.optind 1 argv).symm
    · dsimp only at hcall hpass ⊢
      rw [hcall, hpass]
      exact (apply_dropArgs state.argc d.optind 2 2 argv).symm

end Calls

/-! ## The invariant -/

/-- The strings of the vector and the NULLs behind them. -/
def FitsVector (argc0 argc : ℕ) (argv : Argv) : Prop :=
  ∃ args : List CStr, args.length = argc ∧ argc ≤ argc0 ∧ argv = vector args (argc0 + 1 - argc)

/-- Before a pass: the vector has its form, and unless it is empty the scanner is within it. -/
structure ParseState.Bounded (argc0 : ℕ) (state : ParseState) : Prop where
  vector : FitsVector argc0 state.argc state.argv
  scan : state.argc ≠ 0 → ScanBounds state.argc state.getopt

section Vector

variable {argc0 argc : ℕ} {argv : Argv}

theorem FitsVector.isArgVector (h : FitsVector argc0 argc argv) : IsArgVector argc0 argc argv := by
  obtain ⟨args, rfl, hle, rfl⟩ := h
  refine ⟨?_, hle, fun i hi ↦ ?_, fun i hlow hhigh ↦ ?_⟩
  · simp only [vector, List.length_append, List.length_map, List.length_replicate]
    omega
  · rw [vector, List.getD_eq_getElem?_getD, List.getElem?_append_left (by simpa using hi)]
    simp [hi]
  · rw [vector, List.getD_eq_getElem?_getD, List.getElem?_append_right (by simpa using hlow)]
    simp only [List.length_map, List.getElem?_replicate]
    split_ifs <;> rfl

/-- Deleting elements of the vector. -/
theorem FitsVector.dropArgs (h : FitsVector argc0 argc argv) {index num : ℕ}
    (hle : index + num ≤ argc) :
    FitsVector argc0 (dropArgs argc argv index num).1 (dropArgs argc argv index num).2 := by
  obtain ⟨args, rfl, hargc, rfl⟩ := h
  have hsplit : args = args.take index ++ (args.drop index).take num ++ args.drop (index + num) := by
    rw [List.append_assoc, ← List.drop_drop, List.take_append_drop, List.take_append_drop]
  have hindex : (args.take index).length = index := by
    rw [List.length_take]
    omega
  have hnum : ((args.drop index).take num).length = num := by
    rw [List.length_take, List.length_drop]
    omega
  have hdrop := dropArgs_vector (args.take index) ((args.drop index).take num)
    (args.drop (index + num)) (argc0 + 1 - args.length)
  rw [← hsplit, hindex, hnum] at hdrop
  rw [hdrop]
  have hlength : (args.take index ++ args.drop (index + num)).length = args.length - num := by
    rw [List.length_append, hindex, List.length_drop]
    omega
  refine ⟨_, rfl, by omega, ?_⟩
  dsimp only
  rw [hlength]
  congr 1
  omega

theorem FitsVector.addArg (h : FitsVector argc0 argc argv) (hroom : argc + 1 ≤ argc0) (arg : CStr) :
    FitsVector argc0 (addArg argc argv arg).1 (addArg argc argv arg).2 := by
  obtain ⟨args, rfl, -, rfl⟩ := h
  have hnulls : argc0 + 1 - args.length = argc0 - args.length + 1 := by omega
  rw [hnulls, addArg_vector]
  refine ⟨args ++ [arg], rfl, by simpa using hroom, ?_⟩
  dsimp only
  congr 1
  rw [List.length_append, List.length_singleton]
  omega

end Vector

section Pass

variable {argc0 : ℕ} {state : ParseState}

/-- Deleting up to the index keeps the scanner within the vector. -/
theorem ParseState.bounded_drop (state : ParseState)
    (hvector : FitsVector argc0 state.argc state.argv)
    (hscan : ScanBounds state.argc state.getopt) {num : ℕ} (hnum : num ≤ state.getopt.optind) :
    (state.drop num num).Bounded argc0 := by
  have hoptind := hscan.optind
  have hargc : (dropArgs state.argc state.argv (state.getopt.optind - num) num).1 =
      state.argc - num := rfl
  rw [state.drop_eq]
  refine ⟨hvector.dropArgs (by omega), fun _ ↦ ?_⟩
  dsimp only
  rw [hargc]
  refine ⟨?_, fun hnext ↦ ?_, hscan.nonopts⟩
  · dsimp only
    omega
  · have hinside := hscan.nextchar hnext
    dsimp only
    omega

/-- What `getopt` leaves before the switch or the end. -/
structure ParseState.Called (argc0 : ℕ) (state : ParseState) (opt : Option Char) : Prop where
  vector : FitsVector argc0 state.argc state.argv
  letter : ∀ c, opt = some c → LetterBounds validOptions state.argc c state.getopt

theorem ParseState.Bounded.called (h : state.Bounded argc0) {opt : Option Char} {argv : Argv}
    {d : GetoptData}
    (hgetopt : Getopt.getopt validOptions state.argc state.argv state.getopt = (opt, argv, d)) :
    ({ state with argv := argv, getopt := d } : ParseState).Called argc0 opt := by
  obtain ⟨args, hargs, hle, hargv⟩ := h.vector
  by_cases hempty : state.argc = 0
  · rw [Getopt.getopt, if_pos (by omega), Prod.mk.injEq, Prod.mk.injEq] at hgetopt
    obtain ⟨rfl, rfl, rfl⟩ := hgetopt
    exact ⟨h.vector, fun c hc ↦ absurd hc (by simp)⟩
  · have hcalled := getopt_called validOptions args (argc0 + 1 - state.argc)
      (by rw [hargs]; exact h.scan hempty)
    rw [← hargv, hargs, hgetopt] at hcalled
    obtain ⟨args', hperm, hargv'⟩ := hcalled.argv
    refine ⟨⟨args', hperm.length_eq.trans hargs, hle, hargv'⟩, fun c hc ↦ ?_⟩
    have hletter := hcalled.option c hc
    rwa [hargs] at hletter

/-- An option that drops two elements has taken an argument. -/
theorem two_le_of_letterBounds {c : Char} {argc : ℕ} {d : GetoptData} (hc : c = 'p' ∨ c = 'l')
    (h : LetterBounds validOptions argc c d) : 2 ≤ d.optind := by
  rcases hc with rfl | rfl
  · exact h.two_le (by decide) (Or.inl (by decide))
  · exact h.two_le (by decide) (Or.inr (by decide))

/-- The switch keeps the invariant, whether or not it goes on, and its call is within bounds. -/
theorem ParseState.Called.option {c : Char} (h : state.Called argc0 (some c)) :
    (passState (parseOption state c)).Bounded argc0 ∧
      ∀ call ∈ optionCall state c, call.Within argc0 := by
  have hletter := h.letter c rfl
  have hone := hletter.one_le
  have hoptind := hletter.bounds.optind
  have hargc : state.argc ≤ argc0 := h.vector.isArgVector.argc_le
  obtain ⟨options, ⟨hcall, hpass⟩ | ⟨hcall, hpass⟩ | ⟨hc, hcall, hpass⟩⟩ := parseOption_call state c
  · rw [hcall, hpass]
    exact ⟨⟨h.vector, fun _ ↦ hletter.bounds⟩, fun call hmem ↦ absurd hmem (by simp)⟩
  · rw [hcall, hpass]
    refine ⟨bounded_drop { state with options := options } h.vector hletter.bounds hone, ?_⟩
    rintro call hmem i hi
    obtain rfl := Option.some.inj hmem
    simp only [ArgvCall.Accesses] at hi
    omega
  · have htwo := two_le_of_letterBounds hc hletter
    rw [hcall, hpass]
    refine ⟨bounded_drop { state with options := options } h.vector hletter.bounds htwo, ?_⟩
    rintro call hmem i hi
    obtain rfl := Option.some.inj hmem
    simp only [ArgvCall.Accesses] at hi
    omega

/-- So does what follows the loop; it deletes an element when it accepts. -/
theorem ParseState.Called.operands (h : state.Called argc0 none)
    (realpath : CStr → Option CStr) :
    FitsVector argc0 (parseOperands realpath state).2.argc (parseOperands realpath state).2.argv ∧
      ((parseOperands realpath state).1 = true →
        (parseOperands realpath state).2.argc + 1 ≤ argc0) ∧
      ∀ call ∈ operandCall state, call.Within argc0 := by
  have hargc : state.argc ≤ argc0 := h.vector.isArgVector.argc_le
  rw [parseOperands, operandCall]
  split_ifs with hoptind
  · exact ⟨h.vector, fun haccepted ↦ absurd haccepted (by simp),
      fun call hmem ↦ absurd hmem (by simp)⟩
  · refine ⟨FitsVector.dropArgs h.vector (by omega : state.argc - 2 + 1 ≤ state.argc), fun _ ↦ ?_, ?_⟩
    · change state.argc - 1 + 1 ≤ argc0
      omega
    · rintro call hmem i hi
      obtain rfl := Option.some.inj hmem
      simp only [ArgvCall.Accesses] at hi
      omega

end Pass

/-! ## Whole runs -/

section Runs

variable {argc0 : ℕ} {state : ParseState}

/-- A pass is a call of `getopt` and then the switch or what follows the loop. -/
theorem ParseState.Bounded.cases (h : state.Bounded argc0) (realpath : CStr → Option CStr) :
    (∃ c inner, ParseState.Called argc0 inner (some c) ∧
      parsePass realpath state = parseOption inner c ∧ passCall state = optionCall inner c) ∨
    ∃ inner, ParseState.Called argc0 inner none ∧
      parsePass realpath state = .inr (parseOperands realpath inner) ∧
      passCall state = operandCall inner := by
  obtain ⟨⟨opt, argv, d⟩, hgetopt⟩ :
      ∃ call, Getopt.getopt validOptions state.argc state.argv state.getopt = call := ⟨_, rfl⟩
  have hcalled := h.called hgetopt
  rw [parsePass, passCall, hgetopt]
  cases opt with
  | none => exact Or.inr ⟨_, hcalled, rfl, rfl⟩
  | some c => exact Or.inl ⟨c, _, hcalled, rfl, rfl⟩

theorem ParseState.Bounded.call_within (h : state.Bounded argc0) :
    ∀ call ∈ passCall state, call.Within argc0 := by
  rcases h.cases fun _ ↦ none with ⟨c, inner, hcalled, -, hcall⟩ | ⟨inner, hcalled, -, hcall⟩
  · rw [hcall]
    exact hcalled.option.2
  · rw [hcall]
    exact (hcalled.operands fun _ ↦ none).2.2

theorem ParseState.Bounded.next (h : state.Bounded argc0) {realpath : CStr → Option CStr}
    {next : ParseState} (hpass : parsePass realpath state = .inl next) : next.Bounded argc0 := by
  rcases h.cases realpath with ⟨c, inner, hcalled, hoption, -⟩ | ⟨inner, -, hoperands, -⟩
  · have hbounded := hcalled.option.1
    rw [← hoption, hpass] at hbounded
    exact hbounded
  · exact absurd (hpass.symm.trans hoperands) (by simp)

/-- A letter that ends the loop with success asks for the help or the version. -/
theorem help_or_version_of_option {c : Char} {last : ParseState}
    (h : parseOption state c = .inr (true, last)) :
    last.options.help = true ∨ last.options.version = true := by
  rcases parseOption_take state c with ⟨options, num, -, -, -, hoption⟩ |
    ⟨accepted, after, hoption, htake⟩
  · exact absurd (hoption.symm.trans h) (by simp)
  · obtain ⟨rfl, rfl⟩ := Prod.mk.inj (Sum.inr.inj (hoption.symm.trans h))
    exact help_or_version_of_take htake

theorem ParseState.Bounded.last (h : state.Bounded argc0) {realpath : CStr → Option CStr}
    {accepted : Bool} {last : ParseState}
    (hpass : parsePass realpath state = .inr (accepted, last)) :
    FitsVector argc0 last.argc last.argv ∧
      (accepted = true → last.options.help = false → last.options.version = false →
        last.argc + 1 ≤ argc0) := by
  rcases h.cases realpath with ⟨c, inner, hcalled, hoption, -⟩ | ⟨inner, hcalled, hoperands, -⟩
  · have hbounded := hcalled.option.1
    rw [← hoption, hpass] at hbounded
    refine ⟨hbounded.vector, ?_⟩
    rintro rfl hhelp hversion
    rcases help_or_version_of_option (hoption.symm.trans hpass) with hset | hset
    · exact absurd (hset.symm.trans hhelp) (by simp)
    · exact absurd (hset.symm.trans hversion) (by simp)
  · obtain ⟨hvector, hroom, -⟩ := hcalled.operands realpath
    rw [Sum.inr.inj (hoperands.symm.trans hpass)] at hvector hroom
    exact ⟨hvector, fun haccepted _ _ ↦ hroom haccepted⟩

end Runs

theorem bounded_start (args : List CStr) : (ParseState.start args).Bounded args.length := by
  refine ⟨⟨args, rfl, le_refl _, ?_⟩, fun hne ↦ ?_⟩
  · have hnulls : args.length + 1 - args.length = 1 := by omega
    change vector args 1 = vector args (args.length + 1 - args.length)
    rw [hnulls]
  · exact ⟨Nat.one_le_iff_ne_zero.mpr hne, fun h ↦ absurd rfl h, le_refl _⟩

/-- For every command line. -/
theorem keepsArgv (realpath : CStr → Option CStr) (args : List CStr) : KeepsArgv realpath args := by
  have hstart := bounded_start args
  have hreached : ∀ state, Reaches (parsePass realpath) (.start args) state →
      state.Bounded args.length := fun state hreaches ↦
    hreaches.invariant (ParseState.Bounded args.length)
      (fun _ _ hpass hbounded ↦ hbounded.next hpass) hstart
  have hended : ∀ accepted last, Ends (parsePass realpath) (.start args) (accepted, last) →
      FitsVector args.length last.argc last.argv ∧
        (accepted = true → last.options.help = false → last.options.version = false →
          last.argc + 1 ≤ args.length) := by
    intro accepted last hends
    obtain ⟨state, hreaches, hpass⟩ := hends.exists_last
    exact (hreached state hreaches).last hpass
  refine ⟨hstart.vector.isArgVector, fun state hreaches ↦ (hreached state hreaches).call_within,
    fun state _ ↦ parsePass_call state realpath, fun fuel accepted last hparse ↦ ?_,
    fun fuel argc argv options hlaunch ↦ ?_⟩
  · obtain ⟨hvector, hroom⟩ := hended accepted last (ends_of_run hparse)
    refine ⟨hvector.isArgVector, fun call hcall i hi ↦ ?_⟩
    rw [mainCall] at hcall
    split_ifs at hcall with hadd
    · obtain rfl := Option.some.inj hcall
      obtain rfl : i = last.argc := hi
      simp only [Bool.and_eq_true, Bool.not_eq_true'] at hadd
      have hlast := hroom hadd.1.1.1 hadd.1.1.2 hadd.1.2
      omega
    · exact absurd hcall (by simp)
  · obtain ⟨last, hparse, rfl, hhelp, hversion, hadded⟩ := parsed_of_launch hlaunch
    obtain ⟨hvector, hroom⟩ := hended true last (ends_of_run hparse)
    have hresult : FitsVector args.length argc argv := by
      split_ifs at hadded
      · obtain ⟨rfl, rfl⟩ := Prod.mk.inj hadded
        exact hvector
      · obtain ⟨rfl, rfl⟩ := Prod.mk.inj hadded
        exact hvector.addArg (hroom rfl hhelp hversion) _
    refine ⟨hresult.isArgVector, last, hparse, ?_⟩
    rw [hadded, afterCall, mainCall, hhelp, hversion]
    cases last.options.singleThreadedFuseModeSet <;> rfl

end FuseAdf
