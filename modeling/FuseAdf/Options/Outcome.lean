import FuseAdf.Options.ArgVector
import FuseAdf.Options.Letters

/-!
# Where the arguments go

The scanner reorders the vector and the loop deletes elements of it.  Nothing is lost from view: the
strings that are left in the vector and those that the calls have taken out of it are the arguments of
the process, and how many are taken out is decided by the letters that the loop gets.
-/

namespace FuseAdf

open Getopt WhileLoop

/-- The strings that a call takes out of the vector. -/
def ArgvCall.removes (argv : Argv) : ArgvCall → List CStr
  | .dropArg _ index => ((argv.drop index.toNat).take 1).reduceOption
  | .dropArgs _ index num => ((argv.drop index.toNat).take num.toNat).reduceOption
  | .addArg _ => []

/-- The strings that the call of one pass takes out. -/
def passRemoves (state : ParseState) : List CStr :=
  let argv := (getopt validOptions state.argc state.argv state.getopt).2.1
  ((passCall state).map (ArgvCall.removes argv)).getD []

/-- The strings that the calls of `parse_args` take out of the vector, pass by pass. -/
def removed (realpath : CStr → Option CStr) : ℕ → ParseState → List CStr
  | 0, _ => []
  | fuel + 1, state =>
      passRemoves state ++
        match parsePass realpath state with
        | .inl next => removed realpath fuel next
        | .inr _ => []

/-- How many elements the switch deletes for these letters. -/
def deletions : List Given → ℕ
  | [] => 0
  | given :: rest => (deletes given).getD 0 + deletions rest

/-- The strings of the vector, and those that were taken out of it, in any order. -/
def Holds (args : List CStr) (argc : ℕ) (argv : Argv) (kept deleted : List CStr) : Prop :=
  (kept ++ deleted).Perm args ∧ kept.length = argc ∧ argv = vector kept (args.length + 1 - argc)

/-- Between two passes. -/
structure ParseState.Conserves (args deleted : List CStr) (state : ParseState) : Prop where
  holds : ∃ kept, Holds args state.argc state.argv kept deleted
  scan : state.argc ≠ 0 → ScanBounds state.argc state.getopt

/-- The image is taken out last, and the mount point is the last string of the vector. -/
def TakesOperands (realpath : CStr → Option CStr) (args deleted : List CStr) (last : ParseState) :
    Prop :=
  ∃ front mount image before, deleted = before ++ [image] ∧
    Holds args last.argc last.argv (front ++ [mount]) deleted ∧
      last.options.adfFilename = some image ∧ last.options.mountPoint = realpath mount

section Calls

variable {args kept deleted : List CStr} {argc : ℕ} {argv : Argv}

/-- A reordering of the vector. -/
theorem Holds.perm {kept' : List CStr} {nulls : ℕ} (h : Holds args argc (vector kept nulls) kept deleted)
    (hperm : kept'.Perm kept) : Holds args argc (vector kept' nulls) kept' deleted := by
  obtain ⟨hargs, hlength, hvector⟩ := h
  have hnulls : nulls = args.length + 1 - argc := by
    have hlengths := congrArg List.length hvector
    simp only [vector, List.length_append, List.length_map, List.length_replicate] at hlengths
    omega
  exact ⟨(hperm.append_right deleted).trans hargs, hperm.length_eq.trans hlength, by rw [hnulls]⟩

/-- What is taken out of the vector is added to what was taken out before. -/
theorem Holds.dropArgs {front segment rest : List CStr}
    (h : Holds args argc argv (front ++ segment ++ rest) deleted) :
    Holds args (dropArgs argc argv front.length segment.length).1
      (dropArgs argc argv front.length segment.length).2 (front ++ rest) (deleted ++ segment) := by
  obtain ⟨hperm, rfl, rfl⟩ := h
  have hle := hperm.length_eq
  rw [dropArgs_vector]
  refine ⟨?_, rfl, ?_⟩
  · have hmove : (front ++ rest ++ (deleted ++ segment)).Perm
        (front ++ segment ++ rest ++ deleted) := by
      rw [List.append_assoc, List.append_assoc, List.append_assoc, ← List.append_assoc rest]
      exact List.perm_append_comm.append_left front
    exact hmove.trans hperm
  · dsimp only
    congr 1
    simp only [List.length_append] at hle ⊢
    omega

/-- Elements of the vector, read before they are deleted. -/
theorem reduceOption_vector (front segment rest : List CStr) (nulls : ℕ) :
    (((vector (front ++ segment ++ rest) nulls).drop front.length).take
      segment.length).reduceOption = segment := by
  have hvector : vector (front ++ segment ++ rest) nulls =
      front.map some ++ (segment.map some ++ (rest.map some ++ List.replicate nulls none)) := by
    simp [vector]
  have hfront : front.length = (front.map some).length := (List.length_map some).symm
  have hsegment : segment.length = (segment.map some).length := (List.length_map some).symm
  rw [hvector, hfront, List.drop_left, hsegment, List.take_left]
  change (segment.map some).filterMap id = segment
  rw [List.filterMap_map]
  exact List.filterMap_some

/-- The elements before the index are there to be deleted. -/
theorem ParseState.conserves_drop (state : ParseState)
    (hholds : ∃ kept, Holds args state.argc state.argv kept deleted)
    (hscan : ScanBounds state.argc state.getopt) {num : ℕ} (hnum : num ≤ state.getopt.optind) :
    (state.drop num num).Conserves args
      (deleted ++ ((state.argv.drop (state.getopt.optind - num)).take num).reduceOption) := by
  obtain ⟨kept, hholds⟩ := hholds
  have hoptind := hscan.optind
  have hlength := hholds.2.1
  obtain ⟨front, segment, rest, rfl, hfront, hsegment⟩ : ∃ front segment rest,
      kept = front ++ segment ++ rest ∧ front.length = state.getopt.optind - num ∧
        segment.length = num := by
    refine ⟨kept.take (state.getopt.optind - num), (kept.drop (state.getopt.optind - num)).take num,
      kept.drop state.getopt.optind, ?_, ?_, ?_⟩
    · have hdrop : kept.drop state.getopt.optind =
          (kept.drop (state.getopt.optind - num)).drop num := by
        rw [List.drop_drop, Nat.sub_add_cancel hnum]
      rw [hdrop, List.append_assoc, List.take_append_drop, List.take_append_drop]
    · rw [List.length_take]
      omega
    · rw [List.length_take, List.length_drop]
      omega
  have hdropped := hholds.dropArgs
  have hremoved := reduceOption_vector front segment rest (args.length + 1 - state.argc)
  rw [← hholds.2.2] at hremoved
  rw [hfront, hsegment] at hdropped hremoved
  have hargc : (FuseAdf.dropArgs state.argc state.argv (state.getopt.optind - num) num).1 =
      state.argc - num := rfl
  rw [state.drop_eq, hremoved]
  refine ⟨⟨_, hdropped⟩, fun _ ↦ ?_⟩
  dsimp only
  rw [hargc]
  refine ⟨?_, fun hnext ↦ ?_, hscan.nonopts⟩
  · dsimp only
    omega
  · have hinside := hscan.nextchar hnext
    dsimp only
    omega

end Calls

/-! ## The whole loop -/

section Conservation

variable {realpath : CStr → Option CStr} {args deleted : List CStr} {argc : ℕ} {argv : Argv}
  {state last : ParseState}

/-- The scanner only changes the order. -/
theorem ParseState.Conserves.getopt (h : state.Conserves args deleted) {opt : Option Char}
    {argv : Argv} {d : GetoptData}
    (hgetopt : Getopt.getopt validOptions state.argc state.argv state.getopt = (opt, argv, d)) :
    (∃ kept, Holds args state.argc argv kept deleted) ∧
      ∀ c, opt = some c → LetterBounds validOptions state.argc c d := by
  obtain ⟨kept, hholds⟩ := h.holds
  have hholds' := hholds
  obtain ⟨-, hlength, hvector⟩ := hholds
  by_cases hempty : state.argc = 0
  · rw [Getopt.getopt, if_pos (by omega), Prod.mk.injEq, Prod.mk.injEq] at hgetopt
    obtain ⟨rfl, rfl, rfl⟩ := hgetopt
    exact ⟨⟨kept, hholds'⟩, fun c hc ↦ absurd hc (by simp)⟩
  · have hcalled := getopt_called validOptions kept (args.length + 1 - state.argc)
      (by rw [hlength]; exact h.scan hempty)
    rw [hlength, ← hvector, hgetopt] at hcalled
    obtain ⟨kept', hperm, hargv⟩ := hcalled.argv
    obtain rfl : argv = _ := hargv
    refine ⟨⟨kept', ?_⟩, fun c hc ↦ ?_⟩
    · rw [hvector] at hholds'
      exact hholds'.perm hperm
    · have hletter := hcalled.option c hc
      rwa [hlength] at hletter

theorem ParseState.conserves_option {c : Char} (state : ParseState)
    (hholds : ∃ kept, Holds args state.argc state.argv kept deleted)
    (hletter : LetterBounds validOptions state.argc c state.getopt) :
    (passState (parseOption state c)).Conserves args
      (deleted ++ ((optionCall state c).map (ArgvCall.removes state.argv)).getD []) := by
  have hone : ((state.getopt.optind : ℤ) - 1).toNat = state.getopt.optind - 1 := by omega
  have htwo : ((state.getopt.optind : ℤ) - 2).toNat = state.getopt.optind - 2 := by omega
  obtain ⟨options, ⟨hcall, hpass⟩ | ⟨hcall, hpass⟩ | ⟨hc, hcall, hpass⟩⟩ := parseOption_call state c
  · rw [hcall, hpass, Option.map_none, Option.getD_none, List.append_nil]
    exact ⟨hholds, fun _ ↦ hletter.bounds⟩
  · have hdropped := conserves_drop { state with options := options } hholds hletter.bounds
      hletter.one_le
    rw [hcall, hpass, Option.map_some, Option.getD_some, ArgvCall.removes, hone]
    exact hdropped
  · have hdropped := conserves_drop { state with options := options } hholds hletter.bounds
      (two_le_of_letterBounds hc hletter)
    rw [hcall, hpass, Option.map_some, Option.getD_some, ArgvCall.removes, htwo]
    exact hdropped

/-- Every pass keeps all strings. -/
theorem ParseState.Conserves.next {next : ParseState} (h : state.Conserves args deleted)
    (hpass : parsePass realpath state = .inl next) :
    next.Conserves args (deleted ++ passRemoves state) := by
  obtain ⟨⟨opt, argv, d⟩, hgetopt⟩ :
      ∃ call, Getopt.getopt validOptions state.argc state.argv state.getopt = call := ⟨_, rfl⟩
  obtain ⟨hholds, hletter⟩ := h.getopt hgetopt
  rw [parsePass, hgetopt] at hpass
  cases opt with
  | none => exact absurd hpass (by simp)
  | some c =>
    have hnext := conserves_option { state with argv := argv, getopt := d } hholds (hletter c rfl)
    rw [passRemoves, passCall, hgetopt]
    dsimp only at hpass hnext ⊢
    rwa [hpass] at hnext

theorem takesOperands_of_parseOperands
    (hholds : ∃ kept, Holds args state.argc state.argv kept deleted)
    (haccepted : (parseOperands realpath state).1 = true) :
    TakesOperands realpath args
      (deleted ++ ((operandCall state).map (ArgvCall.removes state.argv)).getD [])
      (parseOperands realpath state).2 := by
  rw [parseOperands] at haccepted ⊢
  rw [operandCall]
  split_ifs at haccepted ⊢ with hoptind
  obtain ⟨kept, hholds⟩ := hholds
  have hlength := hholds.2.1
  obtain rfl | ⟨init, mount, rfl⟩ := List.eq_nil_or_concat' kept
  · rw [List.length_nil] at hlength
    omega
  obtain rfl | ⟨front, image, rfl⟩ := List.eq_nil_or_concat' init
  · rw [List.nil_append, List.length_singleton] at hlength
    omega
  have hfront : front.length = state.argc - 2 := by
    rw [← hlength]
    simp
  have hindex : ((state.argc : ℤ) - 2).toNat = front.length := by omega
  have hremoved := reduceOption_vector front [image] [mount] (args.length + 1 - state.argc)
  rw [← hholds.2.2, List.length_singleton] at hremoved
  have hdropped : Holds args (dropArg state.argc state.argv (state.argc - 2)).1
      (dropArg state.argc state.argv (state.argc - 2)).2 (front ++ [mount]) (deleted ++ [image]) := by
    rw [dropArg_eq, ← hfront]
    exact hholds.dropArgs
  have hstrings : state.argv.getD (state.argc - 2) none = some image ∧
      state.argv.getD (state.argc - 1) none = some mount := by
    have hlast : state.argc - 1 = front.length + 1 := by omega
    rw [hholds.2.2, ← hfront, hlast]
    simp [vector]
  rw [Option.map_some, Option.getD_some, ArgvCall.removes, hindex, hremoved]
  refine ⟨front, mount, image, deleted, rfl, hdropped, hstrings.1, ?_⟩
  dsimp only
  rw [hstrings.2]
  rfl

/-- The last pass takes the operands, unless the help or the version is asked for. -/
theorem ParseState.Conserves.takesOperands (h : state.Conserves args deleted)
    (hpass : parsePass realpath state = .inr (true, last)) (hhelp : last.options.help = false)
    (hversion : last.options.version = false) :
    TakesOperands realpath args (deleted ++ passRemoves state) last := by
  obtain ⟨⟨opt, argv, d⟩, hgetopt⟩ :
      ∃ call, Getopt.getopt validOptions state.argc state.argv state.getopt = call := ⟨_, rfl⟩
  obtain ⟨hholds, -⟩ := h.getopt hgetopt
  rw [parsePass, hgetopt] at hpass
  cases opt with
  | none =>
    have hresult := Sum.inr.inj hpass
    rw [passRemoves, passCall, hgetopt,
      show last = (parseOperands realpath _).2 from (congrArg Prod.snd hresult).symm]
    exact takesOperands_of_parseOperands hholds (congrArg Prod.fst hresult)
  | some c =>
    rcases help_or_version_of_option hpass with hset | hset
    · exact absurd (hset.symm.trans hhelp) (by simp)
    · exact absurd (hset.symm.trans hversion) (by simp)

/-- All passes together. -/
theorem ParseState.Conserves.run {fuel : ℕ} (h : state.Conserves args deleted)
    (hrun : WhileLoop.run (parsePass realpath) fuel state = some (true, last))
    (hhelp : last.options.help = false) (hversion : last.options.version = false) :
    TakesOperands realpath args (deleted ++ removed realpath fuel state) last := by
  induction fuel generalizing state deleted with
  | zero => exact absurd hrun (by simp [WhileLoop.run])
  | succ fuel ih =>
    rw [WhileLoop.run] at hrun
    rw [removed]
    cases hpass : parsePass realpath state with
    | inl next =>
      rw [hpass] at hrun
      rw [← List.append_assoc]
      exact ih (h.next hpass) hrun
    | inr result =>
      rw [hpass] at hrun
      obtain rfl := Option.some.inj hrun
      rw [List.append_nil]
      exact h.takesOperands hpass hhelp hversion

theorem conserves_start (args : List CStr) : (ParseState.start args).Conserves args [] := by
  refine ⟨⟨args, ?_, rfl, ?_⟩, (bounded_start args).scan⟩
  · rw [List.append_nil]
  · change vector args 1 = vector args (args.length + 1 - args.length)
    rw [Nat.add_sub_cancel_left]

theorem takesOperands_of_parseArgs {fuel : ℕ}
    (hparse : parseArgs realpath fuel args = some (true, last))
    (hhelp : last.options.help = false) (hversion : last.options.version = false) :
    TakesOperands realpath args (removed realpath fuel (.start args)) last :=
  (conserves_start args).run hparse hhelp hversion

/-- After the loop one string is taken out; before, as many as the letters say. -/
theorem argc_of_ends {cursor : Cursor} (h : Ends (parsePass realpath) state (true, last))
    (hat : state.ReadsAt cursor) (hhelp : last.options.help = false)
    (hversion : last.options.version = false) :
    last.argc + deletions (cursor.options validOptions deletes) + 1 = state.argc := by
  generalize hresult : (true, last) = result at h
  induction h generalizing cursor with
  | done hpass =>
    subst hresult
    cases hnext : cursor.next validOptions with
    | none =>
      obtain ⟨inner, -, hargc, hinner⟩ := hat.parsePass_none realpath hnext
      have hlast := Sum.inr.inj (hpass.symm.trans hinner)
      rw [parseOperands] at hlast
      split_ifs at hlast with hoptind
      · exact absurd (congrArg Prod.fst hlast) (by simp)
      · have hleft : last.argc = inner.argc - 1 := congrArg (·.2.argc) hlast
        rw [Cursor.options_of_none hnext, deletions, ← hargc]
        omega
    | some option =>
      obtain ⟨given, after⟩ := option
      rcases hat.parsePass_take realpath hnext with
        ⟨next, num, -, -, hgoes, -⟩ | ⟨accepted, stop, hstops, htake⟩
      · exact absurd (hpass.symm.trans hgoes) (by simp)
      · obtain ⟨rfl, rfl⟩ := Prod.mk.inj (Sum.inr.inj (hpass.symm.trans hstops))
        rcases help_or_version_of_take htake with hset | hset
        · exact absurd (hset.symm.trans hhelp) (by simp)
        · exact absurd (hset.symm.trans hversion) (by simp)
  | more hpass _ ih =>
    cases hnext : cursor.next validOptions with
    | none =>
      obtain ⟨inner, -, -, hinner⟩ := hat.parsePass_none realpath hnext
      exact absurd (hpass.symm.trans hinner) (by simp)
    | some option =>
      obtain ⟨given, after⟩ := option
      rcases hat.parsePass_take realpath hnext with
        ⟨next, num, -, hdeletes, hgoes, hargc, hreads⟩ | ⟨accepted, stop, hstops, -⟩
      · obtain rfl := Sum.inl.inj (hpass.symm.trans hgoes)
        have hrest := ih hreads hresult
        rw [Cursor.options_of_some hnext, deletions, hdeletes, Option.elim_some, Option.getD_some]
        omega
      · exact absurd (hpass.symm.trans hstops) (by simp)

/-- FUSE is only called when the switch has taken all letters. -/
theorem read_of_launch {fuel : ℕ} {options : CmdlineOptions}
    (hlaunch : launch realpath fuel args = some (.fuse argc argv options)) :
    ∃ read, CmdlineOptions.default.takeAll (lettersRead args) = .inl read ∧
      options = { read with
        adfFilename := options.adfFilename, mountPoint := options.mountPoint } := by
  obtain ⟨last, hparse, rfl, hhelp, hversion, -⟩ := parsed_of_launch hlaunch
  obtain ⟨accepted, last', hrun, hdecides⟩ : ∃ accepted last',
      run (parsePass realpath) _ (.start args) = some (accepted, last') ∧
        Decides (CmdlineOptions.default.takeAll (lettersRead args)) accepted last'.options :=
    run_of_readsAt (readsAt_start args) (Nat.lt_succ_self _)
  obtain ⟨rfl, rfl⟩ := Prod.mk.inj ((ends_of_run hparse).unique (ends_of_run hrun))
  cases htake : CmdlineOptions.default.takeAll (lettersRead args) with
  | inl read =>
    rw [htake] at hdecides
    exact ⟨read, rfl, hdecides⟩
  | inr result =>
    rw [htake] at hdecides
    obtain rfl : (true, last.options) = result := hdecides
    rcases help_or_version_of_takeAll htake with hset | hset
    · exact absurd (hset.symm.trans hhelp) (by simp)
    · exact absurd (hset.symm.trans hversion) (by simp)

/-- The image that is opened is an argument of the process. -/
theorem image_of_launch {fuel : ℕ} {options : CmdlineOptions}
    (hlaunch : launch realpath fuel args = some (.fuse argc argv options)) :
    ∃ image ∈ args, options.adfFilename = some image := by
  obtain ⟨last, hparse, rfl, hhelp, hversion, -⟩ := parsed_of_launch hlaunch
  obtain ⟨front, mount, image, before, hremoved, hholds, himage, -⟩ :=
    takesOperands_of_parseArgs hparse hhelp hversion
  refine ⟨image, hholds.1.subset ?_, himage⟩
  rw [hremoved]
  simp

/-- The vector that `fuse_main` gets and the strings that `parse_args` takes out of it are the arguments
of the process, each as often as there, and `-s` behind them if it has not been read.  Taken out are
as many as the letters say, and then the image; the mount point is the last that is left. -/
theorem launch_conserves (realpath : CStr → Option CStr) (fuel : ℕ) (args : List CStr) (argc : ℕ)
    (argv : Argv) (options : CmdlineOptions)
    (hlaunch : launch realpath fuel args = some (.fuse argc argv options)) :
    ∃ front mount image before, removed realpath fuel (.start args) = before ++ [image] ∧
      before.length = deletions (lettersRead args) ∧
      (front ++ [mount] ++ removed realpath fuel (.start args)).Perm args ∧
      options.adfFilename = some image ∧ options.mountPoint = realpath mount ∧
      let given := front ++ [mount] ++
        if options.singleThreadedFuseModeSet then [] else ["-s".toList]
      argc = given.length ∧ argv = vector given (args.length + 1 - given.length) := by
  obtain ⟨last, hparse, rfl, hhelp, hversion, hvector⟩ := parsed_of_launch hlaunch
  obtain ⟨front, mount, image, before, hremoved, hholds, himage, hmount⟩ :=
    takesOperands_of_parseArgs hparse hhelp hversion
  obtain ⟨hperm, hlength, hargv⟩ := hholds
  have hcount := argc_of_ends (ends_of_run hparse) (readsAt_start args) hhelp hversion
  have hlengths := hperm.length_eq
  rw [hremoved] at hlengths
  simp only [List.length_append, List.length_singleton] at hlengths hlength
  have hstart : (ParseState.start args).argc = args.length := rfl
  have hroom : args.length + 1 - last.argc = args.length - last.argc + 1 := by omega
  refine ⟨front, mount, image, before, hremoved, ?_, hperm, himage, hmount, ?_⟩
  · rw [lettersRead]
    omega
  · have hkept : (front ++ [mount]).length = last.argc := by simpa using hlength
    rw [hargv, ← hkept] at hvector
    dsimp only
    split_ifs at hvector ⊢ with hsingle
    · obtain ⟨rfl, rfl⟩ := Prod.mk.inj hvector
      rw [List.append_nil]
      exact ⟨rfl, rfl⟩
    · rw [hkept, hroom, ← hkept, addArg_vector] at hvector
      obtain ⟨rfl, rfl⟩ := Prod.mk.inj hvector
      have hgiven : (front ++ [mount] ++ ["-s".toList]).length = (front ++ [mount]).length + 1 :=
        List.length_append
      exact ⟨rfl, by rw [hgiven, Nat.add_sub_add_right]⟩

/-- `fuseadf -p 3 img mnt -f`. -/
theorem launch_conserves_partition :
    ∃ front mount image before,
      removed some 3 (.start ["fuseadf".toList, "-p".toList, "3".toList, "img".toList, "mnt".toList,
        "-f".toList]) = before ++ [image] ∧
      before.length = deletions (lettersRead ["fuseadf".toList, "-p".toList, "3".toList,
        "img".toList, "mnt".toList, "-f".toList]) ∧
      (front ++ [mount] ++ removed some 3 (.start ["fuseadf".toList, "-p".toList, "3".toList,
        "img".toList, "mnt".toList, "-f".toList])).Perm
        ["fuseadf".toList, "-p".toList, "3".toList, "img".toList, "mnt".toList, "-f".toList] ∧
      some "img".toList = some image ∧ some "mnt".toList = some mount ∧
      4 = (front ++ [mount] ++ ["-s".toList]).length ∧
      vector ["fuseadf".toList, "-f".toList, "mnt".toList, "-s".toList] 3 =
        vector (front ++ [mount] ++ ["-s".toList])
          (7 - (front ++ [mount] ++ ["-s".toList]).length) :=
  launch_conserves some 3
    ["fuseadf".toList, "-p".toList, "3".toList, "img".toList, "mnt".toList, "-f".toList] 4
    (vector ["fuseadf".toList, "-f".toList, "mnt".toList, "-s".toList] 3)
    { CmdlineOptions.default with
      adfFilename := some "img".toList
      mountPoint := some "mnt".toList
      adfVolume := 3 } (by rfl)

end Conservation

end FuseAdf
