import FuseAdf.Options.ParseArgs

/-!
# What parse_args makes of a command line

`readArgs` reads a command line as a whole: its option elements, the part of it that is kept for
FUSE, and its operands.  As long as no element makes the loop delete the element before it, an
accepted command line is handed on in just this way.  An element does so when an argument is
attached to `p` or `l`, or when an `i` is not its last letter.
-/

namespace FuseAdf

open Getopt WhileLoop

theorem copyDown_append (num count : ℕ) (front back : Argv) (h : num + count ≤ back.length) :
    copyDown num count (front ++ back) front.length =
      front ++ (back.drop num).take count ++ back.drop count := by
  induction count generalizing front back with
  | zero => simp [copyDown]
  | succ count ih =>
    cases back with
    | nil => simp at h
    | cons first back =>
      have hnum : num < (first :: back).length := by omega
      have hget : (front ++ first :: back).getD (front.length + num) none =
          (first :: back)[num] := by
        rw [List.getD_eq_getElem?_getD, List.getElem?_append_right (by omega),
          Nat.add_sub_cancel_left, List.getElem?_eq_getElem hnum, Option.getD_some]
      have hset : (front ++ first :: back).set front.length (first :: back)[num] =
          (front ++ [(first :: back)[num]]) ++ back := by
        simp
      have hih := ih (front ++ [(first :: back)[num]]) back (by simp at h; omega)
      rw [copyDown, hget, hset]
      rw [List.length_append, List.length_singleton] at hih
      rw [hih, List.drop_eq_getElem_cons hnum, List.take_succ_cons, List.drop_succ_cons,
        List.drop_succ_cons]
      simp

theorem clearArgs_append (count : ℕ) (front back : Argv) (h : count ≤ back.length) :
    clearArgs count (front ++ back) front.length =
      front ++ List.replicate count none ++ back.drop count := by
  induction count generalizing front back with
  | zero => simp [clearArgs]
  | succ count ih =>
    cases back with
    | nil => simp at h
    | cons first back =>
      have hset : (front ++ first :: back).set front.length none = (front ++ [none]) ++ back := by
        simp
      have hih := ih (front ++ [none]) back (by simpa using h)
      rw [clearArgs, hset]
      rw [List.length_append, List.length_singleton] at hih
      rw [hih, List.replicate_succ, List.drop_succ_cons]
      simp

/-- Deleting a segment. -/
theorem dropArgs_vector (front segment rest : List CStr) (nulls : ℕ) :
    dropArgs (front ++ segment ++ rest).length (vector (front ++ segment ++ rest) nulls)
        front.length segment.length =
      ((front ++ rest).length, vector (front ++ rest) (nulls + segment.length)) := by
  have hargc : (front ++ segment ++ rest).length - segment.length = (front ++ rest).length := by
    simp only [List.length_append]
    omega
  have hcount : (front ++ rest).length - front.length = rest.length := by simp
  have hvector : vector (front ++ segment ++ rest) nulls =
      front.map some ++ vector (segment ++ rest) nulls := by
    rw [List.append_assoc, vector_append]
  have hcopy := copyDown_append segment.length rest.length (front.map some)
    (vector (segment ++ rest) nulls) (by simp [vector])
  have hclear := clearArgs_append segment.length (front.map some ++ rest.map some)
    ((vector (segment ++ rest) nulls).drop rest.length) (by simp [vector]; omega)
  have hkept : ((vector (segment ++ rest) nulls).drop segment.length).take rest.length =
      rest.map some := by
    simp [vector]
  have hnulls : ((vector (segment ++ rest) nulls).drop rest.length).drop segment.length =
      List.replicate nulls none := by
    rw [List.drop_drop, vector]
    apply List.drop_left'
    simp only [List.length_map, List.length_append]
    omega
  rw [List.length_map] at hcopy
  rw [List.length_append, List.length_map, List.length_map] at hclear
  rw [dropArgs, hargc, hcount, hvector, hcopy, hkept, List.length_append, hclear, hnulls]
  rw [vector, Nat.add_comm nulls, List.replicate_add, List.map_append]
  simp only [List.append_assoc]

/-- Deleting one element with the one function or the other is the same. -/
theorem dropArg_eq (argc : ℕ) (argv : Argv) (index : ℕ) :
    dropArg argc argv index = dropArgs argc argv index 1 := rfl

/-- Both kinds of deletion as one. -/
theorem ParseState.drop_eq (state : ParseState) (back num : ℕ) :
    state.drop back num =
      { state with
        argc := (dropArgs state.argc state.argv (state.getopt.optind - back) num).1
        argv := (dropArgs state.argc state.argv (state.getopt.optind - back) num).2
        getopt := { state.getopt with optind := state.getopt.optind - back } } := by
  simp only [ParseState.drop]
  split_ifs with hone
  · rw [hone, dropArg_eq]
  · rfl

/-- The decrement of `optind` and the deletion that follow an element: `num` elements that end where
`optind` was. -/
theorem ParseState.drop_vector {state : ParseState} {front segment rest : List CStr} {nulls : ℕ}
    (hargc : state.argc = (front ++ segment ++ rest).length)
    (hargv : state.argv = vector (front ++ segment ++ rest) nulls)
    (hoptind : state.getopt.optind = front.length + segment.length) :
    state.drop segment.length segment.length =
      { state with
        argc := (front ++ rest).length
        argv := vector (front ++ rest) (nulls + segment.length)
        getopt := { state.getopt with optind := front.length } } := by
  have hback : state.getopt.optind - segment.length = front.length := by omega
  rw [state.drop_eq, hback, hargc, hargv, dropArgs_vector]

/-! ## Reading a command line -/

/-- What the loop does about an option element. -/
inductive Effect
  | keep
  | keepNext
  | drop
  | dropNext
  | dropPrevious
  | refuse
deriving DecidableEq, Repr

/-- The effect of the letters of an element: `o` and `p` at its end take the next element as their
argument. -/
def effect : List Char → Effect
  | [] => .keep
  | c :: letters =>
      if c = 's' ∨ c = 'd' ∨ c = 'f' then effect letters
      else if c = 'o' then if letters = [] then .keepNext else .keep
      else if c = 'p' then if letters = [] then .dropNext else .dropPrevious
      else if c = 'l' ∨ c = 'i' then if letters = [] then .drop else .dropPrevious
      else .refuse

/-- Whether `s` is among the letters before one that takes an argument. -/
def readsSingle : List Char → Bool
  | [] => false
  | c :: letters =>
      c = 's' || !(c = 'o' || c = 'p' || c = 'l') && readsSingle letters

/-- A command line as it is read. -/
structure CommandLine where
  elements : List CStr
  kept : List CStr
  operands : List CStr
  dashes : Bool
deriving DecidableEq, Repr

namespace CommandLine

/-- Nothing. -/
def empty : CommandLine where
  elements := []
  kept := []
  operands := []
  dashes := false

/-- Operands in front. -/
def addOperands (operands : List CStr) (line : CommandLine) : CommandLine :=
  { line with operands := operands ++ line.operands }

/-- An option element in front, of which `kept` stays. -/
def consElement (element : CStr) (kept : List CStr) (line : CommandLine) : CommandLine :=
  { line with elements := element :: line.elements, kept := kept ++ line.kept }

end CommandLine

/-- The option elements of the arguments after the program name, what is kept of them with their
arguments, the operands, and whether `--` ends the options. -/
def readArgs : List CStr → CommandLine
  | [] => .empty
  | arg :: rest =>
      if isOperand arg then (readArgs rest).addOperands [arg]
      else if arg = "--".toList then
        { CommandLine.empty with kept := [arg], operands := rest, dashes := true }
      else
        match effect arg.tail with
        | .keepNext =>
            match rest with
            | [] => .empty
            | next :: rest => (readArgs rest).consElement arg [arg, next]
        | .dropNext =>
            match rest with
            | [] => .empty
            | _ :: rest => (readArgs rest).consElement arg []
        | .drop => (readArgs rest).consElement arg []
        | .keep | .dropPrevious | .refuse => (readArgs rest).consElement arg [arg]

section ReadArgs

variable {arg : CStr} {rest : List CStr}

theorem readArgs_operand (harg : isOperand arg = true) :
    readArgs (arg :: rest) = (readArgs rest).addOperands [arg] := by
  rw [readArgs.eq_def]
  exact if_pos harg

theorem readArgs_dashes : readArgs ("--".toList :: rest) =
    { CommandLine.empty with kept := ["--".toList], operands := rest, dashes := true } := by
  rw [readArgs.eq_def]
  rfl

/-- An option element and what is done about it. -/
theorem readArgs_element (harg : isOperand arg = false) (hdashes : arg ≠ "--".toList) :
    readArgs (arg :: rest) =
      match effect arg.tail with
      | .keepNext => rest.casesOn .empty fun next rest ↦ (readArgs rest).consElement arg [arg, next]
      | .dropNext => rest.casesOn .empty fun _ rest ↦ (readArgs rest).consElement arg []
      | .drop => (readArgs rest).consElement arg []
      | .keep | .dropPrevious | .refuse => (readArgs rest).consElement arg [arg] := by
  rw [readArgs.eq_def]
  simp only [harg, if_neg hdashes]
  cases effect arg.tail <;> cases rest <;> rfl

end ReadArgs

theorem readArgs_operands {skipped : List CStr}
    (hskipped : ∀ operand ∈ skipped, isOperand operand = true) (rest : List CStr) :
    readArgs (skipped ++ rest) = (readArgs rest).addOperands skipped := by
  induction skipped with
  | nil => rfl
  | cons operand skipped ih =>
    have hoperand : isOperand operand = true := hskipped operand (by simp)
    rw [List.cons_append, readArgs_operand hoperand, ih fun other h ↦ hskipped other (by simp [h])]
    rfl

/-- The loop is between two elements. -/
abbrev ParseState.Scans (state : ParseState) (front operands recent rest : List CStr)
    (nulls : ℕ) : Prop :=
  Scanning front operands recent rest nulls state.argc state.argv state.getopt

/-- Deleting the elements that were read last. -/
theorem ParseState.Scans.drop {state : ParseState} {front operands recent rest : List CStr}
    {nulls : ℕ} (h : state.Scans front operands recent rest nulls) :
    (state.drop recent.length recent.length).Scans front operands [] rest
      (nulls + recent.length) := by
  have hoptind : state.getopt.optind = (front ++ operands).length + recent.length := by
    rw [h.optind, List.length_append]
  rw [ParseState.Scans, state.drop_vector h.argc_eq h.argv_eq hoptind]
  exact ⟨by simp, by simp, by simp, h.firstNonopt, h.lastNonopt, h.nextchar, h.initialized,
    h.front_ne⟩

section Pass

variable {realpath : CStr → Option CStr} {state last : ParseState}
  {front operands rest : List CStr} {element letters : List Char} {nulls : ℕ} {c : Char}

theorem parsePass_of_getopt {argv : Argv} {d : GetoptData}
    (h : getopt validOptions state.argc state.argv state.getopt = (some c, argv, d)) :
    parsePass realpath state = parseOption { state with argv := argv, getopt := d } c := by
  rw [parsePass, h]

theorem takesArgument_flag (hc : c = 's' ∨ c = 'd' ∨ c = 'f') :
    takesArgument validOptions c = some .no := by
  rcases hc with rfl | rfl | rfl <;> decide

/-- The letters that only set a flag. -/
theorem parseOption_flag (hc : c = 's' ∨ c = 'd' ∨ c = 'f') (state : ParseState) :
    ∃ options, parseOption state c = .inl { state with options := options } ∧
      options.singleThreadedFuseModeSet =
        (state.options.singleThreadedFuseModeSet || decide (c = 's')) := by
  rcases hc with rfl | rfl | rfl
  · exact ⟨_, rfl, by simp⟩
  · exact ⟨state.options, rfl, by simp⟩
  · exact ⟨state.options, rfl, by simp⟩

/-- The letter whose argument is for FUSE. -/
theorem parseOption_fuse (state : ParseState) :
    ∃ options, parseOption state 'o' = .inl { state with options := options } ∧
      options.singleThreadedFuseModeSet = state.options.singleThreadedFuseModeSet := by
  simp only [parseOption]
  split_ifs
  · exact ⟨_, rfl, rfl⟩
  · exact ⟨state.options, rfl, rfl⟩

/-- The letters after which their element is deleted. -/
theorem parseOption_delete (hc : c = 'l' ∨ c = 'i') (state : ParseState)
    (hoptarg : state.getopt.optarg = none) :
    ∃ options, parseOption state c = .inl ({ state with options := options }.drop 1 1) ∧
      options.singleThreadedFuseModeSet = state.options.singleThreadedFuseModeSet := by
  rcases hc with rfl | rfl
  · simp only [parseOption, hoptarg]
    exact ⟨_, rfl, rfl⟩
  · exact ⟨_, rfl, rfl⟩

/-- The partition number is refused, or two elements are deleted. -/
theorem parseOption_partition (state : ParseState) :
    (∃ after, parseOption state 'p' = .inr (false, after)) ∨
      ∃ options, parseOption state 'p' = .inl ({ state with options := options }.drop 2 2) ∧
        options.singleThreadedFuseModeSet = state.options.singleThreadedFuseModeSet := by
  simp only [parseOption]
  cases state.getopt.optarg.bind strtoul with
  | none => exact Or.inl ⟨_, rfl⟩
  | some number =>
    dsimp only
    split_ifs
    · exact Or.inl ⟨_, rfl⟩
    · exact Or.inr ⟨_, rfl, rfl⟩

/-- Every other letter ends the loop, and it is accepted only to show help or the version. -/
theorem parseOption_refuse (hflag : ¬ (c = 's' ∨ c = 'd' ∨ c = 'f')) (ho : c ≠ 'o') (hp : c ≠ 'p')
    (hdelete : ¬ (c = 'l' ∨ c = 'i')) (state : ParseState) :
    ∃ accepted after, parseOption state c = .inr (accepted, after) ∧
      (accepted = true → after.options.help = true ∨ after.options.version = true) := by
  push Not at hflag hdelete
  unfold parseOption
  split
  all_goals first
    | exact absurd rfl hp
    | exact absurd rfl ho
    | exact absurd rfl hdelete.1
    | exact absurd rfl hdelete.2
    | exact absurd rfl hflag.1
    | exact absurd rfl hflag.2.1
    | exact absurd rfl hflag.2.2
    | exact ⟨_, _, rfl, by simp [ParseState.drop]⟩

/-- Such a letter, or an error, never gets the command line accepted. -/
theorem not_accepted {argv : Argv} {d : GetoptData}
    (hgetopt : getopt validOptions state.argc state.argv state.getopt = (some c, argv, d))
    (hflag : ¬ (c = 's' ∨ c = 'd' ∨ c = 'f')) (ho : c ≠ 'o') (hp : c ≠ 'p')
    (hdelete : ¬ (c = 'l' ∨ c = 'i')) (hends : Ends (parsePass realpath) state (true, last))
    (hhelp : last.options.help = false) (hversion : last.options.version = false) : False := by
  obtain ⟨accepted, after, hoption, hshow⟩ := parseOption_refuse hflag ho hp hdelete
    { state with argv := argv, getopt := d }
  have hresult := hends.eq_of_done ((parsePass_of_getopt hgetopt).trans hoption)
  obtain ⟨rfl, rfl⟩ := Prod.mk.inj hresult
  rcases hshow rfl with h | h
  · exact absurd h (by simp [hhelp])
  · exact absurd h (by simp [hversion])

/-- Where the loop is after an option element: whether it stays, and whether the next element was
its argument. -/
def ParseState.Leaves (next : ParseState) (front operands : List CStr) (element : CStr)
    (rest : List CStr) (nulls : ℕ) : Effect → Prop
  | .keep => next.Scans front operands [element] rest nulls
  | .keepNext => ∃ argument rest', rest = argument :: rest' ∧
      next.Scans front operands [element, argument] rest' nulls
  | .drop => next.Scans front operands [] rest (nulls + 1)
  | .dropNext => ∃ argument rest', rest = argument :: rest' ∧
      next.Scans front operands [] rest' (nulls + 2)
  | .dropPrevious => False
  | .refuse => False

/-- The letter `o`. -/
theorem leaves_fuse
    (h : Inside front operands element ('o' :: letters) rest nulls state.argc state.argv
      state.getopt)
    (hends : Ends (parsePass realpath) state (true, last))
    (hhelp : last.options.help = false) (hversion : last.options.version = false) :
    ∃ next, Ends (parsePass realpath) next (true, last) ∧
      next.options.singleThreadedFuseModeSet = state.options.singleThreadedFuseModeSet ∧
      next.Leaves front operands element rest nulls (effect ('o' :: letters)) := by
  have hrequired : takesArgument validOptions 'o' = some .required := by decide
  by_cases hletters : letters = []
  · subst hletters
    cases rest with
    | nil =>
      obtain ⟨d', hgetopt⟩ := h.getopt_missing hrequired
      exact (not_accepted hgetopt (by decide) (by decide) (by decide) (by decide) hends hhelp
        hversion).elim
    | cons argument rest =>
      obtain ⟨d', hgetopt, -, hscan⟩ := h.getopt_separate hrequired
      obtain ⟨options, hoption, hsingle⟩ :=
        parseOption_fuse { state with argv := state.argv, getopt := d' }
      exact ⟨_, hends.of_more ((parsePass_of_getopt hgetopt).trans hoption), hsingle, argument,
        rest, rfl, hscan⟩
  · obtain ⟨d', hgetopt, -, hscan⟩ := h.getopt_attached (Or.inl hrequired) hletters
    obtain ⟨options, hoption, hsingle⟩ :=
      parseOption_fuse { state with argv := state.argv, getopt := d' }
    refine ⟨_, hends.of_more ((parsePass_of_getopt hgetopt).trans hoption), hsingle, ?_⟩
    have heffect : effect ('o' :: letters) = .keep := by simp [effect, hletters]
    rw [heffect]
    exact hscan

/-- The letter `p` with its argument in the next element. -/
theorem leaves_partition
    (h : Inside front operands element ['p'] rest nulls state.argc state.argv state.getopt)
    (hends : Ends (parsePass realpath) state (true, last))
    (hhelp : last.options.help = false) (hversion : last.options.version = false) :
    ∃ next, Ends (parsePass realpath) next (true, last) ∧
      next.options.singleThreadedFuseModeSet = state.options.singleThreadedFuseModeSet ∧
      next.Leaves front operands element rest nulls .dropNext := by
  have hrequired : takesArgument validOptions 'p' = some .required := by decide
  cases rest with
  | nil =>
    obtain ⟨d', hgetopt⟩ := h.getopt_missing hrequired
    exact (not_accepted hgetopt (by decide) (by decide) (by decide) (by decide) hends hhelp
      hversion).elim
  | cons argument rest =>
    obtain ⟨d', hgetopt, -, hscan⟩ := h.getopt_separate hrequired
    rcases parseOption_partition { state with argv := state.argv, getopt := d' } with
      ⟨after, hoption⟩ | ⟨options, hoption, hsingle⟩
    · have hresult := hends.eq_of_done ((parsePass_of_getopt hgetopt).trans hoption)
      exact absurd (congrArg Prod.fst hresult) (by simp)
    · have hscans : ParseState.Scans
          { state with argv := state.argv, getopt := d', options := options }
          front operands [element, argument] rest nulls := hscan
      exact ⟨_, hends.of_more ((parsePass_of_getopt hgetopt).trans hoption), hsingle, argument,
        rest, rfl, hscans.drop⟩

/-- The letters `l` and `i` at the end of their element. -/
theorem leaves_delete (hc : c = 'l' ∨ c = 'i')
    (h : Inside front operands element [c] rest nulls state.argc state.argv state.getopt)
    (hends : Ends (parsePass realpath) state (true, last)) :
    ∃ next, Ends (parsePass realpath) next (true, last) ∧
      next.options.singleThreadedFuseModeSet = state.options.singleThreadedFuseModeSet ∧
      next.Leaves front operands element rest nulls .drop := by
  have htakes : takesArgument validOptions c = some .no ∨
      takesArgument validOptions c = some .optional := by
    rcases hc with rfl | rfl
    · exact Or.inr (by decide)
    · exact Or.inl (by decide)
  obtain ⟨d', hgetopt, hoptarg, hscan⟩ := h.getopt_last htakes
  obtain ⟨options, hoption, hsingle⟩ :=
    parseOption_delete hc { state with argv := state.argv, getopt := d' } hoptarg
  have hscans : ParseState.Scans
      { state with argv := state.argv, getopt := d', options := options }
      front operands [element] rest nulls := hscan
  exact ⟨_, hends.of_more ((parsePass_of_getopt hgetopt).trans hoption), hsingle, hscans.drop⟩

/-- What the loop makes of an option element of an accepted command line, from the letters that are
still to be read on. -/
theorem leaves_of_ends (hletters : letters ≠ [])
    (h : Inside front operands element letters rest nulls state.argc state.argv state.getopt)
    (hends : Ends (parsePass realpath) state (true, last))
    (hhelp : last.options.help = false) (hversion : last.options.version = false)
    (hprevious : effect letters ≠ .dropPrevious) :
    ∃ next, Ends (parsePass realpath) next (true, last) ∧
      next.options.singleThreadedFuseModeSet =
        (state.options.singleThreadedFuseModeSet || readsSingle letters) ∧
      next.Leaves front operands element rest nulls (effect letters) := by
  induction letters generalizing state with
  | nil => exact absurd rfl hletters
  | cons c letters ih =>
    by_cases hflag : c = 's' ∨ c = 'd' ∨ c = 'f'
    · have heffect : effect (c :: letters) = effect letters := by rw [effect, if_pos hflag]
      have hreads : readsSingle (c :: letters) = (decide (c = 's') || readsSingle letters) := by
        rcases hflag with rfl | rfl | rfl <;> simp [readsSingle]
      rw [heffect] at hprevious ⊢
      rw [hreads]
      by_cases hlast : letters = []
      · subst hlast
        obtain ⟨d', hgetopt, -, hscan⟩ := h.getopt_last (Or.inl (takesArgument_flag hflag))
        obtain ⟨options, hoption, hsingle⟩ :=
          parseOption_flag hflag { state with argv := state.argv, getopt := d' }
        exact ⟨_, hends.of_more ((parsePass_of_getopt hgetopt).trans hoption),
          by simpa [readsSingle] using hsingle, hscan⟩
      · obtain ⟨d', hgetopt, hinside⟩ := h.getopt_flag (takesArgument_flag hflag) hlast
        obtain ⟨options, hoption, hsingle⟩ :=
          parseOption_flag hflag { state with argv := state.argv, getopt := d' }
        obtain ⟨next, hnext, hnextSingle, hleaves⟩ := ih hlast hinside
          (hends.of_more ((parsePass_of_getopt hgetopt).trans hoption)) hprevious
        refine ⟨next, hnext, ?_, hleaves⟩
        rw [hnextSingle, hsingle, Bool.or_assoc]
    · by_cases ho : c = 'o'
      · subst ho
        simpa [readsSingle] using leaves_fuse h hends hhelp hversion
      · by_cases hp : c = 'p'
        · subst hp
          have hlast : letters = [] := by
            by_contra hne
            simp [effect, hne] at hprevious
          subst hlast
          have heffect : effect ['p'] = .dropNext := by decide
          rw [heffect]
          simpa [readsSingle] using leaves_partition h hends hhelp hversion
        · by_cases hdelete : c = 'l' ∨ c = 'i'
          · have hlast : letters = [] := by
              by_contra hne
              simp [effect, hflag, ho, hp, hdelete, hne] at hprevious
            subst hlast
            have heffect : effect [c] = .drop := by simp [effect, hflag, ho, hp, hdelete]
            have hreads : readsSingle [c] = false := by
              rcases hdelete with rfl | rfl <;> rfl
            rw [heffect, hreads, Bool.or_false]
            exact leaves_delete hdelete h hends
          · obtain ⟨opt, argv, d, hgetopt, rfl | rfl⟩ := h.getopt_fst validOptions
            · exact (not_accepted hgetopt hflag ho hp hdelete hends hhelp hversion).elim
            · exact (not_accepted hgetopt (by decide) (by decide) (by decide) (by decide) hends
                hhelp hversion).elim

end Pass

/-! ## A whole command line -/

section Lines

variable {realpath : CStr → Option CStr} {state last : ParseState}

/-- An accepted command line: the operands are two, and the first is deleted behind `args`. -/
def ParseState.HandsOver (last : ParseState) (realpath : CStr → Option CStr)
    (args operands : List CStr) (single : Bool) : Prop :=
  ∃ image mount nulls, operands = [image, mount] ∧
    last.argc = (args ++ [mount]).length ∧ last.argv = vector (args ++ [mount]) (nulls + 1) ∧
    last.options.adfFilename = some image ∧ last.options.mountPoint = realpath mount ∧
    last.options.singleThreadedFuseModeSet = single

/-- The part after the loop, when two operands are left. -/
theorem parseOperands_two {front : List CStr} {image mount : CStr} {nulls : ℕ}
    (hargc : state.argc = (front ++ [image, mount]).length)
    (hargv : state.argv = vector (front ++ [image, mount]) nulls)
    (hoptind : state.getopt.optind = front.length) :
    parseOperands realpath state = (true, { state with
      argc := (front ++ [mount]).length
      argv := vector (front ++ [mount]) (nulls + 1)
      options := { state.options with
        adfFilename := some image
        mountPoint := realpath mount } }) := by
  have hcount : ¬ (state.getopt.optind : ℤ) ≠ state.argc - 2 := by
    rw [hoptind, hargc, List.length_append]
    simp
  have himage : (vector (front ++ [image, mount]) nulls).getD front.length none = some image :=
    getD_vector front image [mount] nulls
  have hmount : (vector (front ++ [image, mount]) nulls).getD (front.length + 1) none =
      some mount := by
    have := getD_vector (front ++ [image]) mount [] nulls
    simpa using this
  have hdrop := dropArgs_vector front [image] [mount] nulls
  have hlength : (front ++ [image, mount]).length = front.length + 2 := by simp
  have hdropArg : dropArg (front.length + 2) (vector (front ++ [image, mount]) nulls)
      front.length = ((front ++ [mount]).length, vector (front ++ [mount]) (nulls + 1)) := by
    rw [dropArg_eq, ← hlength]
    simpa using hdrop
  rw [parseOperands, if_neg hcount, hargc, hargv, hlength]
  simp only [Nat.add_sub_cancel, himage, show front.length + 2 - 1 = front.length + 1 from rfl,
    hmount, hdropArg, Option.bind_some]

/-- The part after the loop. -/
theorem handsOver_of_parseOperands {front operands : List CStr} {nulls : ℕ}
    (haccepted : parseOperands realpath state = (true, last))
    (hargc : state.argc = (front ++ operands).length)
    (hargv : state.argv = vector (front ++ operands) nulls)
    (hoptind : state.getopt.optind = front.length) :
    last.HandsOver realpath front operands state.options.singleThreadedFuseModeSet := by
  by_cases hcount : (state.getopt.optind : ℤ) ≠ state.argc - 2
  · rw [parseOperands, if_pos hcount] at haccepted
    exact absurd (congrArg Prod.fst haccepted) (by simp)
  · have htwo : operands.length = 2 := by
      rw [hoptind, hargc, List.length_append] at hcount
      omega
    obtain ⟨image, mount, rfl⟩ := List.length_eq_two.mp htwo
    rw [parseOperands_two hargc hargv hoptind] at haccepted
    obtain ⟨-, rfl⟩ := Prod.mk.inj haccepted
    exact ⟨image, mount, nulls, rfl, rfl, rfl, rfl, rfl, rfl⟩

/-- A call of `getopt` that ends the loop. -/
theorem handsOver_of_getopt {front operands : List CStr} {nulls : ℕ} {d : GetoptData}
    (hgetopt : getopt validOptions state.argc state.argv state.getopt =
      (none, vector (front ++ operands) nulls, d))
    (hargc : state.argc = (front ++ operands).length) (hoptind : d.optind = front.length)
    (hends : Ends (parsePass realpath) state (true, last)) :
    last.HandsOver realpath front operands state.options.singleThreadedFuseModeSet := by
  have hpass : parsePass realpath state = .inr (parseOperands realpath
      { state with argv := vector (front ++ operands) nulls, getopt := d }) := by
    rw [parsePass, hgetopt]
  have hresult := hends.eq_of_done hpass
  have hover := handsOver_of_parseOperands hresult.symm hargc rfl hoptind
  exact hover

/-- Only operands are left. -/
theorem handsOver_of_operands {front operands recent skipped : List CStr} {nulls : ℕ}
    (h : state.Scans front operands recent skipped nulls)
    (hskipped : ∀ operand ∈ skipped, isOperand operand = true)
    (hends : Ends (parsePass realpath) state (true, last)) :
    last.HandsOver realpath (front ++ recent) (operands ++ skipped)
      state.options.singleThreadedFuseModeSet := by
  obtain ⟨d, hgetopt, hoptind⟩ := h.getopt_end validOptions hskipped
  have hargc : state.argc = (front ++ recent ++ (operands ++ skipped)).length := by
    rw [h.argc_eq]
    simp only [List.length_append]
    omega
  exact handsOver_of_getopt hgetopt hargc hoptind hends

/-- Behind a double dash everything is an operand. -/
theorem handsOver_of_dashes {front operands recent skipped left : List CStr} {nulls : ℕ}
    (h : state.Scans front operands recent (skipped ++ "--".toList :: left) nulls)
    (hskipped : ∀ operand ∈ skipped, isOperand operand = true)
    (hends : Ends (parsePass realpath) state (true, last)) :
    last.HandsOver realpath (front ++ recent ++ ["--".toList]) (operands ++ skipped ++ left)
      state.options.singleThreadedFuseModeSet := by
  obtain ⟨d, hgetopt, hoptind⟩ := h.getopt_dashes validOptions hskipped
  have hvector : front ++ recent ++ "--".toList :: (operands ++ skipped) ++ left =
      front ++ recent ++ ["--".toList] ++ (operands ++ skipped ++ left) := by simp
  have hargc : state.argc =
      (front ++ recent ++ ["--".toList] ++ (operands ++ skipped ++ left)).length := by
    rw [h.argc_eq]
    simp only [List.length_append, List.length_cons, List.length_nil]
    omega
  have hfront : d.optind = (front ++ recent ++ ["--".toList]).length := by
    simp only [hoptind, List.length_append, List.length_singleton]
  rw [hvector] at hgetopt
  exact handsOver_of_getopt hgetopt hargc hfront hends

/-- An accepted command line none of whose elements deletes the one before it is handed on as it is
read. -/
theorem handsOver_of_ends {front operands recent rest : List CStr} {nulls : ℕ}
    (h : state.Scans front operands recent rest nulls)
    (hends : Ends (parsePass realpath) state (true, last))
    (hhelp : last.options.help = false) (hversion : last.options.version = false)
    (hprevious : ∀ element ∈ (readArgs rest).elements, effect element.tail ≠ .dropPrevious) :
    last.HandsOver realpath (front ++ recent ++ (readArgs rest).kept)
      (operands ++ (readArgs rest).operands) (state.options.singleThreadedFuseModeSet ||
        (readArgs rest).elements.any fun element ↦ readsSingle element.tail) := by
  induction hn : rest.length using Nat.strong_induction_on
    generalizing front operands recent rest nulls state with
  | _ n ih =>
    have hskipped : ∀ operand ∈ rest.takeWhile isOperand, isOperand operand = true :=
      fun _ h ↦ List.mem_takeWhile_imp h
    have hread := readArgs_operands hskipped (rest.dropWhile isOperand)
    rw [List.takeWhile_append_dropWhile] at hread
    have hrest : rest.takeWhile isOperand ++ rest.dropWhile isOperand = rest :=
      List.takeWhile_append_dropWhile
    generalize rest.takeWhile isOperand = skipped at hskipped hread hrest
    cases hleft : rest.dropWhile isOperand with
    | nil =>
      rw [hleft, List.append_nil] at hrest
      subst hrest
      have hover := handsOver_of_operands h hskipped hends
      rw [hread, hleft]
      simpa [readArgs, CommandLine.empty, CommandLine.addOperands] using hover
    | cons element left =>
      have hoption : isOperand element = false := isOperand_of_dropWhile hleft
      rw [hleft] at hrest hread
      subst hrest
      by_cases hdashes : element = "--".toList
      · subst hdashes
        have hover := handsOver_of_dashes h hskipped hends
        rw [hread, readArgs_dashes]
        simpa [CommandLine.empty, CommandLine.addOperands] using hover
      · obtain ⟨argv, d, hinside, hgetopt⟩ :=
          h.getopt_element validOptions hskipped hoption hdashes
        have hpass : parsePass realpath { state with argv := argv, getopt := d } =
            parsePass realpath state := by
          rw [parsePass, parsePass, hgetopt]
        have hline : readArgs (element :: left) = _ := readArgs_element hoption hdashes
        have heffect : effect element.tail ≠ .dropPrevious := by
          intro hprev
          apply hprevious element _ hprev
          rw [hread, hline, hprev]
          simp [CommandLine.consElement, CommandLine.addOperands]
        obtain ⟨next, hnext, hsingle, hleaves⟩ := leaves_of_ends (tail_ne_nil hoption) hinside
          (hends.congr hpass) hhelp hversion heffect
        -- the rest of the loop, once it is known what it made of this element
        have hover : ∀ kept left' nulls',
            next.Scans (front ++ recent) (operands ++ skipped) kept left' nulls' →
            readArgs (element :: left) = (readArgs left').consElement element kept →
            left'.length ≤ left.length →
            last.HandsOver realpath
              (front ++ recent ++ (readArgs (skipped ++ element :: left)).kept)
              (operands ++ (readArgs (skipped ++ element :: left)).operands)
              (state.options.singleThreadedFuseModeSet ||
                (readArgs (skipped ++ element :: left)).elements.any
                  fun element ↦ readsSingle element.tail) := by
          intro kept left' nulls' hscans helement hlength
          have hlt : left'.length < n := by
            rw [← hn, List.length_append, List.length_cons]
            omega
          have hprevious' : ∀ other ∈ (readArgs left').elements,
              effect other.tail ≠ .dropPrevious := by
            intro other hmem
            apply hprevious other
            rw [hread, helement]
            simp [CommandLine.consElement, CommandLine.addOperands, hmem]
          have hih := ih left'.length hlt hscans hnext hprevious' rfl
          rw [hsingle] at hih
          rw [hread, helement]
          simpa [CommandLine.consElement, CommandLine.addOperands, Bool.or_assoc] using hih
        cases hcase : effect element.tail with
        | keep =>
          rw [hcase] at hleaves hline
          exact hover [element] left nulls hleaves hline le_rfl
        | keepNext =>
          rw [hcase] at hleaves hline
          obtain ⟨argument, left', rfl, hscans⟩ := hleaves
          exact hover [element, argument] left' nulls hscans hline (by simp)
        | drop =>
          rw [hcase] at hleaves hline
          exact hover [] left (nulls + 1) hleaves hline le_rfl
        | dropNext =>
          rw [hcase] at hleaves hline
          obtain ⟨argument, left', rfl, hscans⟩ := hleaves
          exact hover [] left' (nulls + 2) hscans hline (by simp)
        | dropPrevious => exact absurd hcase heffect
        | refuse =>
          rw [hcase] at hleaves
          exact hleaves.elim

end Lines

/-- The first pass begins between two elements. -/
theorem scans_start (name : CStr) (args : List CStr) :
    { ParseState.start (name :: args) with getopt := getoptInitialize .start }.Scans
      [name] [] [] args 1 := by
  exact ⟨rfl, rfl, rfl, rfl, rfl, rfl, rfl, by simp⟩

theorem parsePass_start (realpath : CStr → Option CStr) (name : CStr) (args : List CStr) :
    parsePass realpath { ParseState.start (name :: args) with getopt := getoptInitialize .start } =
      parsePass realpath (.start (name :: args)) := by
  have hgetopt := getopt_start validOptions (Nat.succ_pos args.length) (vector (name :: args) 1)
  have hstart : getopt validOptions (ParseState.start (name :: args)).argc
      (ParseState.start (name :: args)).argv (ParseState.start (name :: args)).getopt =
      getopt validOptions (name :: args).length (vector (name :: args) 1)
        (getoptInitialize .start) := hgetopt
  rw [parsePass, parsePass, hstart]
  rfl

end FuseAdf
