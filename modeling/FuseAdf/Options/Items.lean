import FuseAdf.Options.Reading

/-!
# Options of the command line, one by one

The options that the manual page has, how they are given, and what one of them makes the loop of
`parse_args` do when all options come before the operands.  `leaves` is what is then in front of the
index of the loop: the program name and what has been kept so far.  An attached argument of `p` or
`l` and an `i` that is not the last letter of its element take the last of that away, and when
nothing is left, the scanner starts anew.
-/

namespace FuseAdf

open Getopt WhileLoop

/-- An option with its argument.  Letters without an argument may be given in one element. -/
inductive CmdlineOption
  | partition (attached : Bool) (number : CStr)
  | logging (file : Option CStr)
  | fuseOptions (attached : Bool) (options : CStr)
  | flags (letters : List Char)
deriving DecidableEq, Repr

namespace CmdlineOption

/-- The elements of the command line. -/
def args : CmdlineOption → List CStr
  | partition true number => ['-' :: 'p' :: number]
  | partition false number => [['-', 'p'], number]
  | logging none => [['-', 'l']]
  | logging (some file) => ['-' :: 'l' :: file]
  | fuseOptions true options => ['-' :: 'o' :: options]
  | fuseOptions false options => [['-', 'o'], options]
  | flags letters => ['-' :: letters]

/-- A number is decimal and at most 10, what is attached is not empty, and a cluster has only letters
without an argument. -/
def WellFormed : CmdlineOption → Prop
  | partition _ number =>
      number ≠ [] ∧ (∀ c ∈ number, c.isDigit = true) ∧ digitsValue number ≤ 10
  | logging file => file ≠ some []
  | fuseOptions attached options => attached = true → options ≠ []
  | flags letters => letters ≠ [] ∧ ∀ c ∈ letters, c = 'i' ∨ c = 's' ∨ c = 'd' ∨ c = 'f'

instance : DecidablePred WellFormed
  | partition _ number =>
      letI : Decidable (∀ c ∈ number, c.isDigit = true) := List.decidableBAll _ _
      inferInstanceAs (Decidable (_ ∧ _))
  | logging _ => inferInstanceAs (Decidable (_ ≠ _))
  | fuseOptions _ _ => inferInstanceAs (Decidable (_ → _))
  | flags letters =>
      letI : Decidable (∀ c ∈ letters, c = 'i' ∨ c = 's' ∨ c = 'd' ∨ c = 'f') :=
        List.decidableBAll _ _
      inferInstanceAs (Decidable (_ ∧ _))

/-- What one letter without an argument sets. -/
def setFlag (options : CmdlineOptions) (c : Char) : CmdlineOptions :=
  if c = 'i' then { options with ignoreChecksumErrors := true }
  else if c = 's' then { options with singleThreadedFuseModeSet := true }
  else options

/-- What the option sets. -/
def sets : CmdlineOption → CmdlineOptions → CmdlineOptions
  | partition _ number, options =>
      { options with adfVolume := BitVec.ofNat 32 (digitsValue number) }
  | logging file, options =>
      { options with loggingFile := some (file.getD "fuseadf.log".toList) }
  | fuseOptions _ text, options =>
      if text = "ro".toList then { options with writeMode := false } else options
  | flags letters, options => letters.foldl setFlag options

/-- The elements before the last one, if there are any. -/
def withoutLast (front : List CStr) : Option (List CStr) :=
  if front.dropLast = [] then none else some front.dropLast

/-- What the letters of an element leave in front of the index. -/
def flagsLeave (element : CStr) : List Char → List CStr → Option (List CStr)
  | [], front => some front
  | c :: letters, front =>
      if letters = [] then some (if c = 'i' then front else front ++ [element])
      else if c = 'i' then (withoutLast front).bind (flagsLeave element letters)
      else flagsLeave element letters front

/-- What the option leaves in front of the index, or `none` where nothing is left. -/
def leaves : CmdlineOption → List CStr → Option (List CStr)
  | partition true _, front => withoutLast front
  | partition false _, front => some front
  | logging none, front => some front
  | logging (some _), front => withoutLast front
  | fuseOptions attached options, front => some (front ++ (fuseOptions attached options).args)
  | flags letters, front => flagsLeave ('-' :: letters) letters front

/-- What a list of options leaves. -/
def leavesAll : List CmdlineOption → List CStr → Option (List CStr)
  | [], front => some front
  | option :: options, front => (option.leaves front).bind (leavesAll options)

end CmdlineOption

open CmdlineOption

theorem isSpace_of_isDigit {c : Char} (hc : c.isDigit = true) : isSpace c = false := by
  have hne : ∀ other : Char, other.isDigit = false → c ≠ other := by
    intro other hother heq
    rw [heq, hother] at hc
    exact absurd hc (by simp)
  simp [isSpace, hne ' ' rfl, hne '\t' rfl, hne '\n' rfl, hne '\x0b' rfl, hne '\x0c' rfl,
    hne '\r' rfl]

/-- Digits have no sign before them. -/
theorem signAndDigits_number {number : CStr} (hdigits : ∀ c ∈ number, c.isDigit = true) :
    signAndDigits number = (false, number) := by
  have hall : number.takeWhile Char.isDigit = number := List.takeWhile_eq_self_iff.mpr hdigits
  unfold signAndDigits
  split
  · exact absurd (hdigits '-' (by simp)) (by decide)
  · exact absurd (hdigits '+' (by simp)) (by decide)
  · rw [hall]

theorem strtoul_number {number : CStr} (hne : number ≠ [])
    (hdigits : ∀ c ∈ number, c.isDigit = true) (hle : digitsValue number ≤ 10) :
    strtoul number = some (BitVec.ofNat 64 (digitsValue number)) := by
  have hspace : number.dropWhile isSpace = number := by
    apply List.dropWhile_eq_self_iff.mpr
    intro hlength
    rw [isSpace_of_isDigit (hdigits _ (List.getElem_mem hlength))]
    simp
  have hsmall : ¬ digitsValue number ≥ 2 ^ 64 := by omega
  rw [strtoul, hspace, signAndDigits_number hdigits]
  simp only [if_neg hne, if_neg hsmall]
  rfl

/-! ## Passes of the loop -/

/-- The loop is between two elements, and all operands are behind them. -/
abbrev ParseState.Reads (state : ParseState) (front rest : List CStr) (nulls : ℕ) : Prop :=
  Unskipped front rest nulls state.argc state.argv state.getopt

/-- The loop is inside an element, and all operands are behind it. -/
abbrev ParseState.ReadsInside (state : ParseState) (front : List CStr) (element : CStr)
    (letters : List Char) (rest : List CStr) (nulls : ℕ) : Prop :=
  UnskippedInside front element letters rest nulls state.argc state.argv state.getopt

/-- The loop ends as from a state with `left` in front of the index or, if that is nothing, as from
one that has only `args` in its vector. -/
def ParseState.GetsTo (realpath : CStr → Option CStr) (state : ParseState)
    (left : Option (List CStr)) (args rest : List CStr) (options : CmdlineOptions) : Prop :=
  ∃ next, EndsAlike (parsePass realpath) state next ∧
    match left with
    | some front => next.options = options ∧ ∃ nulls, next.Reads front rest nulls
    | none => ∀ arg, some arg ∈ next.argv → arg ∈ args

section Passes

variable {realpath : CStr → Option CStr} {state : ParseState} {front rest : List CStr}
  {element letters : List Char} {nulls : ℕ} {c : Char}

variable (realpath) in
/-- The pass at an option element is the one inside it. -/
theorem ParseState.Reads.inside (h : state.Reads front (('-' :: c :: letters) :: rest) nulls)
    (hc : c ≠ '-') :
    ∃ inner : ParseState, EndsAlike (parsePass realpath) state inner ∧
      inner.options = state.options ∧
      inner.ReadsInside front ('-' :: c :: letters) (c :: letters) rest nulls := by
  have hdashes : '-' :: c :: letters ≠ "--".toList := by
    intro heq
    exact hc (List.cons.inj (List.cons.inj heq).2).1
  obtain ⟨argv, d, hinside, hgetopt⟩ := h.getopt_element validOptions rfl hdashes
  refine ⟨{ state with argv := argv, getopt := d }, .of_eq ?_, rfl, hinside⟩
  rw [parsePass, parsePass, hgetopt]

theorem parseOption_letter (hc : c = 's' ∨ c = 'd' ∨ c = 'f') (state : ParseState) :
    parseOption state c = .inl { state with options := setFlag state.options c } := by
  rcases hc with rfl | rfl | rfl <;> rfl

theorem parseOption_ignore (state : ParseState) :
    parseOption state 'i' =
      .inl ({ state with options := setFlag state.options 'i' }.drop 1 1) := rfl

theorem parseOption_number {number : CStr} (hne : number ≠ [])
    (hdigits : ∀ c ∈ number, c.isDigit = true) (hle : digitsValue number ≤ 10)
    (state : ParseState) (hoptarg : state.getopt.optarg = some number) (attached : Bool) :
    parseOption state 'p' =
      .inl ({ state with options := (partition attached number).sets state.options }.drop 2 2) := by
  have hvolume : (BitVec.ofNat 64 (digitsValue number)).setWidth 32 =
      BitVec.ofNat 32 (digitsValue number) := by
    simp
  have hsmall : ¬ (BitVec.ofNat 32 (digitsValue number)).toNat > 10 := by
    rw [BitVec.toNat_ofNat]
    omega
  rw [parseOption, hoptarg, Option.bind_some, strtoul_number hne hdigits hle]
  simp only [hvolume, if_neg hsmall]
  rfl

theorem parseOption_logging (file : Option CStr) (state : ParseState)
    (hoptarg : state.getopt.optarg = file) :
    parseOption state 'l' =
      .inl ({ state with options := (logging file).sets state.options }.drop
        (if file.isSome then 2 else 1) (if file.isSome then 2 else 1)) := by
  rw [parseOption, hoptarg]
  cases file <;> rfl

theorem parseOption_fuseOptions (attached : Bool) (options : CStr) (state : ParseState)
    (hoptarg : state.getopt.optarg = some options) :
    parseOption state 'o' =
      .inl { state with options := (fuseOptions attached options).sets state.options } := by
  rw [parseOption, hoptarg]
  simp only [sets, Option.some.injEq]
  split_ifs <;> rfl

theorem ParseState.GetsTo.of_alike {inner : ParseState} {left : Option (List CStr)}
    {args : List CStr} {options : CmdlineOptions}
    (h : inner.GetsTo realpath left args rest options)
    (halike : EndsAlike (parsePass realpath) state inner) :
    state.GetsTo realpath left args rest options := by
  obtain ⟨next, hnext, hleft⟩ := h
  exact ⟨next, halike.trans hnext, hleft⟩

theorem mem_of_mem_vector {args : List CStr} {arg : CStr} (h : some arg ∈ vector args nulls) :
    arg ∈ args := by
  simpa [vector] using h

/-- The elements read last are deleted. -/
theorem ParseState.Reads.drop {segment : List CStr}
    (h : state.Reads (front ++ segment) rest nulls) (hfront : front ≠ []) :
    (state.drop segment.length segment.length).Reads front rest (nulls + segment.length) := by
  have hoptind : state.getopt.optind = front.length + segment.length := by
    rw [h.optind, List.length_append]
  rw [ParseState.Reads, state.drop_vector h.argc_eq h.argv_eq hoptind]
  exact ⟨rfl, rfl, rfl, h.nonopts, h.nextchar, h.initialized, hfront⟩

theorem withoutLast_concat (init : List CStr) (last : CStr) :
    withoutLast (init ++ [last]) = if init = [] then none else some init := by
  rw [withoutLast, List.dropLast_concat]

/-- The element read last is deleted with the one before it. -/
theorem ParseState.Reads.getsTo_drop (h : state.Reads (front ++ [element]) rest nulls)
    (hfront : front ≠ []) :
    (state.drop 2 2).GetsTo realpath (withoutLast front) (element :: rest) rest state.options := by
  obtain ⟨init, last, rfl⟩ := (List.eq_nil_or_concat' front).resolve_left hfront
  rw [List.append_assoc, List.singleton_append] at h
  refine ⟨state.drop 2 2, fun _ ↦ Iff.rfl, ?_⟩
  rw [withoutLast_concat]
  by_cases hinit : init = []
  · subst hinit
    have hoptind : state.getopt.optind = ([] : List CStr).length + [last, element].length := h.optind
    have hdrop : state.drop 2 2 = _ := state.drop_vector h.argc_eq h.argv_eq hoptind
    rw [if_pos rfl, hdrop]
    exact fun arg harg ↦ List.mem_cons_of_mem element (mem_of_mem_vector harg)
  · rw [if_neg hinit]
    exact ⟨rfl, _, h.drop hinit⟩

/-- The element before the one that is being read is deleted. -/
theorem ParseState.ReadsInside.getsTo_drop (h : state.ReadsInside front element letters rest nulls)
    {left : List CStr → Option (List CStr)} {options : CmdlineOptions}
    (hnext : ∀ init nulls, (state.drop 1 1).ReadsInside init element letters rest nulls →
      (state.drop 1 1).GetsTo realpath (left init) (element :: rest) rest options) :
    (state.drop 1 1).GetsTo realpath ((withoutLast front).bind left) (element :: rest) rest
      options := by
  obtain ⟨init, last, rfl⟩ := (List.eq_nil_or_concat' front).resolve_left h.front_ne
  have hoptind : state.getopt.optind = init.length + [last].length := by
    rw [h.optind, List.length_append]
  have hdrop : state.drop 1 1 = _ := state.drop_vector h.argc_eq h.argv_eq hoptind
  rw [withoutLast_concat]
  by_cases hinit : init = []
  · subst hinit
    refine ⟨_, fun _ ↦ Iff.rfl, ?_⟩
    rw [hdrop]
    exact fun arg ↦ mem_of_mem_vector
  · rw [if_neg hinit]
    apply hnext init
    rw [hdrop]
    exact ⟨rfl, rfl, rfl, h.nonopts, h.nextchar, h.initialized, hinit⟩

/-- The letters of a cluster. -/
theorem ParseState.ReadsInside.getsTo_flags
    (h : state.ReadsInside front element letters rest nulls) (hne : letters ≠ [])
    (hletters : ∀ c ∈ letters, c = 'i' ∨ c = 's' ∨ c = 'd' ∨ c = 'f') :
    state.GetsTo realpath (flagsLeave element letters front) (element :: rest) rest
      (letters.foldl setFlag state.options) := by
  induction letters generalizing state front nulls with
  | nil => exact absurd rfl hne
  | cons c letters ih =>
    have hno : takesArgument validOptions c = some .no := by
      rcases hletters c (by simp) with rfl | rfl | rfl | rfl <;> decide
    have hrest : ∀ c ∈ letters, c = 'i' ∨ c = 's' ∨ c = 'd' ∨ c = 'f' :=
      fun c hmem ↦ hletters c (by simp [hmem])
    rw [flagsLeave, List.foldl_cons]
    by_cases hlast : letters = []
    · subst hlast
      obtain ⟨d, hgetopt, -, hreads⟩ := h.getopt_last (Or.inl hno)
      have hpass : parsePass realpath state = _ := parsePass_of_getopt hgetopt
      rw [if_pos rfl]
      by_cases hi : c = 'i'
      · subst hi
        rw [parseOption_ignore] at hpass
        have hafter : ParseState.Reads
            { state with getopt := d, options := setFlag state.options 'i' }
            (front ++ [element]) rest nulls := hreads
        exact ⟨_, .of_more hpass, rfl, _, hafter.drop h.front_ne⟩
      · rw [parseOption_letter ((hletters c (by simp)).resolve_left hi)] at hpass
        rw [if_neg hi]
        exact ⟨_, .of_more hpass, rfl, _, hreads⟩
    · obtain ⟨d, hgetopt, hinside⟩ := h.getopt_flag hno hlast
      have hpass : parsePass realpath state = _ := parsePass_of_getopt hgetopt
      rw [if_neg hlast]
      by_cases hi : c = 'i'
      · subst hi
        rw [parseOption_ignore] at hpass
        have hafter : ParseState.ReadsInside
            { state with getopt := d, options := setFlag state.options 'i' }
            front element letters rest nulls := hinside
        rw [if_pos rfl]
        apply ParseState.GetsTo.of_alike _ (.of_more hpass)
        exact hafter.getsTo_drop fun init nulls hnext ↦ ih hnext hlast hrest
      · rw [parseOption_letter ((hletters c (by simp)).resolve_left hi)] at hpass
        rw [if_neg hi]
        have hafter : ParseState.ReadsInside
            { state with getopt := d, options := setFlag state.options c }
            front element letters rest nulls := hinside
        apply ParseState.GetsTo.of_alike _ (.of_more hpass)
        exact ih hafter hlast hrest

/-- Where the switch is reached with an argument, or without one, and the state it goes on from. -/
structure ParseState.Switches (realpath : CStr → Option CStr) (state after : ParseState) (c : Char)
    (optarg : Option CStr) : Prop where
  options : after.options = state.options
  optarg : after.getopt.optarg = optarg
  alike : ∀ next, parseOption after c = .inl next → EndsAlike (parsePass realpath) state next

theorem ParseState.switches_of_getopt {inner : ParseState} {d : GetoptData}
    (halike : EndsAlike (parsePass realpath) state inner) (hoptions : inner.options = state.options)
    (hgetopt : Getopt.getopt validOptions inner.argc inner.argv inner.getopt = (some c, inner.argv, d)) :
    state.Switches realpath { inner with getopt := d } c d.optarg :=
  ⟨hoptions, rfl, fun _ hnext ↦
    halike.trans (.of_more ((parsePass_of_getopt hgetopt).trans hnext))⟩

variable (realpath) in
/-- The argument is the rest of the element. -/
theorem ParseState.Reads.attached (h : state.Reads front (('-' :: c :: letters) :: rest) nulls)
    (hc : c ≠ '-') (htakes : takesArgument validOptions c = some .required ∨
      takesArgument validOptions c = some .optional) (hletters : letters ≠ []) :
    ∃ after, state.Switches realpath after c (some letters) ∧
      after.Reads (front ++ ['-' :: c :: letters]) rest nulls := by
  obtain ⟨inner, halike, hoptions, hinside⟩ := h.inside realpath hc
  obtain ⟨d, hgetopt, hoptarg, hreads⟩ := hinside.getopt_attached htakes hletters
  rw [← hoptarg]
  exact ⟨_, ParseState.switches_of_getopt halike hoptions hgetopt, hreads⟩

variable (realpath) in
/-- The argument is the next element. -/
theorem ParseState.Reads.separate {argument : CStr}
    (h : state.Reads front (['-', c] :: argument :: rest) nulls) (hc : c ≠ '-')
    (htakes : takesArgument validOptions c = some .required) :
    ∃ after, state.Switches realpath after c (some argument) ∧
      after.Reads (front ++ [['-', c], argument]) rest nulls := by
  obtain ⟨inner, halike, hoptions, hinside⟩ := h.inside realpath hc
  obtain ⟨d, hgetopt, hoptarg, hreads⟩ := hinside.getopt_separate htakes
  rw [← hoptarg]
  exact ⟨_, ParseState.switches_of_getopt halike hoptions hgetopt, hreads⟩

variable (realpath) in
/-- There is no argument. -/
theorem ParseState.Reads.bare (h : state.Reads front (['-', c] :: rest) nulls) (hc : c ≠ '-')
    (htakes : takesArgument validOptions c = some .optional) :
    ∃ after, state.Switches realpath after c none ∧
      after.Reads (front ++ [['-', c]]) rest nulls := by
  obtain ⟨inner, halike, hoptions, hinside⟩ := h.inside realpath hc
  obtain ⟨d, hgetopt, hoptarg, hreads⟩ := hinside.getopt_last (Or.inr htakes)
  rw [← hoptarg]
  exact ⟨_, ParseState.switches_of_getopt halike hoptions hgetopt, hreads⟩

theorem takesArgument_partition : takesArgument validOptions 'p' = some .required := by decide

theorem takesArgument_logging : takesArgument validOptions 'l' = some .optional := by decide

theorem takesArgument_fuseOptions : takesArgument validOptions 'o' = some .required := by decide

theorem ParseState.Reads.getsTo_partition {attached : Bool} {number : CStr}
    (hwf : (partition attached number).WellFormed)
    (h : state.Reads front ((partition attached number).args ++ rest) nulls) :
    state.GetsTo realpath ((partition attached number).leaves front)
      ((partition attached number).args ++ rest) rest
      ((partition attached number).sets state.options) := by
  obtain ⟨hne, hdigits, hle⟩ := hwf
  cases attached with
  | true =>
    obtain ⟨after, hswitch, hreads⟩ := ParseState.Reads.attached realpath h
      (by decide) (Or.inl takesArgument_partition) hne
    have hoption := parseOption_number hne hdigits hle after hswitch.optarg true
    rw [hswitch.options] at hoption
    apply ParseState.GetsTo.of_alike _ (hswitch.alike _ hoption)
    have hreads' : ParseState.Reads
        { after with options := (partition true number).sets state.options }
        (front ++ ['-' :: 'p' :: number]) rest nulls := hreads
    exact hreads'.getsTo_drop h.front_ne
  | false =>
    obtain ⟨after, hswitch, hreads⟩ := ParseState.Reads.separate realpath h
      (by decide) takesArgument_partition
    have hoption := parseOption_number hne hdigits hle after hswitch.optarg false
    rw [hswitch.options] at hoption
    have hreads' : ParseState.Reads
        { after with options := (partition false number).sets state.options }
        (front ++ [['-', 'p'], number]) rest nulls := hreads
    exact ⟨_, hswitch.alike _ hoption, rfl, _, hreads'.drop h.front_ne⟩

theorem ParseState.Reads.getsTo_logging {file : Option CStr} (hwf : (logging file).WellFormed)
    (h : state.Reads front ((logging file).args ++ rest) nulls) :
    state.GetsTo realpath ((logging file).leaves front) ((logging file).args ++ rest) rest
      ((logging file).sets state.options) := by
  cases file with
  | none =>
    obtain ⟨after, hswitch, hreads⟩ := ParseState.Reads.bare realpath h
      (by decide) takesArgument_logging
    have hoption := parseOption_logging none after hswitch.optarg
    rw [hswitch.options] at hoption
    have hreads' : ParseState.Reads { after with options := (logging none).sets state.options }
        (front ++ [['-', 'l']]) rest nulls := hreads
    exact ⟨_, hswitch.alike _ hoption, rfl, _, hreads'.drop h.front_ne⟩
  | some file =>
    have hne : file ≠ [] := fun hnil ↦ hwf (by rw [hnil])
    obtain ⟨after, hswitch, hreads⟩ := ParseState.Reads.attached realpath h
      (by decide) (Or.inr takesArgument_logging) hne
    have hoption := parseOption_logging (some file) after hswitch.optarg
    rw [hswitch.options] at hoption
    apply ParseState.GetsTo.of_alike _ (hswitch.alike _ hoption)
    have hreads' : ParseState.Reads
        { after with options := (logging (some file)).sets state.options }
        (front ++ ['-' :: 'l' :: file]) rest nulls := hreads
    exact hreads'.getsTo_drop h.front_ne

theorem ParseState.Reads.getsTo_fuseOptions {attached : Bool} {options : CStr}
    (hwf : (fuseOptions attached options).WellFormed)
    (h : state.Reads front ((fuseOptions attached options).args ++ rest) nulls) :
    state.GetsTo realpath ((fuseOptions attached options).leaves front)
      ((fuseOptions attached options).args ++ rest) rest
      ((fuseOptions attached options).sets state.options) := by
  have hafter : ∃ after, state.Switches realpath after 'o' (some options) ∧
      after.Reads (front ++ (fuseOptions attached options).args) rest nulls := by
    cases attached with
    | true =>
      exact ParseState.Reads.attached realpath h (by decide) (Or.inl takesArgument_fuseOptions) (hwf rfl)
    | false => exact ParseState.Reads.separate realpath h (by decide) takesArgument_fuseOptions
  obtain ⟨after, hswitch, hreads⟩ := hafter
  have hoption := parseOption_fuseOptions attached options after hswitch.optarg
  rw [hswitch.options] at hoption
  exact ⟨_, hswitch.alike _ hoption, rfl, _, hreads⟩

/-- One option. -/
theorem ParseState.Reads.getsTo_option {option : CmdlineOption} (hwf : option.WellFormed)
    (h : state.Reads front (option.args ++ rest) nulls) :
    state.GetsTo realpath (option.leaves front) (option.args ++ rest) rest
      (option.sets state.options) := by
  cases option with
  | partition attached number => exact h.getsTo_partition hwf
  | logging file => exact h.getsTo_logging hwf
  | fuseOptions attached options => exact h.getsTo_fuseOptions hwf
  | flags letters =>
    obtain ⟨hne, hletters⟩ := hwf
    obtain ⟨c, letters, rfl⟩ := List.exists_cons_of_ne_nil hne
    have hc : c ≠ '-' := by
      rcases hletters c (by simp) with rfl | rfl | rfl | rfl <;> decide
    obtain ⟨inner, halike, hoptions, hinside⟩ :=
      ParseState.Reads.inside realpath h hc
    apply ParseState.GetsTo.of_alike _ halike
    rw [← hoptions]
    exact hinside.getsTo_flags hne hletters

end Passes

end FuseAdf
