import FuseAdf.Options.Items

/-!
# The documented command line

A command line of documented options, an image and a mount point should set what the last of its
options say and leave the options of FUSE in the vector.  It does so if no option takes away what has
been kept before it.  When one does, either the vector is too short in the end, or the program name
is no longer in it.
-/

namespace FuseAdf

open Getopt WhileLoop

/-- The program name, the options, and the two operands. -/
def commandLine (name : CStr) (options : List CmdlineOption) (image mount : CStr) : List CStr :=
  name :: (options.flatMap CmdlineOption.args ++ [image, mount])

namespace CmdlineOption

/-- The partition that the option names. -/
def volume? : CmdlineOption → Option (BitVec 32)
  | partition _ number => some (BitVec.ofNat 32 (digitsValue number))
  | _ => none

/-- The file that the option names. -/
def file? : CmdlineOption → Option CStr
  | logging file => some (file.getD "fuseadf.log".toList)
  | _ => none

/-- Whether the option has an `i`. -/
def ignores : CmdlineOption → Bool
  | flags letters => letters.contains 'i'
  | _ => false

/-- What should be left of the option: what is for FUSE, as it was given, except that flags may be
put into elements in another way. -/
def Keeps : CmdlineOption → List CStr → Prop
  | partition _ _, kept => kept = []
  | logging _, kept => kept = []
  | fuseOptions attached options, kept => kept = (fuseOptions attached options).args
  | flags letters, kept => ∃ groups : List (List Char), [] ∉ groups ∧
      groups.flatten = letters.filter (· ≠ 'i') ∧ kept = groups.map ('-' :: ·)

/-- Nothing is taken away that was kept before the option, or together with an `i`. -/
def Spares : CmdlineOption → Prop
  | partition attached _ => attached = false
  | logging file => file = none
  | fuseOptions _ _ => True
  | flags letters => 'i' ∈ letters → letters = ['i']

instance : DecidablePred Spares
  | partition _ _ => inferInstanceAs (Decidable (_ = _))
  | logging _ => inferInstanceAs (Decidable (_ = _))
  | fuseOptions _ _ => inferInstanceAs (Decidable True)
  | flags _ => inferInstanceAs (Decidable (_ → _))

end CmdlineOption

open CmdlineOption

/-- What the options and the vector should be after `parse_args`. -/
structure AsDocumented (realpath : CStr → Option CStr) (name : CStr) (options : List CmdlineOption)
    (image mount : CStr) (last : ParseState) : Prop where
  adfVolume : last.options.adfVolume = (options.filterMap volume?).getLast?.getD 0
  loggingFile : last.options.loggingFile = (options.filterMap file?).getLast?
  ignoreChecksumErrors : last.options.ignoreChecksumErrors = options.any ignores
  adfFilename : last.options.adfFilename = some image
  mountPoint : last.options.mountPoint = realpath mount
  argv : ∃ kept, List.Forall₂ Keeps options kept ∧
    last.argv.take last.argc = (name :: kept.flatten ++ [mount]).map some

/-- `parse_args` accepts the command line, with the documented result. -/
def ParsedAsDocumented (realpath : CStr → Option CStr) (name : CStr) (options : List CmdlineOption)
    (image mount : CStr) : Prop :=
  ∃ fuel last, parseArgs realpath fuel (commandLine name options image mount) = some (true, last) ∧
    AsDocumented realpath name options image mount last

/-- The value that is set last stays. -/
theorem foldl_sets_last {α : Type*} (field : CmdlineOptions → α) (value? : CmdlineOption → Option α)
    (hsets : ∀ option set, field (option.sets set) = (value? option).getD (field set))
    (options : List CmdlineOption) (set : CmdlineOptions) :
    field (options.foldl (fun set option ↦ option.sets set) set) =
      (options.filterMap value?).getLast?.getD (field set) := by
  induction options using List.reverseRecOn with
  | nil => rfl
  | append_singleton options option ih =>
    rw [List.foldl_append, List.foldl_cons, List.foldl_nil, hsets, ih, List.filterMap_append]
    cases hvalue : value? option <;> simp [hvalue]

theorem foldl_setFlag (letters : List Char) (set : CmdlineOptions) :
    letters.foldl setFlag set = { set with
      ignoreChecksumErrors := set.ignoreChecksumErrors || letters.contains 'i'
      singleThreadedFuseModeSet := set.singleThreadedFuseModeSet || letters.contains 's' } := by
  induction letters generalizing set with
  | nil => simp
  | cons c letters ih =>
    rw [List.foldl_cons, ih]
    unfold setFlag
    split_ifs with hi hs
    · subst hi
      simp
    · subst hs
      simp
    · have hi' : ¬ 'i' = c := fun h ↦ hi h.symm
      have hs' : ¬ 's' = c := fun h ↦ hs h.symm
      simp [hi', hs']

theorem sets_adfVolume (option : CmdlineOption) (set : CmdlineOptions) :
    (option.sets set).adfVolume = option.volume?.getD set.adfVolume := by
  cases option with
  | partition | logging => rfl
  | fuseOptions attached text =>
    simp only [sets]
    split_ifs <;> rfl
  | flags letters =>
    rw [sets, foldl_setFlag]
    rfl

theorem sets_loggingFile (option : CmdlineOption) (set : CmdlineOptions) :
    (option.sets set).loggingFile = (option.file?.map some).getD set.loggingFile := by
  cases option with
  | partition | logging => rfl
  | fuseOptions attached text =>
    simp only [sets]
    split_ifs <;> rfl
  | flags letters =>
    rw [sets, foldl_setFlag]
    rfl

theorem foldl_sets_ignores (options : List CmdlineOption) (set : CmdlineOptions) :
    (options.foldl (fun set option ↦ option.sets set) set).ignoreChecksumErrors =
      (set.ignoreChecksumErrors || options.any ignores) := by
  induction options generalizing set with
  | nil => simp
  | cons option options ih =>
    have hsets : (option.sets set).ignoreChecksumErrors =
        (set.ignoreChecksumErrors || option.ignores) := by
      cases option with
      | partition | logging => simp [sets, ignores]
      | fuseOptions attached text =>
        simp only [sets, ignores, Bool.or_false]
        split_ifs <;> rfl
      | flags letters => rw [sets, foldl_setFlag, ignores]
    rw [List.foldl_cons, ih, hsets, List.any_cons, Bool.or_assoc]

section Leaves

variable {front left : List CStr} {element letters : List Char}

theorem length_withoutLast (h : withoutLast front = some left) : left.length < front.length := by
  rw [withoutLast] at h
  split_ifs at h with hnil
  obtain rfl := Option.some.inj h
  have hne : front ≠ [] := by
    intro hfront
    rw [hfront] at hnil
    exact hnil rfl
  have hpos := List.length_pos_iff.mpr hne
  rw [List.length_dropLast]
  omega

/-- A cluster adds at most its element. -/
theorem length_flagsLeave_le (h : flagsLeave element letters front = some left) :
    left.length ≤ front.length + 1 := by
  induction letters generalizing front with
  | nil =>
    obtain rfl := Option.some.inj h
    omega
  | cons c letters ih =>
    rw [flagsLeave] at h
    split_ifs at h with hlast hi hi
    · obtain rfl := Option.some.inj h
      omega
    · obtain rfl := Option.some.inj h
      rw [List.length_append, List.length_singleton]
    · obtain ⟨middle, hmiddle, hleft⟩ := Option.bind_eq_some_iff.mp h
      have hlt := length_withoutLast hmiddle
      have hle := ih hleft
      omega
    · exact ih h

/-- With an `i` it adds nothing. -/
theorem length_flagsLeave_of_mem (hi : 'i' ∈ letters)
    (h : flagsLeave element letters front = some left) : left.length ≤ front.length := by
  induction letters generalizing front with
  | nil => exact absurd hi (by simp)
  | cons c letters ih =>
    rw [flagsLeave] at h
    split_ifs at h with hlast hc hc
    · obtain rfl := Option.some.inj h
      omega
    · subst hlast
      exact absurd (List.mem_singleton.mp hi).symm hc
    · obtain ⟨middle, hmiddle, hleft⟩ := Option.bind_eq_some_iff.mp h
      have hlt := length_withoutLast hmiddle
      have hle := length_flagsLeave_le hleft
      omega
    · have hrest : 'i' ∈ letters := (List.mem_cons.mp hi).resolve_left fun heq ↦ hc heq.symm
      exact ih hrest h

/-- With several of them, and nothing else, it takes something away. -/
theorem length_flagsLeave_of_all (hall : ∀ c ∈ letters, c = 'i') (hlong : letters ≠ ['i'])
    (hne : letters ≠ []) (h : flagsLeave element letters front = some left) :
    left.length < front.length := by
  obtain ⟨c, letters, rfl⟩ := List.exists_cons_of_ne_nil hne
  obtain rfl : c = 'i' := hall c (by simp)
  have hrest : letters ≠ [] := fun hnil ↦ hlong (by rw [hnil])
  obtain ⟨d, letters, rfl⟩ := List.exists_cons_of_ne_nil hrest
  obtain rfl : d = 'i' := hall d (by simp)
  rw [flagsLeave, if_neg hrest, if_pos rfl] at h
  obtain ⟨middle, hmiddle, hleft⟩ := Option.bind_eq_some_iff.mp h
  have hlt := length_withoutLast hmiddle
  have hle := length_flagsLeave_of_mem (by simp) hleft
  omega

/-- The groups of flags that should be left. -/
theorem groups_of_filter {groups : List (List Char)} (hempty : [] ∉ groups)
    (hgroups : groups.flatten = letters.filter (· ≠ 'i')) :
    groups = [] ↔ ∀ c ∈ letters, c = 'i' := by
  have hflatten : groups.flatten = [] ↔ groups = [] := by
    constructor
    · intro h
      rw [List.flatten_eq_nil_iff] at h
      by_contra hne
      obtain ⟨group, groups, rfl⟩ := List.exists_cons_of_ne_nil hne
      exact hempty (by simp [h group (by simp)])
    · rintro rfl
      rfl
  rw [← hflatten, hgroups, List.filter_eq_nil_iff]
  simp

/-- An option leaves no more than it should, and less if it does not spare the others. -/
theorem length_leaves {option : CmdlineOption} (hwf : option.WellFormed) {kept : List CStr}
    (hkept : option.Keeps kept) (h : option.leaves front = some left) :
    left.length ≤ front.length + kept.length ∧
      (left.length = front.length + kept.length → option.Spares) := by
  cases option with
  | partition attached number =>
    obtain rfl : kept = [] := hkept
    cases attached with
    | true =>
      have hlt := length_withoutLast h
      rw [List.length_nil]
      omega
    | false =>
      obtain rfl := Option.some.inj h
      exact ⟨by simp, fun _ ↦ rfl⟩
  | logging file =>
    obtain rfl : kept = [] := hkept
    cases file with
    | none =>
      obtain rfl := Option.some.inj h
      exact ⟨by simp, fun _ ↦ rfl⟩
    | some file =>
      have hlt := length_withoutLast h
      rw [List.length_nil]
      omega
  | fuseOptions attached options =>
    obtain rfl : kept = _ := hkept
    obtain rfl := Option.some.inj h
    exact ⟨by simp, fun _ ↦ trivial⟩
  | flags letters =>
    obtain ⟨hne, hletters⟩ := hwf
    obtain ⟨groups, hempty, hgroups, rfl⟩ := hkept
    have hnil := groups_of_filter hempty hgroups
    have hflags : flagsLeave ('-' :: letters) letters front = some left := h
    rw [List.length_map]
    by_cases hi : 'i' ∈ letters
    · have hle := length_flagsLeave_of_mem hi hflags
      by_cases hall : ∀ c ∈ letters, c = 'i'
      · by_cases hone : letters = ['i']
        · exact ⟨by omega, fun _ _ ↦ hone⟩
        · have hlt := length_flagsLeave_of_all hall hone hne hflags
          have hzero := hnil.mpr hall
          rw [hzero, List.length_nil]
          omega
      · have hpos := List.length_pos_iff.mpr fun h ↦ hall (hnil.mp h)
        omega
    · have hle := length_flagsLeave_le hflags
      have hpos : 0 < groups.length := by
        apply List.length_pos_iff.mpr
        intro hgroup
        obtain ⟨c, rest, rfl⟩ := List.exists_cons_of_ne_nil hne
        exact hi (by simp [hnil.mp hgroup c (by simp)])
      exact ⟨by omega, fun _ h ↦ absurd h hi⟩

/-- Without an `i` a cluster adds its element. -/
theorem flagsLeave_of_not_mem (hne : letters ≠ []) (hi : 'i' ∉ letters) :
    flagsLeave element letters front = some (front ++ [element]) := by
  induction letters with
  | nil => exact absurd rfl hne
  | cons c letters ih =>
    have hc : c ≠ 'i' := fun h ↦ hi (by simp [h])
    have hrest : 'i' ∉ letters := fun h ↦ hi (by simp [h])
    rw [flagsLeave, if_neg hc, if_neg hc]
    split_ifs with hlast
    · rfl
    · exact ih hlast hrest

/-- An option that spares the others adds what should be left of it. -/
theorem leaves_of_spares {option : CmdlineOption} (hwf : option.WellFormed)
    (hspares : option.Spares) (front : List CStr) :
    ∃ kept, option.Keeps kept ∧ option.leaves front = some (front ++ kept) := by
  cases option with
  | partition attached number =>
    obtain rfl : attached = false := hspares
    exact ⟨[], rfl, by simp [leaves]⟩
  | logging file =>
    obtain rfl : file = none := hspares
    exact ⟨[], rfl, by simp [leaves]⟩
  | fuseOptions attached options => exact ⟨_, rfl, rfl⟩
  | flags letters =>
    by_cases hi : 'i' ∈ letters
    · obtain rfl : letters = ['i'] := hspares hi
      exact ⟨[], ⟨[], by simp⟩, by simp [leaves, flagsLeave]⟩
    · refine ⟨[('-' :: letters)], ⟨[letters], ?_, ?_, rfl⟩, flagsLeave_of_not_mem hwf.1 hi⟩
      · simpa using hwf.1.symm
      · simp only [List.flatten_cons, List.flatten_nil, List.append_nil]
        refine (List.filter_eq_self.mpr ?_).symm
        intro c hc
        simpa using fun h : c = 'i' ↦ hi (h ▸ hc)

theorem length_leavesAll {options : List CmdlineOption}
    (hwf : ∀ option ∈ options, option.WellFormed) {kept : List (List CStr)}
    (hkept : List.Forall₂ Keeps options kept) (h : leavesAll options front = some left) :
    left.length ≤ front.length + kept.flatten.length ∧
      (left.length = front.length + kept.flatten.length → ∀ option ∈ options, option.Spares) := by
  induction hkept generalizing front with
  | nil =>
    obtain rfl := Option.some.inj h
    simp
  | @cons option part options kept hpart _ ih =>
    obtain ⟨middle, hmiddle, hleft⟩ := Option.bind_eq_some_iff.mp h
    obtain ⟨hle, hspares⟩ := length_leaves (hwf option (by simp)) hpart hmiddle
    obtain ⟨hleAll, hsparesAll⟩ := ih (fun other hmem ↦ hwf other (by simp [hmem])) hleft
    rw [List.flatten_cons, List.length_append]
    refine ⟨by omega, fun heq ↦ ?_⟩
    rw [List.forall_mem_cons]
    exact ⟨hspares (by omega), hsparesAll (by omega)⟩

theorem leavesAll_of_spares {options : List CmdlineOption}
    (hwf : ∀ option ∈ options, option.WellFormed) (hspares : ∀ option ∈ options, option.Spares)
    (front : List CStr) :
    ∃ kept, List.Forall₂ Keeps options kept ∧
      leavesAll options front = some (front ++ kept.flatten) := by
  induction options generalizing front with
  | nil => exact ⟨[], .nil, by simp [leavesAll]⟩
  | cons option options ih =>
    rw [List.forall_mem_cons] at hwf hspares
    obtain ⟨part, hpart, hleaves⟩ := leaves_of_spares hwf.1 hspares.1 front
    obtain ⟨kept, hkept, hleavesAll⟩ := ih hwf.2 hspares.2 (front ++ part)
    refine ⟨part :: kept, .cons hpart hkept, ?_⟩
    rw [leavesAll, hleaves, Option.bind_some, hleavesAll, List.flatten_cons, List.append_assoc]

end Leaves

section Loop

variable {realpath : CStr → Option CStr} {state last : ParseState} {front rest : List CStr}
  {nulls : ℕ}

theorem ParseState.GetsTo.mono {left : Option (List CStr)} {args args' : List CStr}
    {options : CmdlineOptions} (h : state.GetsTo realpath left args rest options)
    (hargs : ∀ arg ∈ args, arg ∈ args') : state.GetsTo realpath left args' rest options := by
  obtain ⟨next, halike, hleft⟩ := h
  refine ⟨next, halike, ?_⟩
  cases left with
  | none => exact fun arg harg ↦ hargs arg (hleft arg harg)
  | some front => exact hleft

/-- All options, one after the other. -/
theorem ParseState.Reads.getsTo_options {options : List CmdlineOption}
    (hwf : ∀ option ∈ options, option.WellFormed)
    (h : state.Reads front (options.flatMap args ++ rest) nulls) :
    state.GetsTo realpath (leavesAll options front) (options.flatMap args ++ rest) rest
      (options.foldl (fun set option ↦ option.sets set) state.options) := by
  induction options generalizing state front nulls with
  | nil => exact ⟨state, fun _ ↦ Iff.rfl, rfl, nulls, h⟩
  | cons option options ih =>
    rw [List.forall_mem_cons] at hwf
    rw [List.flatMap_cons, List.append_assoc] at h ⊢
    obtain ⟨next, halike, hleft⟩ : state.GetsTo realpath (option.leaves front) _ _ _ :=
      h.getsTo_option hwf.1
    rw [leavesAll, List.foldl_cons]
    cases hleaves : option.leaves front with
    | none =>
      rw [hleaves] at hleft
      exact ⟨next, halike, hleft⟩
    | some middle =>
      rw [hleaves] at hleft
      obtain ⟨hoptions, nulls', hreads⟩ := hleft
      rw [Option.bind_some, ← hoptions]
      apply ParseState.GetsTo.of_alike _ halike
      exact (ih hwf.2 hreads).mono fun arg harg ↦ List.mem_append_right _ harg

variable (realpath) in
/-- At the operands the loop ends. -/
theorem ParseState.Reads.ends {image mount : CStr}
    (h : state.Reads front [image, mount] nulls) (himage : isOperand image = true)
    (hmount : isOperand mount = true) :
    ∃ last, Ends (parsePass realpath) state (true, last) ∧
      last.argv.take last.argc = (front ++ [mount]).map some ∧
      last.options = { state.options with
        adfFilename := some image
        mountPoint := realpath mount } := by
  obtain ⟨d, hgetopt, hoptind⟩ := h.getopt_end validOptions (by simp [himage, hmount])
  have hpass : parsePass realpath state = .inr (parseOperands realpath
      { state with argv := vector (front ++ [image, mount]) nulls, getopt := d }) := by
    rw [parsePass, hgetopt]
  have hargc : ParseState.argc
      { state with argv := vector (front ++ [image, mount]) nulls, getopt := d } =
      (front ++ [image, mount]).length := h.argc_eq
  rw [parseOperands_two hargc rfl hoptind] at hpass
  exact ⟨_, .done hpass, take_vector _ _, rfl⟩

end Loop

section Strings

variable {arg : CStr} {argv : Argv}

theorem mem_copyDown {num count index : ℕ} (h : some arg ∈ copyDown num count argv index) :
    some arg ∈ argv := by
  induction count generalizing argv index with
  | zero => exact h
  | succ count ih =>
    rcases List.mem_or_eq_of_mem_set (ih h) with hmem | heq
    · exact hmem
    · rw [List.getD_eq_getElem?_getD] at heq
      cases hget : argv[index + num]? with
      | none => simp [hget] at heq
      | some element =>
        rw [hget, Option.getD_some] at heq
        rw [heq]
        exact List.mem_of_getElem? hget

theorem mem_clearArgs {count index : ℕ} (h : some arg ∈ clearArgs count argv index) :
    some arg ∈ argv := by
  induction count generalizing argv index with
  | zero => exact h
  | succ count ih => exact (List.mem_or_eq_of_mem_set (ih h)).resolve_right (by simp)

theorem mem_dropArgs {argc index num : ℕ} (h : some arg ∈ (dropArgs argc argv index num).2) :
    some arg ∈ argv :=
  mem_copyDown (mem_clearArgs h)

theorem mem_drop {state : ParseState} {options : CmdlineOptions} {back num : ℕ}
    (h : some arg ∈ ({ state with options := options }.drop back num).argv) :
    some arg ∈ state.argv := by
  rw [ParseState.drop_eq] at h
  exact mem_dropArgs h

/-- The state after a pass or at the end. -/
def passState : ParseState ⊕ (Bool × ParseState) → ParseState
  | .inl state => state
  | .inr (_, state) => state

/-- The switch adds no string to the vector. -/
theorem mem_parseOption {state : ParseState} {c : Char}
    (h : some arg ∈ (passState (parseOption state c)).argv) : some arg ∈ state.argv := by
  unfold parseOption at h
  dsimp only at h
  split at h
  · split at h
    · exact h
    · split_ifs at h
      · exact h
      · dsimp only [passState] at h
        exact mem_drop h
  · split at h <;> dsimp only [passState] at h <;> exact mem_drop h
  · dsimp only [passState] at h
    exact mem_drop h
  · exact h
  · exact h
  · exact h
  · split_ifs at h <;> exact h
  · dsimp only [passState] at h
    exact mem_drop h
  · dsimp only [passState] at h
    exact mem_drop h
  · exact h

theorem mem_parseOperands (realpath : CStr → Option CStr) (state : ParseState)
    (h : some arg ∈ (parseOperands realpath state).2.argv) : some arg ∈ state.argv := by
  rw [parseOperands] at h
  split_ifs at h
  · exact h
  · change some arg ∈ (dropArgs state.argc state.argv (state.argc - 2) 1).2 at h
    exact mem_dropArgs h

theorem mem_parsePass {realpath : CStr → Option CStr} {state : ParseState}
    (h : some arg ∈ (passState (parsePass realpath state)).argv) : some arg ∈ state.argv := by
  rw [parsePass] at h
  generalize hgetopt : getopt validOptions state.argc state.argv state.getopt = call at h
  obtain ⟨opt, argv, d⟩ := call
  have hmem : some arg ∈ argv := by
    cases opt with
    | some opt => exact mem_parseOption h
    | none => exact mem_parseOperands realpath { state with argv := argv, getopt := d } h
  have hpermuted : some arg ∈ (getopt validOptions state.argc state.argv state.getopt).2.1 := by
    rw [hgetopt]
    exact hmem
  exact mem_getopt hpermuted

/-- No string gets into the vector. -/
theorem mem_of_ends {realpath : CStr → Option CStr} {state last : ParseState} {accepted : Bool}
    {args : List CStr} (h : Ends (parsePass realpath) state (accepted, last))
    (hargs : ∀ arg, some arg ∈ state.argv → arg ∈ args) :
    ∀ arg, some arg ∈ last.argv → arg ∈ args := by
  apply h.invariant (fun state ↦ ∀ arg, some arg ∈ state.argv → arg ∈ args)
    (fun result ↦ ∀ arg, some arg ∈ result.2.argv → arg ∈ args) ?_ ?_ hargs
  · intro state next hpass hstate arg harg
    have hmem : some arg ∈ (passState (parsePass realpath state)).argv := by
      rw [hpass]
      exact harg
    exact hstate arg (mem_parsePass hmem)
  · intro state result hpass hstate arg harg
    have hmem : some arg ∈ (passState (parsePass realpath state)).argv := by
      rw [hpass]
      exact harg
    exact hstate arg (mem_parsePass hmem)

end Strings

/-! ## The whole command line -/

section Whole

variable {realpath : CStr → Option CStr} {name image mount : CStr} {options : List CmdlineOption}

variable (realpath name image mount) in
theorem getsTo_commandLine (hwf : ∀ option ∈ options, option.WellFormed) :
    (ParseState.start (commandLine name options image mount)).GetsTo realpath
      (leavesAll options [name]) (options.flatMap args ++ [image, mount]) [image, mount]
      (options.foldl (fun set option ↦ option.sets set) .default) := by
  have hreads : ParseState.Reads
      { ParseState.start (commandLine name options image mount) with
        getopt := getoptInitialize .start }
      [name] (options.flatMap args ++ [image, mount]) 1 :=
    ⟨rfl, rfl, rfl, rfl, rfl, rfl, by simp⟩
  exact (hreads.getsTo_options hwf).of_alike (.of_eq (parsePass_start realpath name _).symm)

/-- What the options set together. -/
theorem asDocumented_of_sets {last : ParseState} {kept : List (List CStr)}
    (hoptions : last.options =
      { options.foldl (fun set option ↦ option.sets set) CmdlineOptions.default with
        adfFilename := some image
        mountPoint := realpath mount })
    (hkept : List.Forall₂ Keeps options kept)
    (hargv : last.argv.take last.argc = (name :: kept.flatten ++ [mount]).map some) :
    AsDocumented realpath name options image mount last where
  adfVolume := by
    rw [hoptions]
    exact foldl_sets_last CmdlineOptions.adfVolume volume? sets_adfVolume options .default
  loggingFile := by
    have hlast := foldl_sets_last CmdlineOptions.loggingFile (fun option ↦ option.file?.map some)
      sets_loggingFile options .default
    rw [← List.map_filterMap, List.getLast?_map] at hlast
    rw [hoptions]
    change CmdlineOptions.loggingFile (options.foldl _ _) = _
    rw [hlast]
    cases (options.filterMap file?).getLast? <;> rfl
  ignoreChecksumErrors := by
    rw [hoptions]
    exact foldl_sets_ignores options .default
  adfFilename := by rw [hoptions]
  mountPoint := by rw [hoptions]
  argv := ⟨kept, hkept, hargv⟩

theorem parsedAsDocumented_of_spares (hwf : ∀ option ∈ options, option.WellFormed)
    (himage : isOperand image = true) (hmount : isOperand mount = true)
    (hspares : ∀ option ∈ options, option.Spares) :
    ParsedAsDocumented realpath name options image mount := by
  obtain ⟨kept, hkept, hleaves⟩ := leavesAll_of_spares hwf hspares [name]
  obtain ⟨next, halike, hleft⟩ := getsTo_commandLine realpath name image mount hwf
  rw [hleaves] at hleft
  obtain ⟨hoptions, nulls, hreads⟩ := hleft
  obtain ⟨last, hends, hargv, hset⟩ := hreads.ends realpath himage hmount
  obtain ⟨fuel, hrun⟩ := run_of_ends ((halike _).mpr hends)
  rw [hoptions] at hset
  exact ⟨fuel, last, hrun, asDocumented_of_sets hset hkept hargv⟩

/-- Where an option does not spare the others, the vector is too short in the end, or it has lost the
program name. -/
theorem spares_of_parsedAsDocumented (hwf : ∀ option ∈ options, option.WellFormed)
    (himage : isOperand image = true) (hmount : isOperand mount = true)
    (hname : name ∉ options.flatMap args ++ [image, mount])
    (h : ParsedAsDocumented realpath name options image mount) :
    ∀ option ∈ options, option.Spares := by
  obtain ⟨fuel, last, hrun, hdocumented⟩ := h
  obtain ⟨kept, hkept, hargv⟩ := hdocumented.argv
  obtain ⟨next, halike, hleft⟩ := getsTo_commandLine realpath name image mount hwf
  have hends := (halike _).mp (ends_of_run hrun)
  cases hleaves : leavesAll options [name] with
  | none =>
    rw [hleaves] at hleft
    have hmem : some name ∈ last.argv := by
      apply List.mem_of_mem_take
      rw [hargv]
      simp
    exact absurd (mem_of_ends hends hleft name hmem) hname
  | some front =>
    rw [hleaves] at hleft
    obtain ⟨-, nulls, hreads⟩ := hleft
    obtain ⟨last', hends', hargv', -⟩ := hreads.ends realpath himage hmount
    obtain rfl : last = last' := congrArg Prod.snd (hends.unique hends')
    have hlength := congrArg List.length (hargv'.symm.trans hargv)
    simp only [List.length_map, List.length_append, List.length_cons, List.length_nil] at hlength
    apply (length_leavesAll hwf hkept hleaves).2
    rw [List.length_singleton]
    omega

end Whole

/-- A command line is parsed as documented if all its options spare the others.  Unless the program
name is the name of something else on it, it is not so otherwise. -/
theorem parsedAsDocumented_iff_spares (realpath : CStr → Option CStr) (name : CStr)
    (options : List CmdlineOption) (image mount : CStr)
    (hwf : ∀ option ∈ options, option.WellFormed) (himage : isOperand image = true)
    (hmount : isOperand mount = true) :
    ((∀ option ∈ options, option.Spares) →
      ParsedAsDocumented realpath name options image mount) ∧
    (name ∉ options.flatMap args ++ [image, mount] →
      ParsedAsDocumented realpath name options image mount →
      ∀ option ∈ options, option.Spares) :=
  ⟨parsedAsDocumented_of_spares hwf himage hmount,
    spares_of_parsedAsDocumented hwf himage hmount⟩

/-- `fuseadf -fs -p 1 -i -o ro -l img mnt`. -/
theorem parsedAsDocumented_separate :
    ParsedAsDocumented some "fuseadf".toList
      [flags ['f', 's'], partition false ['1'], flags ['i'], fuseOptions false ['r', 'o'],
        logging none] "img".toList "mnt".toList :=
  (parsedAsDocumented_iff_spares some "fuseadf".toList
    [flags ['f', 's'], partition false ['1'], flags ['i'], fuseOptions false ['r', 'o'],
      logging none] "img".toList "mnt".toList (by decide +kernel) (by decide +kernel)
    (by decide +kernel)).1 (by decide +kernel)

/-- `fuseadf -f -p1 img mnt` is left as `fuseadf mnt`. -/
theorem not_parsedAsDocumented_attached :
    ¬ ∀ (realpath : CStr → Option CStr) (name : CStr) (options : List CmdlineOption)
        (image mount : CStr), (∀ option ∈ options, option.WellFormed) → isOperand image = true →
      isOperand mount = true → ParsedAsDocumented realpath name options image mount := by
  intro h
  have hparsed := h some "fuseadf".toList [flags ['f'], partition true ['1']] "img".toList
    "mnt".toList (by decide +kernel) (by decide +kernel) (by decide +kernel)
  have hspares := spares_of_parsedAsDocumented (by decide +kernel) (by decide +kernel)
    (by decide +kernel) (by decide +kernel) hparsed
  exact absurd (hspares (partition true ['1']) (by simp)) (by decide +kernel)

end FuseAdf
