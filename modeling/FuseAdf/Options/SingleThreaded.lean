import FuseAdf.Options.Reading

/-!
# Single-threaded mode

`main` adds `-s` only if the loop of `parse_args` has not read an `s`.  But the loop may delete the
element that it read the `s` in, and an argument that is added behind `--` is not an option.  For a
command line none of whose elements deletes the one before it, the result is exactly: FUSE gets the
option if an element with an `s` is kept, or if no `s` is read and the options are not ended by
`--`.
-/

namespace FuseAdf

open Getopt WhileLoop

/-- The arguments after the program name. -/
def argsOf (argc : ℕ) (argv : Argv) : List CStr := ((argv.take argc).drop 1).filterMap id

/-- An `s` in option position: before `--`, in an element that is an option and not the argument of
one, and not behind a letter that takes the rest of its element as argument. -/
def HasSingle (args : List CStr) : Prop :=
  ∃ element ∈ (readArgs args).elements, readsSingle element.tail = true

/-- The element itself is handed on. -/
def Effect.stays : Effect → Bool
  | .drop => false
  | .dropNext => false
  | _ => true

instance (args : List CStr) : Decidable (HasSingle args) :=
  inferInstanceAs (Decidable (∃ element ∈ (readArgs args).elements, _))

theorem argsOf_vector (name : CStr) (args : List CStr) (nulls : ℕ) :
    argsOf (name :: args).length (vector (name :: args) nulls) = args := by
  rw [argsOf, take_vector]
  simp

/-- An element that is kept without an argument is read on its own. -/
theorem elements_of_stays {element : CStr} (hoption : isOperand element = false)
    (hdashes : element ≠ "--".toList) (hstays : (effect element.tail).stays = true)
    (hnext : effect element.tail ≠ .keepNext) (args : List CStr) :
    (readArgs (element :: args)).elements = element :: (readArgs args).elements := by
  rw [readArgs_element hoption hdashes]
  cases hcase : effect element.tail with
  | keepNext => exact absurd hcase hnext
  | drop | dropNext => simp [hcase, Effect.stays] at hstays
  | keep | dropPrevious | refuse => rfl

/-- What is kept of a command line reads as the elements that stay. -/
theorem elements_kept (args rest : List CStr) :
    (readArgs ((readArgs args).kept ++ rest)).elements =
      ((readArgs args).elements.filter fun element ↦ (effect element.tail).stays) ++
        if (readArgs args).dashes then [] else (readArgs rest).elements := by
  fun_induction readArgs args with
  | case1 | case4 | case6 => rfl
  | case2 arg args harg ih => exact ih
  | case3 args =>
    change (readArgs ("--".toList :: rest)).elements = []
    rw [readArgs_dashes]
    rfl
  | case5 arg hoption hdashes heffect next args ih =>
    have hoption' : isOperand arg = false := by simpa using hoption
    change (readArgs (arg :: next :: ((readArgs args).kept ++ rest))).elements =
      ((arg :: (readArgs args).elements).filter _) ++ _
    rw [readArgs_element hoption' hdashes, List.filter_cons, heffect]
    change arg :: (readArgs ((readArgs args).kept ++ rest)).elements = _
    rw [ih]
    rfl
  | case7 arg hoption hdashes heffect next args ih
  | case8 arg args hoption hdashes heffect ih =>
    change _ = ((arg :: (readArgs args).elements).filter _) ++ _
    rw [List.filter_cons, heffect]
    exact ih
  | case9 arg args hoption hdashes heffect ih
  | case10 arg args hoption hdashes heffect ih
  | case11 arg args hoption hdashes heffect ih =>
    have hoption' : isOperand arg = false := by simpa using hoption
    have hstays : (effect arg.tail).stays = true := by rw [heffect]; rfl
    have hcons := elements_of_stays hoption' hdashes hstays (by simp [heffect])
      ((readArgs args).kept ++ rest)
    change (readArgs (arg :: ((readArgs args).kept ++ rest))).elements =
      ((arg :: (readArgs args).elements).filter _) ++ _
    rw [hcons, List.filter_cons, if_pos hstays, ih]
    rfl

/-- Without `--` the operands do not look like options. -/
theorem isOperand_of_mem_operands {args : List CStr} (hdashes : (readArgs args).dashes = false) :
    ∀ operand ∈ (readArgs args).operands, isOperand operand = true := by
  fun_induction readArgs args with
  | case1 | case4 | case6 => simp [CommandLine.empty]
  | case2 arg args harg ih =>
    have hrest := ih hdashes
    simpa [CommandLine.addOperands, harg] using hrest
  | case3 args => exact absurd hdashes (by simp)
  | case5 arg hoption hne heffect next args ih => exact ih hdashes
  | case7 arg hoption hne heffect next args ih => exact ih hdashes
  | case8 arg args hoption hne heffect ih => exact ih hdashes
  | case9 arg args hoption hne heffect ih => exact ih hdashes
  | case10 arg args hoption hne heffect ih => exact ih hdashes
  | case11 arg args hoption hne heffect ih => exact ih hdashes

/-- What FUSE gets of the options, followed by an operand. -/
theorem hasSingle_kept {args : List CStr} {mount : CStr} (hmount : mount ∈ (readArgs args).operands) :
    HasSingle ((readArgs args).kept ++ [mount]) ↔
      ∃ element ∈ (readArgs args).elements,
        readsSingle element.tail = true ∧ (effect element.tail).stays = true := by
  have helements : (readArgs ((readArgs args).kept ++ [mount])).elements =
      (readArgs args).elements.filter fun element ↦ (effect element.tail).stays := by
    rw [elements_kept]
    cases hdashes : (readArgs args).dashes with
    | true => exact List.append_nil _
    | false =>
      rw [readArgs_operand (isOperand_of_mem_operands hdashes mount hmount)]
      exact List.append_nil _
  rw [HasSingle, helements]
  simp only [List.mem_filter]
  grind

/-- An `-s` at the end is an option unless `--` is before it. -/
theorem hasSingle_added {args : List CStr} {mount : CStr}
    (hmount : mount ∈ (readArgs args).operands)
    (hnone : ∀ element ∈ (readArgs args).elements, readsSingle element.tail = false) :
    HasSingle ((readArgs args).kept ++ [mount, "-s".toList]) ↔ (readArgs args).dashes = false := by
  rw [HasSingle, elements_kept]
  cases hdashes : (readArgs args).dashes with
  | true =>
    simp only [if_true, List.append_nil, List.mem_filter]
    grind
  | false =>
    have hadded : (readArgs [mount, "-s".toList]).elements = ["-s".toList] := by
      rw [readArgs_operand (isOperand_of_mem_operands hdashes mount hmount)]
      rfl
    rw [hadded]
    simp [readsSingle]

/-- Adding an argument where there is a NULL. -/
theorem addArg_vector (args : List CStr) (nulls : ℕ) (arg : CStr) :
    addArg args.length (vector args (nulls + 1)) arg =
      ((args ++ [arg]).length, vector (args ++ [arg]) nulls) := by
  simp [addArg, vector, List.replicate_succ]

/-- What `main` passes on has been parsed. -/
theorem parsed_of_launch {realpath : CStr → Option CStr} {fuel : ℕ} {args : List CStr} {argc : ℕ}
    {argv : Argv} {options : CmdlineOptions}
    (hlaunch : launch realpath fuel args = some (.fuse argc argv options)) :
    ∃ last, parseArgs realpath fuel args = some (true, last) ∧ last.options = options ∧
      options.help = false ∧ options.version = false ∧
      (argc, argv) = if options.singleThreadedFuseModeSet then (last.argc, last.argv)
        else addArg last.argc last.argv "-s".toList := by
  rw [launch, Option.map_eq_some_iff] at hlaunch
  obtain ⟨⟨accepted, last⟩, hparse, hfuse⟩ := hlaunch
  dsimp only at hfuse
  split_ifs at hfuse with haccepted hhelp hversion hsingle
  · obtain ⟨rfl, rfl, rfl⟩ := Launch.fuse.inj hfuse
    refine ⟨last, ?_, rfl, Bool.eq_false_iff.mpr hhelp, Bool.eq_false_iff.mpr hversion, ?_⟩
    · rw [hparse]
      simpa using haccepted
    · rw [if_neg (by simpa using hsingle)]
  · obtain ⟨rfl, rfl, rfl⟩ := Launch.fuse.inj hfuse
    refine ⟨last, ?_, rfl, Bool.eq_false_iff.mpr hhelp, Bool.eq_false_iff.mpr hversion, ?_⟩
    · rw [hparse]
      simpa using haccepted
    · rw [if_pos (by simpa using hsingle)]

/-- The arguments that FUSE gets from a command line none of whose elements deletes the one before
it: what is kept of it, the mount point, and `-s` if no `s` is read. -/
theorem argsOf_of_launch {realpath : CStr → Option CStr} {fuel : ℕ} {name : CStr}
    {args : List CStr} {argc : ℕ} {argv : Argv} {options : CmdlineOptions}
    (hlaunch : launch realpath fuel (name :: args) = some (.fuse argc argv options))
    (hprevious : ∀ element ∈ (readArgs args).elements, effect element.tail ≠ .dropPrevious) :
    ∃ mount ∈ (readArgs args).operands, argsOf argc argv = (readArgs args).kept ++
      if (readArgs args).elements.any fun element ↦ readsSingle element.tail then [mount]
      else [mount, "-s".toList] := by
  obtain ⟨last, hparse, rfl, hhelp, hversion, hvector⟩ := parsed_of_launch hlaunch
  have hover := handsOver_of_ends (scans_start name args)
    ((ends_of_run hparse).congr (parsePass_start realpath name args)) hhelp hversion hprevious
  obtain ⟨image, mount, nulls, hoperands, hargc, hargv, -, -, hsingle⟩ := hover
  rw [List.nil_append] at hoperands
  refine ⟨mount, by simp [hoperands], ?_⟩
  change _ = ((readArgs args).elements.any fun element ↦ readsSingle element.tail) at hsingle
  rw [← hsingle]
  cases hset : last.options.singleThreadedFuseModeSet with
  | true =>
    rw [hset, if_pos rfl, Prod.mk.injEq, hargc, hargv] at hvector
    obtain ⟨rfl, rfl⟩ := hvector
    exact argsOf_vector name _ _
  | false =>
    rw [hset, if_neg (by simp), hargc, hargv, addArg_vector, Prod.mk.injEq] at hvector
    obtain ⟨rfl, rfl⟩ := hvector
    have hargs := argsOf_vector name ((readArgs args).kept ++ [mount, "-s".toList]) nulls
    simpa using hargs

/-! ## The condition -/

/-- An element with an `s` is kept, or no `s` is read and nothing ends the options. -/
def KeepsSingle (args : List CStr) : Prop :=
  (∃ element ∈ (readArgs args).elements,
      readsSingle element.tail = true ∧ (effect element.tail).stays = true) ∨
    (∀ element ∈ (readArgs args).elements, readsSingle element.tail = false) ∧
      (readArgs args).dashes = false

instance (args : List CStr) : Decidable (KeepsSingle args) :=
  inferInstanceAs (Decidable (_ ∨ _))

/-- If no element deletes the one before it, FUSE gets the option just when an element with an `s`
is kept or `-s` is added to a command line without `--`. -/
theorem hasSingle_iff_keepsSingle (realpath : CStr → Option CStr) (fuel : ℕ) (name : CStr)
    (args : List CStr) (argc : ℕ) (argv : Argv) (options : CmdlineOptions)
    (hlaunch : launch realpath fuel (name :: args) = some (.fuse argc argv options))
    (hprevious : ∀ element ∈ (readArgs args).elements, effect element.tail ≠ .dropPrevious) :
    HasSingle (argsOf argc argv) ↔ KeepsSingle args := by
  obtain ⟨mount, hmount, hargs⟩ := argsOf_of_launch hlaunch hprevious
  by_cases hsome : ∃ element ∈ (readArgs args).elements, readsSingle element.tail = true
  · have hany : ((readArgs args).elements.any fun element ↦ readsSingle element.tail) = true :=
      List.any_eq_true.mpr hsome
    have hnot : ¬ ∀ element ∈ (readArgs args).elements, readsSingle element.tail = false := by
      intro hnone
      obtain ⟨element, hmem, hreads⟩ := hsome
      exact absurd (hreads.symm.trans (hnone element hmem)) (by simp)
    rw [hargs, hany, if_pos rfl, hasSingle_kept hmount, KeepsSingle]
    simp only [hnot, false_and, or_false]
  · have hnone : ∀ element ∈ (readArgs args).elements, readsSingle element.tail = false := by
      intro element hmem
      exact Bool.eq_false_iff.mpr fun h ↦ hsome ⟨element, hmem, h⟩
    have hany : ((readArgs args).elements.any fun element ↦ readsSingle element.tail) = false :=
      List.any_eq_false.mpr fun element hmem ↦ by simp [hnone element hmem]
    have hkept : ¬ ∃ element ∈ (readArgs args).elements,
        readsSingle element.tail = true ∧ (effect element.tail).stays = true :=
      fun ⟨element, hmem, h, _⟩ ↦ hsome ⟨element, hmem, h⟩
    rw [hargs, hany, if_neg (by simp), hasSingle_added hmount hnone, KeepsSingle]
    constructor
    · exact fun h ↦ Or.inr ⟨hnone, h⟩
    · exact fun h ↦ h.elim (fun h ↦ absurd h hkept) And.right

/-- `fuseadf -s -p 1 img mnt`. -/
theorem hasSingle_iff_keepsSingle_partition :
    HasSingle (argsOf 3
        (vector ["fuseadf".toList, "-s".toList, "mnt".toList] 4)) ↔
      KeepsSingle ["-s".toList, "-p".toList, "1".toList, "img".toList, "mnt".toList] :=
  hasSingle_iff_keepsSingle some 4 "fuseadf".toList
    ["-s".toList, "-p".toList, "1".toList, "img".toList, "mnt".toList] 3
    (vector ["fuseadf".toList, "-s".toList, "mnt".toList] 4)
    { CmdlineOptions.default with
      adfFilename := some "img".toList
      mountPoint := some "mnt".toList
      adfVolume := 1
      singleThreadedFuseModeSet := true }
    (by decide) (by decide)

/-- `fuseadf -s -p1 img mnt` is handed on as `fuseadf mnt`, and so is `fuseadf -si img mnt`, in which
no element deletes the one before it. -/
theorem not_hasSingle_partition_attached :
    (¬ ∀ (realpath : CStr → Option CStr) (fuel : ℕ) (args : List CStr) (argc : ℕ) (argv : Argv)
        (options : CmdlineOptions),
      launch realpath fuel args = some (.fuse argc argv options) →
      HasSingle (argsOf argc argv)) ∧
    ¬ ∀ (realpath : CStr → Option CStr) (fuel : ℕ) (name : CStr) (args : List CStr) (argc : ℕ)
        (argv : Argv) (options : CmdlineOptions),
      launch realpath fuel (name :: args) = some (.fuse argc argv options) →
      (∀ element ∈ (readArgs args).elements, effect element.tail ≠ .dropPrevious) →
      HasSingle (argsOf argc argv) := by
  constructor
  · intro h
    have hsingle := h some 4
      ["fuseadf".toList, "-s".toList, "-p1".toList, "img".toList, "mnt".toList] 2
      (vector ["fuseadf".toList, "mnt".toList] 4)
      { CmdlineOptions.default with
        adfFilename := some "img".toList
        mountPoint := some "mnt".toList
        adfVolume := 1
        singleThreadedFuseModeSet := true }
      (by decide)
    revert hsingle
    decide
  · intro h
    have hsingle := h some 4 "fuseadf".toList ["-si".toList, "img".toList, "mnt".toList] 2
      (vector ["fuseadf".toList, "mnt".toList] 3)
      { CmdlineOptions.default with
        adfFilename := some "img".toList
        mountPoint := some "mnt".toList
        singleThreadedFuseModeSet := true
        ignoreChecksumErrors := true }
      (by decide) (by decide)
    revert hsingle
    decide

end FuseAdf
