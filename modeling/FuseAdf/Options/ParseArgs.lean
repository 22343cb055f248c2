import FuseAdf.Library.Getopt
import FuseAdf.Library.WhileLoop
import FuseAdf.Path.Libgen
import Mathlib.Algebra.Group.Nat.Defs

/-!
# The command line of fuseadf

`parse_args` and the part of `main` around it.  The loop deletes elements of the argument vector
by indices that it computes from `optind`, while `getopt` is still scanning the same vector.  The
vector keeps its length and is filled up with NULL.
-/

namespace FuseAdf

open Getopt WhileLoop

/-- The characters that `isspace` accepts. -/
def isSpace (c : Char) : Bool :=
  c = ' ' || c = '\t' || c = '\n' || c = '\x0b' || c = '\x0c' || c = '\r'

/-- The value of decimal digits. -/
def digitsValue (digits : CStr) : ℕ := digits.foldl (fun n c ↦ 10 * n + (c.toNat - '0'.toNat)) 0

/-- The part of a number after its white space: whether it has a minus sign, and the digits. -/
def signAndDigits : CStr → Bool × CStr
  | '-' :: rest => (true, rest.takeWhile Char.isDigit)
  | '+' :: rest => (false, rest.takeWhile Char.isDigit)
  | text => (false, text.takeWhile Char.isDigit)

/-- `strtoul` in base 10: the value, or `none` where the end pointer is left at the start.  A value
that is too large becomes `ULONG_MAX`, and a minus sign negates modulo 2⁶⁴. -/
def strtoul (text : CStr) : Option (BitVec 64) :=
  let (negative, digits) := signAndDigits (text.dropWhile isSpace)
  if digits = [] then none
  else if digitsValue digits ≥ 2 ^ 64 then some (BitVec.allOnes 64)
  else
    let value := BitVec.ofNat 64 (digitsValue digits)
    some (if negative then -value else value)

/-- `cmdline_options_t`. -/
structure CmdlineOptions where
  adfFilename : Option CStr
  mountPoint : Option CStr
  adfVolume : BitVec 32
  writeMode : Bool
  singleThreadedFuseModeSet : Bool
  loggingFile : Option CStr
  ignoreChecksumErrors : Bool
  help : Bool
  version : Bool
deriving DecidableEq, Repr

/-- The default options. -/
def CmdlineOptions.default : CmdlineOptions where
  adfFilename := none
  mountPoint := none
  adfVolume := 0
  writeMode := true
  singleThreadedFuseModeSet := false
  loggingFile := none
  ignoreChecksumErrors := false
  help := false
  version := false

/-- The argument `read_only` for `adfimage_open`. -/
def CmdlineOptions.readOnly (options : CmdlineOptions) : Bool := !options.writeMode

/-- What the loop works on. -/
structure ParseState where
  argc : ℕ
  argv : Argv
  getopt : GetoptData
  options : CmdlineOptions
deriving DecidableEq, Repr

/-- `count` passes of the loop that copies elements `num` places down, from `index` on. -/
def copyDown (num : ℕ) : ℕ → Argv → ℕ → Argv
  | 0, argv, _ => argv
  | count + 1, argv, index =>
      copyDown num count (argv.set index (argv.getD (index + num) none)) (index + 1)

/-- `count` passes of the loop that stores NULL, from `index` on. -/
def clearArgs : ℕ → Argv → ℕ → Argv
  | 0, argv, _ => argv
  | count + 1, argv, index => clearArgs count (argv.set index none) (index + 1)

/-- `drop_arg`. -/
def dropArg (argc : ℕ) (argv : Argv) (index : ℕ) : ℕ × Argv :=
  let argv := copyDown 1 (argc - 1 - index) argv index
  (argc - 1, argv.set (argc - 1) none)

/-- `drop_args`. -/
def dropArgs (argc : ℕ) (argv : Argv) (index num : ℕ) : ℕ × Argv :=
  let argv := copyDown num (argc - num - index) argv index
  (argc - num, clearArgs num argv (argc - num))

/-- `add_arg`. -/
def addArg (argc : ℕ) (argv : Argv) (arg : CStr) : ℕ × Argv :=
  (argc + 1, argv.set argc (some arg))

/-- `optind -= back` and the deletion of `num` elements there. -/
def ParseState.drop (state : ParseState) (back num : ℕ) : ParseState :=
  let optind := state.getopt.optind - back
  let (argc, argv) :=
    if num = 1 then dropArg state.argc state.argv optind
    else dropArgs state.argc state.argv optind num
  { state with argc := argc, argv := argv, getopt := { state.getopt with optind := optind } }

/-! ## parse_args -/

/-- The option string of `parse_args`. -/
def validOptions : List Char := "p:l::o:fdshiwV".toList

/-- One pass of the loop after the call of `getopt`: the switch.  Most cases `continue`; `.inr` is a
`return`. -/
def parseOption (state : ParseState) (opt : Char) : ParseState ⊕ (Bool × ParseState) :=
  let options := state.options
  match opt with
  | 'p' =>
      match state.getopt.optarg.bind strtoul with
      | none => .inr (false, { state with options := { options with adfVolume := 0 } })
      | some number =>
          let state :=
            { state with options := { options with adfVolume := number.setWidth 32 } }
          if (number.setWidth 32).toNat > 10 then .inr (false, state)
          else .inl (state.drop 2 2)
  | 'l' =>
      match state.getopt.optarg with
      | some optarg =>
          .inl ({ state with options := { options with loggingFile := some optarg } }.drop 2 2)
      | none =>
          .inl ({ state with
            options := { options with loggingFile := some "fuseadf.log".toList } }.drop 1 1)
  | 'i' => .inl ({ state with options := { options with ignoreChecksumErrors := true } }.drop 1 1)
  | 's' => .inl { state with options := { options with singleThreadedFuseModeSet := true } }
  | 'd' => .inl state
  | 'f' => .inl state
  | 'o' =>
      if state.getopt.optarg = some "ro".toList then
        .inl { state with options := { options with writeMode := false } }
      else .inl state
  | 'h' => .inr (true, { state with options := { options with help := true } }.drop 1 1)
  | 'V' => .inr (true, { state with options := { options with version := true } }.drop 1 1)
  | _ => .inr (false, state)

/-- The part of `parse_args` after the loop. -/
def parseOperands (realpath : CStr → Option CStr) (state : ParseState) : Bool × ParseState :=
  if (state.getopt.optind : ℤ) ≠ state.argc - 2 then (false, state)
  else
    let options := { state.options with
      adfFilename := state.argv.getD (state.argc - 2) none
      mountPoint := (state.argv.getD (state.argc - 1) none).bind realpath }
    let (argc, argv) := dropArg state.argc state.argv (state.argc - 2)
    (true, { state with argc := argc, argv := argv, options := options })

/-- One pass of the loop of `parse_args`, or what follows the loop. -/
def parsePass (realpath : CStr → Option CStr) (state : ParseState) :
    ParseState ⊕ (Bool × ParseState) :=
  let (opt, argv, getopt) := getopt validOptions state.argc state.argv state.getopt
  let state := { state with argv := argv, getopt := getopt }
  match opt with
  | some opt => parseOption state opt
  | none => .inr (parseOperands realpath state)

/-- The state in which `parse_args` starts. -/
def ParseState.start (args : List CStr) : ParseState where
  argc := args.length
  argv := vector args 1
  getopt := .start
  options := .default

/-- `parse_args` on the arguments of the process, the program name included. -/
def parseArgs (realpath : CStr → Option CStr) (fuel : ℕ) (args : List CStr) :
    Option (Bool × ParseState) :=
  run (parsePass realpath) fuel (.start args)

/-! ## main -/

/-- How far `main` gets by looking at the options. -/
inductive Launch
  | refused
  | help
  | version
  | fuse (argc : ℕ) (argv : Argv) (options : CmdlineOptions)
deriving DecidableEq, Repr

/-- `main` from `parse_args` to the arguments for `fuse_main`. -/
def launch (realpath : CStr → Option CStr) (fuel : ℕ) (args : List CStr) : Option Launch :=
  (parseArgs realpath fuel args).map fun (accepted, state) ↦
    if !accepted then .refused
    else if state.options.help then .help
    else if state.options.version then .version
    else
      let (argc, argv) :=
        if !state.options.singleThreadedFuseModeSet then addArg state.argc state.argv "-s".toList
        else (state.argc, state.argv)
      .fuse argc argv state.options

end FuseAdf
