import Mathlib.Data.List.Basic

/-!
# The option scanner getopt

The scanner of the GNU C library for short options, over an argument vector that it may permute:
options are moved in front of the operands that they follow, an element `--` ends the options, and
a caller may change the vector and the index between two calls.  The static data of the C function
is an explicit record.

`Scanning` describes a state between two elements: the part that is already in order, the operands
that were passed over, the options read since, and the rest.  The two theorems about `advance` say
how one call gets from there to the end of the scan or to the next option element.
-/

namespace FuseAdf.Getopt

/-- An argument vector: pointers to strings, or NULL. -/
abbrev Argv := List (Option (List Char))

/-- Whether an option takes an argument. -/
inductive TakesArgument
  | no
  | required
  | optional
deriving DecidableEq, Repr

/-- `struct _getopt_data` with `optarg`; the scanner permutes, and an empty `nextchar` also stands
for NULL. -/
structure GetoptData where
  optind : ℕ
  optarg : Option (List Char)
  nextchar : List Char
  firstNonopt : ℕ
  lastNonopt : ℕ
  initialized : Bool
deriving DecidableEq, Repr

/-- The static data when the program starts. -/
def GetoptData.start : GetoptData where
  optind := 1
  optarg := none
  nextchar := []
  firstNonopt := 0
  lastNonopt := 0
  initialized := false

/-- `_getopt_initialize`. -/
def getoptInitialize (d : GetoptData) : GetoptData :=
  let optind := if d.optind = 0 then 1 else d.optind
  { d with
    optind := optind
    nextchar := []
    firstNonopt := optind
    lastNonopt := optind
    initialized := true }

/-- The letter's entry in the option string. -/
def takesArgument (optstring : List Char) (c : Char) : Option TakesArgument :=
  if c = ':' ∨ c = ';' then none
  else
    match optstring.dropWhile (· ≠ c) with
    | [] => none
    | _ :: ':' :: ':' :: _ => some .optional
    | _ :: ':' :: _ => some .required
    | _ :: _ => some .no

/-- An element that is an operand: it is a single dash or does not start with one. -/
def isOperand : List Char → Bool
  | '-' :: _ :: _ => false
  | _ => true

theorem tail_ne_nil {element : List Char} (h : isOperand element = false) : element.tail ≠ [] := by
  unfold isOperand at h
  split at h
  · simp
  · exact absurd h (by simp)

theorem isOperand_of_dropWhile {args rest : List (List Char)} {element : List Char}
    (h : args.dropWhile isOperand = element :: rest) : isOperand element = false := by
  have hhead := List.head?_dropWhile_not isOperand args
  rw [h] at hhead
  simpa using hhead

/-- `NONOPTION_P` on an element of the vector. -/
def nonoptionP (element : Option (List Char)) : Bool := element.elim true isOperand

/-- `exchange`: the segment from `last` to `top` comes before the one from `first` to `last`. -/
def exchange (argv : Argv) (first last top : ℕ) : Argv :=
  argv.take first ++ (argv.drop last).take (top - last) ++
    (argv.drop first).take (last - first) ++ argv.drop top

/-- What a search for the next option element ends with. -/
inductive Advance
  | finished (argv : Argv) (d : GetoptData)
  | element (argv : Argv) (d : GetoptData)

/-- The first part of `exchange` and its alternative: bring the vector in order up to `top`. -/
def settle (argv : Argv) (first last top : ℕ) : Argv × ℕ :=
  if first ≠ last ∧ last ≠ top then (exchange argv first last top, first + (top - last))
  else if last ≠ top then (argv, top)
  else (argv, first)

/-- What is done when an element `--` has been passed: `top` is the index after it. -/
def passDashes (argv : Argv) (first last top : ℕ) : Argv × ℕ :=
  if first ≠ last ∧ last ≠ top then (exchange argv first last top, first + (top - last))
  else if first = last then (argv, top)
  else (argv, first)

/-- Decide what to do at `optind`, up to which the vector is in order: `--` ends the scan and is put
in front of the operands, the end of the vector ends it, and anything else is an option element. -/
def stopAt (argc : ℕ) (argv : Argv) (d : GetoptData) : Advance :=
  if d.optind ≠ argc ∧ argv.getD d.optind none = some "--".toList then
    let (argv, first) := passDashes argv d.firstNonopt d.lastNonopt (d.optind + 1)
    .finished argv { d with
      optind := if first ≠ argc then first else argc
      firstNonopt := first
      lastNonopt := argc }
  else if d.optind = argc then
    .finished argv { d with
      optind := if d.firstNonopt ≠ d.lastNonopt then d.firstNonopt else d.optind }
  else .element argv { d with nextchar := ((argv.getD d.optind none).getD []).tail }

/-- Advance to the next element: put the options read since the last call in front of the operands,
pass over more operands, and stop. -/
def advance (argc : ℕ) (argv : Argv) (d : GetoptData) : Advance :=
  let settled := settle argv (min d.firstNonopt d.optind) (min d.lastNonopt d.optind) d.optind
  let optind :=
    d.optind + (((settled.1.take argc).drop d.optind).takeWhile nonoptionP).length
  stopAt argc settled.1
    { d with optind := optind, firstNonopt := settled.2, lastNonopt := optind }

/-- Handle the next option character; `'?'` stands for every error. -/
def letter (optstring : List Char) (argc : ℕ) (argv : Argv) (d : GetoptData) :
    Char × GetoptData :=
  match d.nextchar with
  | [] => ('?', d)
  | c :: rest =>
      let d := { d with
        optind := if rest = [] then d.optind + 1 else d.optind
        nextchar := rest }
      match takesArgument optstring c with
      | none => ('?', d)
      | some .no => (c, d)
      | some .optional =>
          if rest ≠ [] then
            (c, { d with optarg := some rest, optind := d.optind + 1, nextchar := [] })
          else (c, { d with optarg := none, nextchar := [] })
      | some .required =>
          if rest ≠ [] then
            (c, { d with optarg := some rest, optind := d.optind + 1, nextchar := [] })
          else if d.optind = argc then ('?', { d with nextchar := [] })
          else
            (c, { d with
              optarg := argv.getD d.optind none
              optind := d.optind + 1
              nextchar := [] })

/-- `getopt`: the option character, or `none` for -1. -/
def getopt (optstring : List Char) (argc : ℕ) (argv : Argv) (d : GetoptData) :
    Option Char × Argv × GetoptData :=
  if argc < 1 then (none, argv, d)
  else
    let d := { d with optarg := none }
    let d := if d.optind = 0 ∨ d.initialized = false then getoptInitialize d else d
    if d.nextchar = [] then
      match advance argc argv d with
      | .finished argv d => (none, argv, d)
      | .element argv d =>
          let (c, d) := letter optstring argc argv d
          (some c, argv, d)
    else
      let (c, d) := letter optstring argc argv d
      (some c, argv, d)

/-- A vector of strings followed by NULL pointers. -/
def vector (args : List (List Char)) (nulls : ℕ) : Argv :=
  args.map some ++ List.replicate nulls none

theorem vector_append (args args' : List (List Char)) (nulls : ℕ) :
    vector (args ++ args') nulls = args.map some ++ vector args' nulls := by
  simp [vector]

theorem take_vector (args : List (List Char)) (nulls : ℕ) :
    (vector args nulls).take args.length = args.map some := by
  rw [vector, List.take_append_of_le_length (by simp), List.take_of_length_le (by simp)]

theorem getD_vector (front : List (List Char)) (element : List Char)
    (rest : List (List Char)) (nulls : ℕ) :
    (vector (front ++ element :: rest) nulls).getD front.length none = some element := by
  simp [vector]

/-- The part before two positions, the one between them, and the one behind them. -/
theorem segments_eq (args : List (List Char)) {first last : ℕ} (h : first ≤ last) :
    args.take first ++ (args.drop first).take (last - first) ++ args.drop last = args := by
  have hback : (args.drop first).take (last - first) ++ args.drop last = args.drop first := by
    rw [← Nat.add_sub_of_le h, ← List.drop_drop, Nat.add_sub_cancel_left, List.take_append_drop]
  rw [List.append_assoc, hback, List.take_append_drop]

/-- Two neighbouring segments change places. -/
theorem exchange_vector (front operands recent rest : List (List Char)) (nulls : ℕ) :
    exchange (vector (front ++ operands ++ recent ++ rest) nulls) front.length
        (front.length + operands.length) (front.length + operands.length + recent.length) =
      vector (front ++ recent ++ operands ++ rest) nulls := by
  have hfront : (vector (front ++ operands ++ recent ++ rest) nulls).take front.length =
      front.map some := by
    rw [List.append_assoc, List.append_assoc, vector_append]
    simp
  have hoperands : (vector (front ++ operands ++ recent ++ rest) nulls).drop front.length =
      operands.map some ++ vector (recent ++ rest) nulls := by
    rw [List.append_assoc, List.append_assoc, vector_append, List.drop_append_of_le_length (by simp)]
    simp [vector]
  have hrecent : (vector (front ++ operands ++ recent ++ rest) nulls).drop
      (front.length + operands.length) = recent.map some ++ vector rest nulls := by
    rw [← List.drop_drop, hoperands, ← vector_append]
    simp [vector]
  have hrest : (vector (front ++ operands ++ recent ++ rest) nulls).drop
      (front.length + operands.length + recent.length) = vector rest nulls := by
    rw [← List.drop_drop, hrecent]
    simp
  rw [exchange, hfront, hoperands, hrecent, hrest]
  simp [vector]

/-- After settling, the options read last come before the operands. -/
theorem settle_vector (front operands recent rest : List (List Char)) (nulls : ℕ) :
    settle (vector (front ++ operands ++ recent ++ rest) nulls) front.length
        (front.length + operands.length) (front.length + operands.length + recent.length) =
      (vector (front ++ recent ++ operands ++ rest) nulls, front.length + recent.length) := by
  cases operands with
  | nil =>
    cases recent with
    | nil => simp [settle]
    | cons element recent => simp [settle]
  | cons operand operands =>
    cases recent with
    | nil => simp [settle]
    | cons element recent =>
      have hexchange := exchange_vector front (operand :: operands) (element :: recent) rest nulls
      rw [settle, if_pos (by simp), hexchange]
      congr 1
      omega

/-- Behind the operands the two dashes are put in order like any other element. -/
theorem passDashes_eq_settle {first last top : ℕ} (argv : Argv) (h : last ≠ top) :
    passDashes argv first last top = settle argv first last top := by
  by_cases hfirst : first = last
  · simp [passDashes, settle, hfirst, h]
  · simp [passDashes, settle, hfirst, h]

/-- The element `--` changes places with the operands before it. -/
theorem passDashes_vector (front operands rest : List (List Char)) (nulls : ℕ) :
    passDashes (vector (front ++ operands ++ "--".toList :: rest) nulls) front.length
        (front.length + operands.length) (front.length + operands.length + 1) =
      (vector (front ++ "--".toList :: operands ++ rest) nulls, front.length + 1) := by
  have hsettle := settle_vector front operands ["--".toList] rest nulls
  rw [passDashes_eq_settle _ (Nat.ne_of_lt (Nat.lt_succ_self _))]
  simpa using hsettle

/-- The operands that the scan passes over are the ones up to the next option. -/
theorem takeWhile_vector (front skipped rest : List (List Char)) (nulls : ℕ)
    (hskipped : ∀ operand ∈ skipped, isOperand operand = true)
    (hrest : ∀ element ∈ rest.head?, isOperand element = false) :
    ((((vector (front ++ skipped ++ rest) nulls).take (front ++ skipped ++ rest).length).drop
      front.length).takeWhile nonoptionP).length = skipped.length := by
  have hstop : rest.takeWhile (nonoptionP ∘ some) = [] := by
    cases rest with
    | nil => rfl
    | cons element rest =>
      have helement : isOperand element = false := hrest element rfl
      simp [nonoptionP, helement]
  have hskip : ∀ operand ∈ skipped, (nonoptionP ∘ some) operand = true := fun operand h ↦
    hskipped operand h
  have hdrop : ((front ++ skipped ++ rest).map some).drop front.length =
      (skipped ++ rest).map some := by
    rw [List.append_assoc, List.map_append, List.drop_append_of_le_length (by simp)]
    simp
  rw [take_vector, hdrop, List.takeWhile_map, List.length_map,
    List.takeWhile_append_of_pos hskip, hstop, List.append_nil]

/-- The vector that a search ends with. -/
def Advance.argv : Advance → Argv
  | .finished argv _ => argv
  | .element argv _ => argv

section Strings

variable {string : List Char} {argc : ℕ} {argv : Argv} {d : GetoptData}

theorem mem_exchange {first last top : ℕ} (h : some string ∈ exchange argv first last top) :
    some string ∈ argv := by
  simp only [exchange, List.mem_append] at h
  rcases h with ((h | h) | h) | h
  · exact List.mem_of_mem_take h
  · exact List.mem_of_mem_drop (List.mem_of_mem_take h)
  · exact List.mem_of_mem_drop (List.mem_of_mem_take h)
  · exact List.mem_of_mem_drop h

theorem mem_settle {first last top : ℕ} (h : some string ∈ (settle argv first last top).1) :
    some string ∈ argv := by
  unfold settle at h
  split_ifs at h
  · exact mem_exchange h
  · exact h
  · exact h

theorem mem_passDashes {first last top : ℕ} (h : some string ∈ (passDashes argv first last top).1) :
    some string ∈ argv := by
  unfold passDashes at h
  split_ifs at h
  · exact mem_exchange h
  · exact h
  · exact h

theorem mem_stopAt (h : some string ∈ (stopAt argc argv d).argv) : some string ∈ argv := by
  unfold stopAt at h
  split at h
  · exact mem_passDashes h
  · split at h
    · exact h
    · exact h

theorem mem_advance (h : some string ∈ (advance argc argv d).argv) : some string ∈ argv :=
  mem_settle (mem_stopAt h)

/-- A call only permutes the vector. -/
theorem mem_getopt {optstring : List Char} (h : some string ∈ (getopt optstring argc argv d).2.1) :
    some string ∈ argv := by
  have hsearch : ∀ d, some string ∈ (match advance argc argv d with
      | .finished argv d => (none, argv, d)
      | .element argv d =>
          (some (letter optstring argc argv d).1, argv, (letter optstring argc argv d).2)).2.1 →
      some string ∈ argv := by
    intro d hmem
    have hadvance : some string ∈ (advance argc argv d).argv := by
      cases hcase : advance argc argv d with
      | finished | element =>
        rw [hcase] at hmem
        exact hmem
    exact mem_advance hadvance
  by_cases hargc : argc < 1
  · rw [getopt, if_pos hargc] at h
    exact h
  · rw [getopt, if_neg hargc] at h
    dsimp only at h
    split_ifs at h
    all_goals first
      | exact hsearch _ h
      | exact h

end Strings

/-! ## States of a scan -/

/-- Between two elements: `front` is in order, `operands` were passed over, `recent` are the options
read since, and `rest` is still to be read. -/
structure Scanning (front operands recent rest : List (List Char)) (nulls argc : ℕ) (argv : Argv)
    (d : GetoptData) : Prop where
  argv_eq : argv = vector (front ++ operands ++ recent ++ rest) nulls
  argc_eq : argc = (front ++ operands ++ recent ++ rest).length
  optind : d.optind = front.length + operands.length + recent.length
  firstNonopt : d.firstNonopt = front.length
  lastNonopt : d.lastNonopt = front.length + operands.length
  nextchar : d.nextchar = []
  initialized : d.initialized = true
  front_ne : front ≠ []

/-- Inside an option element of which `letters` are still to be read. -/
structure Inside (front operands : List (List Char)) (element letters : List Char)
    (rest : List (List Char)) (nulls argc : ℕ) (argv : Argv) (d : GetoptData) : Prop where
  argv_eq : argv = vector (front ++ operands ++ element :: rest) nulls
  argc_eq : argc = (front ++ operands ++ element :: rest).length
  optind : d.optind = front.length + operands.length
  firstNonopt : d.firstNonopt = front.length
  lastNonopt : d.lastNonopt = front.length + operands.length
  nextchar : d.nextchar = letters
  initialized : d.initialized = true
  front_ne : front ≠ []

section Advance

variable {front operands recent skipped rest : List (List Char)} {nulls argc : ℕ} {argv : Argv}
  {d : GetoptData}

theorem Scanning.settle (h : Scanning front operands recent rest nulls argc argv d) :
    settle argv (min d.firstNonopt d.optind) (min d.lastNonopt d.optind) d.optind =
      (vector (front ++ recent ++ operands ++ rest) nulls, front.length + recent.length) := by
  have hfirst : min d.firstNonopt d.optind = front.length := by
    rw [h.firstNonopt, h.optind]
    omega
  have hlast : min d.lastNonopt d.optind = front.length + operands.length := by
    rw [h.lastNonopt, h.optind]
    omega
  rw [hfirst, hlast, h.optind, h.argv_eq]
  exact settle_vector front operands recent rest nulls

/-- One search: the options read last are put in front, the operands up to the next option are
passed over, and what follows them decides. -/
theorem Scanning.advance_eq
    (h : Scanning front operands recent (skipped ++ rest) nulls argc argv d)
    (hskipped : ∀ operand ∈ skipped, isOperand operand = true)
    (hrest : ∀ element ∈ rest.head?, isOperand element = false) :
    advance argc argv d =
      stopAt argc (vector (front ++ recent ++ (operands ++ skipped) ++ rest) nulls)
        { d with
          optind := (front ++ recent).length + (operands ++ skipped).length
          firstNonopt := (front ++ recent).length
          lastNonopt := (front ++ recent).length + (operands ++ skipped).length } := by
  have hskip := takeWhile_vector (front ++ recent ++ operands) skipped rest nulls hskipped hrest
  have hargc : argc = (front ++ recent ++ operands ++ skipped ++ rest).length := by
    rw [h.argc_eq]
    simp only [List.length_append]
    omega
  have hoptind : d.optind = (front ++ recent ++ operands).length := by
    rw [h.optind]
    simp only [List.length_append]
    omega
  have hvector : vector (front ++ recent ++ operands ++ (skipped ++ rest)) nulls =
      vector (front ++ recent ++ operands ++ skipped ++ rest) nulls := by
    rw [List.append_assoc (front ++ recent ++ operands)]
  have hlength : (front ++ recent ++ operands).length + skipped.length =
      (front ++ recent).length + (operands ++ skipped).length := by
    simp only [List.length_append]
    omega
  rw [← hargc] at hskip
  unfold advance
  simp only [h.settle]
  rw [hvector, hoptind, hskip, hlength]
  simp only [← List.append_assoc, List.length_append]

/-- The scan is over when only operands are left. -/
theorem stopAt_end (front operands : List (List Char)) (nulls : ℕ) (d : GetoptData) :
    ∃ d', stopAt (front ++ operands).length (vector (front ++ operands) nulls)
        { d with
          optind := front.length + operands.length
          firstNonopt := front.length
          lastNonopt := front.length + operands.length } =
        .finished (vector (front ++ operands) nulls) d' ∧ d'.optind = front.length := by
  simp only [stopAt, List.length_append, ne_eq, not_true_eq_false, false_and, if_false, if_true]
  refine ⟨_, rfl, ?_⟩
  dsimp only
  split_ifs with hempty
  · omega
  · rfl

/-- The element `--` is put in front of the operands, and the scan is over. -/
theorem stopAt_dashes (front operands rest : List (List Char)) (nulls : ℕ) (d : GetoptData) :
    ∃ d', stopAt (front ++ operands ++ "--".toList :: rest).length
        (vector (front ++ operands ++ "--".toList :: rest) nulls)
        { d with
          optind := front.length + operands.length
          firstNonopt := front.length
          lastNonopt := front.length + operands.length } =
        .finished (vector (front ++ "--".toList :: operands ++ rest) nulls) d' ∧
      d'.optind = front.length + 1 := by
  have hdashes : (vector (front ++ operands ++ "--".toList :: rest) nulls).getD
      (front.length + operands.length) none = some "--".toList := by
    have := getD_vector (front ++ operands) "--".toList rest nulls
    rwa [List.length_append] at this
  have hlength : (front ++ operands ++ "--".toList :: rest).length =
      front.length + operands.length + 1 + rest.length := by
    simp only [List.length_append, List.length_cons]
    omega
  have hne : front.length + operands.length ≠
      (front ++ operands ++ "--".toList :: rest).length := by
    omega
  have hpass := passDashes_vector front operands rest nulls
  unfold stopAt
  rw [if_pos ⟨hne, hdashes⟩]
  simp only [hpass]
  refine ⟨_, rfl, ?_⟩
  dsimp only
  split_ifs with hlast
  · rfl
  · omega

/-- An option element is entered behind its dash. -/
theorem stopAt_element {element : List Char} (hdashes : element ≠ "--".toList)
    (front operands rest : List (List Char)) (nulls : ℕ) (d : GetoptData) :
    stopAt (front ++ operands ++ element :: rest).length
        (vector (front ++ operands ++ element :: rest) nulls)
        { d with
          optind := front.length + operands.length
          firstNonopt := front.length
          lastNonopt := front.length + operands.length } =
      .element (vector (front ++ operands ++ element :: rest) nulls)
        { d with
          optind := front.length + operands.length
          firstNonopt := front.length
          lastNonopt := front.length + operands.length
          nextchar := element.tail } := by
  have hget : (vector (front ++ operands ++ element :: rest) nulls).getD
      (front.length + operands.length) none = some element := by
    have := getD_vector (front ++ operands) element rest nulls
    rwa [List.length_append] at this
  have hne : front.length + operands.length ≠
      (front ++ operands ++ element :: rest).length := by
    simp only [List.length_append, List.length_cons]
    omega
  unfold stopAt
  simp only [hget, if_neg hne]
  have hother : ¬ (front.length + operands.length ≠
      (front ++ operands ++ element :: rest).length ∧ some element = some "--".toList) :=
    fun h ↦ hdashes (Option.some.inj h.2)
  rw [if_neg hother]
  rfl

end Advance

/-! ## One call -/

section Call

variable {front operands recent skipped rest : List (List Char)} {nulls argc : ℕ} {argv : Argv}
  {d : GetoptData} {element letters : List Char} {c : Char} {optstring : List Char}

/-- The first call initializes the static data. -/
theorem getopt_start (optstring : List Char) {argc : ℕ} (hargc : 0 < argc) (argv : Argv) :
    getopt optstring argc argv .start =
      getopt optstring argc argv (getoptInitialize .start) := by
  have hnot : ¬ argc < 1 := by omega
  simp [getopt, hnot, GetoptData.start, getoptInitialize]

/-- Between two elements a call is a search. -/
theorem getopt_between (hargc : 0 < argc) (hoptind : d.optind ≠ 0) (hinit : d.initialized = true)
    (hnext : d.nextchar = []) :
    getopt optstring argc argv d =
      match advance argc argv { d with optarg := none } with
      | .finished argv d => (none, argv, d)
      | .element argv d =>
          (some (letter optstring argc argv d).1, argv, (letter optstring argc argv d).2) := by
  have hargc' : ¬ argc < 1 := by omega
  simp only [getopt, if_neg hargc', hoptind, hinit, hnext]
  rfl

/-- Inside an element a call reads the next letter. -/
theorem getopt_inside (hargc : 0 < argc) (hoptind : d.optind ≠ 0) (hinit : d.initialized = true)
    (hnext : d.nextchar = c :: letters) :
    getopt optstring argc argv d =
      (some (letter optstring argc argv { d with optarg := none }).1, argv,
        (letter optstring argc argv { d with optarg := none }).2) := by
  have hargc' : ¬ argc < 1 := by omega
  simp only [getopt, if_neg hargc', hoptind, hinit, hnext]
  rfl

theorem Scanning.getopt_eq (h : Scanning front operands recent rest nulls argc argv d) :
    getopt optstring argc argv d =
      match advance argc argv { d with optarg := none } with
      | .finished argv d => (none, argv, d)
      | .element argv d =>
          (some (letter optstring argc argv d).1, argv, (letter optstring argc argv d).2) := by
  have hfront := List.length_pos_iff.mpr h.front_ne
  apply getopt_between ?_ ?_ h.initialized h.nextchar
  · rw [h.argc_eq]
    simp only [List.length_append]
    omega
  · rw [h.optind]
    omega

theorem Inside.getopt_eq (h : Inside front operands element (c :: letters) rest nulls argc argv d) :
    getopt optstring argc argv d =
      (some (letter optstring argc argv { d with optarg := none }).1, argv,
        (letter optstring argc argv { d with optarg := none }).2) := by
  have hfront := List.length_pos_iff.mpr h.front_ne
  apply getopt_inside ?_ ?_ h.initialized h.nextchar
  · rw [h.argc_eq]
    simp only [List.length_append, List.length_cons]
    omega
  · rw [h.optind]
    omega

theorem Scanning.with_optarg (h : Scanning front operands recent rest nulls argc argv d)
    (optarg : Option (List Char)) :
    Scanning front operands recent rest nulls argc argv { d with optarg := optarg } :=
  ⟨h.argv_eq, h.argc_eq, h.optind, h.firstNonopt, h.lastNonopt, h.nextchar, h.initialized,
    h.front_ne⟩

/-- With only operands left the scan ends in front of all operands. -/
theorem Scanning.getopt_end
    (h : Scanning front operands recent skipped nulls argc argv d) (optstring : List Char)
    (hskipped : ∀ operand ∈ skipped, isOperand operand = true) :
    ∃ d', getopt optstring argc argv d =
        (none, vector (front ++ recent ++ (operands ++ skipped)) nulls, d') ∧
      d'.optind = (front ++ recent).length := by
  have hscan : Scanning front operands recent (skipped ++ []) nulls argc argv
      { d with optarg := none } := by
    rw [List.append_nil]
    exact h.with_optarg none
  obtain ⟨d', hstop, hoptind⟩ := stopAt_end (front ++ recent) (operands ++ skipped) nulls
    { d with optarg := none }
  have hargc : argc = (front ++ recent ++ (operands ++ skipped)).length := by
    rw [h.argc_eq]
    simp only [List.length_append]
    omega
  refine ⟨d', ?_, hoptind⟩
  rw [h.getopt_eq, hscan.advance_eq hskipped (by simp), List.append_nil, hargc, hstop]

/-- At `--` the scan ends in front of all operands and behind the two dashes. -/
theorem Scanning.getopt_dashes
    (h : Scanning front operands recent (skipped ++ "--".toList :: rest) nulls argc argv d)
    (optstring : List Char) (hskipped : ∀ operand ∈ skipped, isOperand operand = true) :
    ∃ d', getopt optstring argc argv d =
        (none, vector (front ++ recent ++ "--".toList :: (operands ++ skipped) ++ rest) nulls,
          d') ∧
      d'.optind = (front ++ recent).length + 1 := by
  obtain ⟨d', hstop, hoptind⟩ := stopAt_dashes (front ++ recent) (operands ++ skipped) rest nulls
    { d with optarg := none }
  have hargc : argc = (front ++ recent ++ (operands ++ skipped) ++ "--".toList :: rest).length := by
    rw [h.argc_eq]
    simp only [List.length_append]
    omega
  refine ⟨d', ?_, hoptind⟩
  rw [h.getopt_eq, (h.with_optarg none).advance_eq hskipped (by simp [isOperand]), hargc, hstop]

/-- At an option element the call does what it would do inside that element. -/
theorem Scanning.getopt_element
    (h : Scanning front operands recent (skipped ++ element :: rest) nulls argc argv d)
    (optstring : List Char) (hskipped : ∀ operand ∈ skipped, isOperand operand = true)
    (hoption : isOperand element = false) (hdashes : element ≠ "--".toList) :
    ∃ argv' d', Inside (front ++ recent) (operands ++ skipped) element element.tail rest nulls argc
        argv' d' ∧
      getopt optstring argc argv d = getopt optstring argc argv' d' := by
  have hargc : argc = (front ++ recent ++ (operands ++ skipped) ++ element :: rest).length := by
    rw [h.argc_eq]
    simp only [List.length_append]
    omega
  have hstop := stopAt_element hdashes (front ++ recent) (operands ++ skipped) rest nulls
    { d with optarg := none }
  obtain ⟨c, letters, hletters⟩ := List.exists_cons_of_ne_nil (tail_ne_nil hoption)
  have hinside : Inside (front ++ recent) (operands ++ skipped) element element.tail rest nulls argc
      (vector (front ++ recent ++ (operands ++ skipped) ++ element :: rest) nulls)
      { d with
        optarg := none
        optind := (front ++ recent).length + (operands ++ skipped).length
        firstNonopt := (front ++ recent).length
        lastNonopt := (front ++ recent).length + (operands ++ skipped).length
        nextchar := element.tail } :=
    ⟨rfl, hargc, rfl, rfl, rfl, rfl, h.initialized, by simp [h.front_ne]⟩
  refine ⟨_, _, hinside, ?_⟩
  rw [hletters] at hinside
  rw [h.getopt_eq, (h.with_optarg none).advance_eq hskipped (by simp [hoption])]
  rw [hletters, hinside.getopt_eq]
  simp only [hargc] at hstop ⊢
  rw [hstop]
  simp only [hletters]

end Call

section Letter

variable {front operands rest : List (List Char)} {nulls argc : ℕ} {argv : Argv}
  {d d' : GetoptData} {element letters argument : List Char} {c : Char} {optstring : List Char}

/-- The element has been read to its end. -/
theorem Inside.scanning (h : Inside front operands element letters rest nulls argc argv d)
    (hoptind : d'.optind = d.optind + 1) (hfirst : d'.firstNonopt = d.firstNonopt)
    (hlast : d'.lastNonopt = d.lastNonopt) (hnext : d'.nextchar = [])
    (hinit : d'.initialized = d.initialized) :
    Scanning front operands [element] rest nulls argc argv d' where
  argv_eq := by rw [h.argv_eq, List.append_assoc _ [element], List.singleton_append]
  argc_eq := by rw [h.argc_eq, List.append_assoc _ [element], List.singleton_append]
  optind := by rw [hoptind, h.optind, List.length_singleton]
  firstNonopt := hfirst.trans h.firstNonopt
  lastNonopt := hlast.trans h.lastNonopt
  nextchar := hnext
  initialized := hinit.trans h.initialized
  front_ne := h.front_ne

/-- The element and its argument after it have been read. -/
theorem Inside.scanning_argument
    (h : Inside front operands element letters (argument :: rest) nulls argc argv d)
    (hoptind : d'.optind = d.optind + 2) (hfirst : d'.firstNonopt = d.firstNonopt)
    (hlast : d'.lastNonopt = d.lastNonopt) (hnext : d'.nextchar = [])
    (hinit : d'.initialized = d.initialized) :
    Scanning front operands [element, argument] rest nulls argc argv d' where
  argv_eq := by rw [h.argv_eq, List.append_assoc _ [element, argument]]; rfl
  argc_eq := by rw [h.argc_eq, List.append_assoc _ [element, argument]]; rfl
  optind := by rw [hoptind, h.optind, List.length_cons, List.length_singleton]
  firstNonopt := hfirst.trans h.firstNonopt
  lastNonopt := hlast.trans h.lastNonopt
  nextchar := hnext
  initialized := hinit.trans h.initialized
  front_ne := h.front_ne

/-- A letter without argument that is not the last one. -/
theorem Inside.getopt_flag
    (h : Inside front operands element (c :: letters) rest nulls argc argv d)
    (hc : takesArgument optstring c = some .no) (hletters : letters ≠ []) :
    ∃ d', getopt optstring argc argv d = (some c, argv, d') ∧
      Inside front operands element letters rest nulls argc argv d' := by
  rw [h.getopt_eq, letter]
  simp only [h.nextchar, hc, if_neg hletters]
  exact ⟨_, rfl, h.argv_eq, h.argc_eq, h.optind, h.firstNonopt, h.lastNonopt, rfl, h.initialized,
    h.front_ne⟩

/-- A letter without argument at the end of its element, or one whose optional argument is
missing. -/
theorem Inside.getopt_last
    (h : Inside front operands element [c] rest nulls argc argv d)
    (hc : takesArgument optstring c = some .no ∨ takesArgument optstring c = some .optional) :
    ∃ d', getopt optstring argc argv d = (some c, argv, d') ∧ d'.optarg = none ∧
      Scanning front operands [element] rest nulls argc argv d' := by
  rw [h.getopt_eq, letter]
  rcases hc with hc | hc
  · simp only [h.nextchar, hc, if_true]
    exact ⟨_, rfl, rfl, h.scanning rfl rfl rfl rfl rfl⟩
  · simp only [h.nextchar, hc, if_true, ne_eq, not_true_eq_false, if_false]
    exact ⟨_, rfl, rfl, h.scanning rfl rfl rfl rfl rfl⟩

/-- A letter whose argument is the rest of its element. -/
theorem Inside.getopt_attached
    (h : Inside front operands element (c :: letters) rest nulls argc argv d)
    (hc : takesArgument optstring c = some .required ∨ takesArgument optstring c = some .optional)
    (hletters : letters ≠ []) :
    ∃ d', getopt optstring argc argv d = (some c, argv, d') ∧ d'.optarg = some letters ∧
      Scanning front operands [element] rest nulls argc argv d' := by
  rw [h.getopt_eq, letter]
  rcases hc with hc | hc
  · simp only [h.nextchar, hc, ne_eq, hletters, not_false_eq_true, if_true]
    exact ⟨_, rfl, rfl, h.scanning rfl rfl rfl rfl rfl⟩
  · simp only [h.nextchar, hc, ne_eq, hletters, not_false_eq_true, if_true]
    exact ⟨_, rfl, rfl, h.scanning rfl rfl rfl rfl rfl⟩

/-- A letter whose argument is the next element. -/
theorem Inside.getopt_separate
    (h : Inside front operands element [c] (argument :: rest) nulls argc argv d)
    (hc : takesArgument optstring c = some .required) :
    ∃ d', getopt optstring argc argv d = (some c, argv, d') ∧ d'.optarg = some argument ∧
      Scanning front operands [element, argument] rest nulls argc argv d' := by
  have hargc : d.optind + 1 ≠ argc := by
    rw [h.optind, h.argc_eq]
    simp only [List.length_append, List.length_cons]
    omega
  have hget : argv.getD (d.optind + 1) none = some argument := by
    have := getD_vector (front ++ operands ++ [element]) argument rest nulls
    rw [h.argv_eq, h.optind]
    simpa [Nat.add_assoc] using this
  rw [h.getopt_eq, letter]
  simp only [h.nextchar, hc, if_true, ne_eq, not_true_eq_false, if_false, if_neg hargc]
  exact ⟨_, rfl, hget, h.scanning_argument rfl rfl rfl rfl rfl⟩

/-- A letter whose argument is missing. -/
theorem Inside.getopt_missing
    (h : Inside front operands element [c] [] nulls argc argv d)
    (hc : takesArgument optstring c = some .required) :
    ∃ d', getopt optstring argc argv d = (some '?', argv, d') := by
  have hargc : d.optind + 1 = argc := by
    rw [h.optind, h.argc_eq]
    simp only [List.length_append, List.length_cons, List.length_nil]
  rw [h.getopt_eq, letter]
  simp only [h.nextchar, hc, if_true, ne_eq, not_true_eq_false, if_false, if_pos hargc]
  exact ⟨_, rfl⟩

/-- Whatever the letter is, it or the error character is returned. -/
theorem letter_fst (optstring : List Char) (argc : ℕ) (argv : Argv)
    (hnext : d.nextchar = c :: letters) :
    (letter optstring argc argv d).1 = c ∨ (letter optstring argc argv d).1 = '?' := by
  simp only [letter, hnext]
  cases takesArgument optstring c with
  | none => exact Or.inr rfl
  | some takes =>
    cases takes with
    | no => exact Or.inl rfl
    | required =>
      dsimp only
      split_ifs <;> first | exact Or.inl rfl | exact Or.inr rfl
    | optional =>
      dsimp only
      split_ifs <;> exact Or.inl rfl

theorem Inside.getopt_fst
    (h : Inside front operands element (c :: letters) rest nulls argc argv d)
    (optstring : List Char) :
    ∃ opt argv' d', getopt optstring argc argv d = (some opt, argv', d') ∧
      (opt = c ∨ opt = '?') := by
  rw [h.getopt_eq]
  exact ⟨_, _, _, rfl, letter_fst optstring argc argv h.nextchar⟩

end Letter

/-! ## Scans that have passed over no operand

As long as no operand has been passed over, the two indices of the scanner that delimit them are
equal, and where they are does not matter.  A caller may then delete elements in front of the index
as well.
-/

/-- Between two elements, `front` has been read and no operand has been passed over. -/
structure Unskipped (front rest : List (List Char)) (nulls argc : ℕ) (argv : Argv)
    (d : GetoptData) : Prop where
  argv_eq : argv = vector (front ++ rest) nulls
  argc_eq : argc = (front ++ rest).length
  optind : d.optind = front.length
  nonopts : d.firstNonopt = d.lastNonopt
  nextchar : d.nextchar = []
  initialized : d.initialized = true
  front_ne : front ≠ []

/-- Inside an option element behind `front`, and no operand has been passed over. -/
structure UnskippedInside (front : List (List Char)) (element letters : List Char)
    (rest : List (List Char)) (nulls argc : ℕ) (argv : Argv) (d : GetoptData) : Prop where
  argv_eq : argv = vector (front ++ element :: rest) nulls
  argc_eq : argc = (front ++ element :: rest).length
  optind : d.optind = front.length
  nonopts : d.firstNonopt = d.lastNonopt
  nextchar : d.nextchar = letters
  initialized : d.initialized = true
  front_ne : front ≠ []

/-- The data with both indices of the operands moved. -/
def GetoptData.withNonopts (d : GetoptData) (first last : ℕ) : GetoptData :=
  { d with firstNonopt := first, lastNonopt := last }

section Unskipped

variable {front rest : List (List Char)} {nulls argc : ℕ} {argv : Argv} {d : GetoptData}
  {element letters argument : List Char} {c : Char} {optstring : List Char}

/-- Without operands there is nothing to bring in order. -/
theorem settle_same (argv : Argv) (index top : ℕ) : settle argv index index top = (argv, top) := by
  rw [settle, if_neg (fun h ↦ h.1 rfl)]
  split_ifs with h
  · rfl
  · rw [not_not.mp h]

theorem Unskipped.scanning (h : Unskipped front rest nulls argc argv d) :
    Scanning front [] [] rest nulls argc argv (d.withNonopts front.length front.length) where
  argv_eq := by simpa using h.argv_eq
  argc_eq := by simpa using h.argc_eq
  optind := h.optind
  firstNonopt := rfl
  lastNonopt := rfl
  nextchar := h.nextchar
  initialized := h.initialized
  front_ne := h.front_ne

theorem Scanning.unskipped {recent : List (List Char)}
    (h : Scanning front [] recent rest nulls argc argv d) (index : ℕ) :
    Unskipped (front ++ recent) rest nulls argc argv (d.withNonopts index index) where
  argv_eq := by simpa using h.argv_eq
  argc_eq := by simpa using h.argc_eq
  optind := by rw [List.length_append]; exact h.optind
  nonopts := rfl
  nextchar := h.nextchar
  initialized := h.initialized
  front_ne := by simp [h.front_ne]

/-- The search does not depend on where the empty segment of operands is. -/
theorem advance_withNonopts (argc : ℕ) (argv : Argv) (d : GetoptData) (first last : ℕ) :
    advance argc argv (d.withNonopts first first) =
      advance argc argv (d.withNonopts last last) := by
  simp only [advance, GetoptData.withNonopts, settle_same]

theorem GetoptData.withNonopts_self (h : d.firstNonopt = d.lastNonopt) :
    d.withNonopts d.lastNonopt d.lastNonopt = d := by
  cases d
  simp_all [withNonopts]

/-- A call does what it would do with the indices where the scan is. -/
theorem Unskipped.getopt_eq (h : Unskipped front rest nulls argc argv d) :
    getopt optstring argc argv d =
      getopt optstring argc argv (d.withNonopts front.length front.length) := by
  have hfront := List.length_pos_iff.mpr h.front_ne
  have hargc : 0 < argc := by
    rw [h.argc_eq, List.length_append]
    omega
  have hoptind : d.optind ≠ 0 := by
    rw [h.optind]
    omega
  have hsame : advance argc argv { d with optarg := none } =
      advance argc argv { d.withNonopts front.length front.length with optarg := none } := by
    rw [← GetoptData.withNonopts_self (d := { d with optarg := none }) h.nonopts]
    exact advance_withNonopts argc argv { d with optarg := none } d.lastNonopt front.length
  rw [getopt_between hargc hoptind h.initialized h.nextchar, hsame, ← h.scanning.getopt_eq]

/-- At the operands the scan ends. -/
theorem Unskipped.getopt_end (h : Unskipped front rest nulls argc argv d) (optstring : List Char)
    (hrest : ∀ operand ∈ rest, isOperand operand = true) :
    ∃ d', getopt optstring argc argv d = (none, vector (front ++ rest) nulls, d') ∧
      d'.optind = front.length := by
  obtain ⟨d', hgetopt, hoptind⟩ := h.scanning.getopt_end optstring hrest
  refine ⟨d', ?_, by simpa using hoptind⟩
  rw [h.getopt_eq, hgetopt]
  simp

/-- At an option element the call does what it would do inside that element. -/
theorem Unskipped.getopt_element (h : Unskipped front (element :: rest) nulls argc argv d)
    (optstring : List Char) (hoption : isOperand element = false)
    (hdashes : element ≠ "--".toList) :
    ∃ argv' d', UnskippedInside front element element.tail rest nulls argc argv' d' ∧
      getopt optstring argc argv d = getopt optstring argc argv' d' := by
  have hscan : Scanning front [] [] ([] ++ element :: rest) nulls argc argv
      (d.withNonopts front.length front.length) := h.scanning
  obtain ⟨argv', d', hinside, hgetopt⟩ :=
    hscan.getopt_element optstring (by simp) hoption hdashes
  refine ⟨argv', d', ?_, h.getopt_eq.trans hgetopt⟩
  exact ⟨by simpa using hinside.argv_eq, by simpa using hinside.argc_eq,
    by simpa using hinside.optind, by simpa using hinside.firstNonopt.trans hinside.lastNonopt.symm,
    hinside.nextchar, hinside.initialized, h.front_ne⟩

/-- Reading a letter leaves the indices of the operands alone. -/
theorem letter_withNonopts (optstring : List Char) (argc : ℕ) (argv : Argv) (d : GetoptData)
    (first last : ℕ) :
    letter optstring argc argv (d.withNonopts first last) =
      ((letter optstring argc argv d).1,
        (letter optstring argc argv d).2.withNonopts first last) := by
  obtain ⟨optind, optarg, nextchar, _, _, initialized⟩ := d
  simp only [letter, GetoptData.withNonopts]
  cases nextchar with
  | nil => rfl
  | cons c rest =>
    dsimp only
    cases takesArgument optstring c with
    | none => rfl
    | some takes =>
      cases takes with
      | no => rfl
      | optional | required =>
        dsimp only
        split_ifs <;> rfl

theorem UnskippedInside.inside (h : UnskippedInside front element letters rest nulls argc argv d) :
    Inside front [] element letters rest nulls argc argv
      (d.withNonopts front.length front.length) where
  argv_eq := by simpa using h.argv_eq
  argc_eq := by simpa using h.argc_eq
  optind := h.optind
  firstNonopt := rfl
  lastNonopt := rfl
  nextchar := h.nextchar
  initialized := h.initialized
  front_ne := h.front_ne

/-- A call with the indices where the scan is also says what the call does as they are. -/
theorem UnskippedInside.getopt_eq
    (h : UnskippedInside front element (c :: letters) rest nulls argc argv d)
    {opt : Option Char} {argv' : Argv} {d' : GetoptData}
    (hgetopt : getopt optstring argc argv (d.withNonopts front.length front.length) =
      (opt, argv', d')) :
    getopt optstring argc argv d = (opt, argv', d'.withNonopts d.lastNonopt d.lastNonopt) := by
  have hfront := List.length_pos_iff.mpr h.front_ne
  have hargc : 0 < argc := by
    rw [h.argc_eq, List.length_append]
    omega
  have hoptind : d.optind ≠ 0 := by
    rw [h.optind]
    omega
  have hletter := letter_withNonopts optstring argc argv
    { d.withNonopts front.length front.length with optarg := none } d.lastNonopt d.lastNonopt
  have hself : ({ d.withNonopts front.length front.length with optarg := none } :
      GetoptData).withNonopts d.lastNonopt d.lastNonopt = { d with optarg := none } :=
    GetoptData.withNonopts_self (d := { d with optarg := none }) h.nonopts
  rw [hself] at hletter
  rw [h.inside.getopt_eq, Prod.mk.injEq, Prod.mk.injEq] at hgetopt
  obtain ⟨rfl, rfl, rfl⟩ := hgetopt
  rw [getopt_inside hargc hoptind h.initialized h.nextchar, hletter]

/-- A letter without argument that is not the last one. -/
theorem UnskippedInside.getopt_flag
    (h : UnskippedInside front element (c :: letters) rest nulls argc argv d)
    (hc : takesArgument optstring c = some .no) (hletters : letters ≠ []) :
    ∃ d', getopt optstring argc argv d = (some c, argv, d') ∧
      UnskippedInside front element letters rest nulls argc argv d' := by
  obtain ⟨d', hgetopt, hinside⟩ := h.inside.getopt_flag hc hletters
  exact ⟨_, h.getopt_eq hgetopt, h.argv_eq, h.argc_eq, hinside.optind, rfl, hinside.nextchar,
    hinside.initialized, h.front_ne⟩

/-- A letter at the end of its element, without argument or with an optional one. -/
theorem UnskippedInside.getopt_last
    (h : UnskippedInside front element [c] rest nulls argc argv d)
    (hc : takesArgument optstring c = some .no ∨ takesArgument optstring c = some .optional) :
    ∃ d', getopt optstring argc argv d = (some c, argv, d') ∧ d'.optarg = none ∧
      Unskipped (front ++ [element]) rest nulls argc argv d' := by
  obtain ⟨d', hgetopt, hoptarg, hscan⟩ := h.inside.getopt_last hc
  exact ⟨_, h.getopt_eq hgetopt, hoptarg, hscan.unskipped d.lastNonopt⟩

/-- A letter whose argument is the rest of its element. -/
theorem UnskippedInside.getopt_attached
    (h : UnskippedInside front element (c :: letters) rest nulls argc argv d)
    (hc : takesArgument optstring c = some .required ∨ takesArgument optstring c = some .optional)
    (hletters : letters ≠ []) :
    ∃ d', getopt optstring argc argv d = (some c, argv, d') ∧ d'.optarg = some letters ∧
      Unskipped (front ++ [element]) rest nulls argc argv d' := by
  obtain ⟨d', hgetopt, hoptarg, hscan⟩ := h.inside.getopt_attached hc hletters
  exact ⟨_, h.getopt_eq hgetopt, hoptarg, hscan.unskipped d.lastNonopt⟩

/-- A letter whose argument is the next element. -/
theorem UnskippedInside.getopt_separate
    (h : UnskippedInside front element [c] (argument :: rest) nulls argc argv d)
    (hc : takesArgument optstring c = some .required) :
    ∃ d', getopt optstring argc argv d = (some c, argv, d') ∧ d'.optarg = some argument ∧
      Unskipped (front ++ [element, argument]) rest nulls argc argv d' := by
  obtain ⟨d', hgetopt, hoptarg, hscan⟩ := h.inside.getopt_separate hc
  exact ⟨_, h.getopt_eq hgetopt, hoptarg, hscan.unskipped d.lastNonopt⟩

end Unskipped

end FuseAdf.Getopt
