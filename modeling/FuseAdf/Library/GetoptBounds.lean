import FuseAdf.Library.Getopt

/-!
# Where the scanner is

Whatever the vector holds, and whatever a caller has deleted from it between two calls: a call only
changes the order of the strings, and its index stays within the vector.  `ScanBounds` is what the
scanner itself relies on, and what a caller has to keep.
-/

namespace FuseAdf.Getopt

/-- The index is in the vector, at an element while letters of one are to be read, and the operands
passed over are a segment. -/
structure ScanBounds (argc : ℕ) (d : GetoptData) : Prop where
  optind : d.optind ≤ argc
  nextchar : d.nextchar ≠ [] → d.optind < argc
  nonopts : d.firstNonopt ≤ d.lastNonopt

/-- After an option has been returned: behind at least one element, and behind at least two if the
option has taken all of its element. -/
structure LetterBounds (optstring : List Char) (argc : ℕ) (c : Char) (d : GetoptData) : Prop where
  bounds : ScanBounds argc d
  one_le : 1 ≤ d.optind
  two_le : c ≠ '?' →
    takesArgument optstring c = some .required ∨ takesArgument optstring c = some .optional →
    2 ≤ d.optind

section Vector

variable {args : List (List Char)} {nulls first last top : ℕ}

/-- A segment of the vector is moved as a whole. -/
theorem exchange_perm (args : List (List Char)) (nulls : ℕ) (hfirst : first ≤ last)
    (hlast : last ≤ top) (htop : top ≤ args.length) :
    ∃ args', args'.Perm args ∧ exchange (vector args nulls) first last top = vector args' nulls := by
  obtain ⟨front, hfront⟩ : ∃ front, front = args.take first := ⟨_, rfl⟩
  obtain ⟨operands, hoperands⟩ : ∃ operands, operands = (args.drop first).take (last - first) :=
    ⟨_, rfl⟩
  obtain ⟨recent, hrecent⟩ : ∃ recent, recent = (args.drop last).take (top - last) := ⟨_, rfl⟩
  have hsplit : front ++ operands ++ recent ++ args.drop top = args := by
    have hmiddle : recent ++ args.drop top = args.drop last := by
      rw [hrecent, ← Nat.add_sub_of_le hlast, ← List.drop_drop, Nat.add_sub_cancel_left,
        List.take_append_drop]
    rw [List.append_assoc, hmiddle, hfront, hoperands, segments_eq args hfirst]
  have hfrontLength : front.length = first := by
    rw [hfront, List.length_take]
    omega
  have hoperandsLength : front.length + operands.length = last := by
    rw [hfrontLength, hoperands, List.length_take, List.length_drop]
    omega
  have hrecentLength : front.length + operands.length + recent.length = top := by
    rw [hoperandsLength, hrecent, List.length_take, List.length_drop]
    omega
  refine ⟨front ++ recent ++ operands ++ args.drop top, ?_, ?_⟩
  · have hperm : (front ++ recent ++ operands ++ args.drop top).Perm
        (front ++ operands ++ recent ++ args.drop top) := by
      rw [List.append_assoc front recent, List.append_assoc front operands]
      exact (List.perm_append_comm.append_left front).append_right _
    rwa [hsplit] at hperm
  · rw [← exchange_vector, hsplit, hfrontLength, ← hoperandsLength, hfrontLength,
      ← hrecentLength, hfrontLength]

theorem settle_perm (args : List (List Char)) (nulls : ℕ) (hfirst : first ≤ last)
    (hlast : last ≤ top) (htop : top ≤ args.length) :
    ∃ args' first', args'.Perm args ∧ first' ≤ top ∧
      settle (vector args nulls) first last top = (vector args' nulls, first') := by
  unfold settle
  split_ifs
  · obtain ⟨args', hperm, hexchange⟩ := exchange_perm args nulls hfirst hlast htop
    exact ⟨args', first + (top - last), hperm, by omega, by rw [hexchange]⟩
  · exact ⟨args, top, .refl _, Nat.le_refl _, rfl⟩
  · exact ⟨args, first, .refl _, Nat.le_trans hfirst hlast, rfl⟩

end Vector

section Search

variable {args : List (List Char)} {d : GetoptData}

/-- The index that a search leaves; it does not go back to an option element. -/
def Advance.Within (low argc : ℕ) : Advance → Prop
  | .finished _ d => d.optind ≤ argc
  | .element _ d => low ≤ d.optind ∧ d.optind < argc ∧ d.firstNonopt ≤ d.lastNonopt

theorem Advance.Within.mono {low low' argc : ℕ} {result : Advance} (h : result.Within low argc)
    (hle : low' ≤ low) : result.Within low' argc := by
  cases result with
  | finished argv d => exact h
  | element argv d => exact ⟨Nat.le_trans hle h.1, h.2⟩

structure Searched (args : List (List Char)) (nulls low : ℕ) (result : Advance) : Prop where
  argv : ∃ args', args'.Perm args ∧ result.argv = vector args' nulls
  within : result.Within low args.length

theorem stopAt_searched (args : List (List Char)) (nulls : ℕ) (h : d.firstNonopt ≤ d.lastNonopt)
    (hlast : d.lastNonopt ≤ d.optind) (hoptind : d.optind ≤ args.length) :
    Searched args nulls d.optind (stopAt args.length (vector args nulls) d) := by
  unfold stopAt
  split
  · obtain ⟨args', first', hperm, hfirst', hsettle⟩ := settle_perm args nulls h
      (Nat.le_succ_of_le hlast) (by omega : d.optind + 1 ≤ args.length)
    rw [passDashes_eq_settle _ (by omega), hsettle]
    refine ⟨⟨args', hperm, rfl⟩, ?_⟩
    dsimp only [Advance.Within]
    split_ifs <;> omega
  · split
    · refine ⟨⟨args, .refl _, rfl⟩, ?_⟩
      dsimp only [Advance.Within]
      split_ifs <;> omega
    · exact ⟨⟨args, .refl _, rfl⟩, Nat.le_refl _, by dsimp only; omega, h⟩

theorem advance_searched (args : List (List Char)) (nulls : ℕ) (h : d.firstNonopt ≤ d.lastNonopt)
    (hoptind : d.optind ≤ args.length) :
    Searched args nulls d.optind (advance args.length (vector args nulls) d) := by
  have hfirst : min d.firstNonopt d.optind ≤ min d.lastNonopt d.optind := by omega
  obtain ⟨args', first', hperm, hfirst', hsettle⟩ := settle_perm args nulls hfirst
    (Nat.min_le_right _ _) hoptind
  obtain ⟨skipped, hskipped⟩ : ∃ skipped, skipped =
      ((((vector args' nulls).take args.length).drop d.optind).takeWhile nonoptionP).length :=
    ⟨_, rfl⟩
  have hle : d.optind + skipped ≤ args.length := by
    have htake := (List.takeWhile_prefix nonoptionP
      (l := ((vector args' nulls).take args.length).drop d.optind)).length_le
    rw [← hskipped, List.length_drop, List.length_take] at htake
    omega
  have hstop := stopAt_searched (d := { d with
    optind := d.optind + skipped
    firstNonopt := first'
    lastNonopt := d.optind + skipped }) args' nulls (by dsimp only; omega) (Nat.le_refl _)
    (by rw [hperm.length_eq]; exact hle)
  unfold advance
  simp only [hsettle, ← hskipped]
  obtain ⟨args'', hperm', hargv⟩ := hstop.argv
  have hwithin := hstop.within
  rw [hperm.length_eq] at hargv hwithin
  exact ⟨⟨args'', hperm'.trans hperm, hargv⟩, hwithin.mono (Nat.le_add_right _ _)⟩

end Search

/-! ## One call -/

section Call

variable {d : GetoptData} {argc : ℕ}

/-- A letter is read at an element, and the index goes on by at most two. -/
theorem letter_bounds (optstring : List Char) (argv : Argv) (hone : 1 ≤ d.optind)
    (hoptind : d.optind < argc) (hnonopts : d.firstNonopt ≤ d.lastNonopt) :
    LetterBounds optstring argc (letter optstring argc argv d).1
      (letter optstring argc argv d).2 := by
  have herror : ∀ d' : GetoptData, ScanBounds argc d' → 1 ≤ d'.optind →
      LetterBounds optstring argc '?' d' :=
    fun d' hbounds hone' ↦ ⟨hbounds, hone', fun hne ↦ absurd rfl hne⟩
  -- an option with its argument, if it has one, is behind its whole element
  have htaken : ∀ (c : Char) (d' : GetoptData), d'.nextchar = [] → 2 ≤ d'.optind →
      d'.optind ≤ argc → d'.firstNonopt ≤ d'.lastNonopt → LetterBounds optstring argc c d' :=
    fun c d' hnext htwo hle hsegment ↦
      ⟨⟨hle, fun hne ↦ absurd hnext hne, hsegment⟩, by omega, fun _ _ ↦ htwo⟩
  unfold letter
  cases hnext : d.nextchar with
  | nil => exact herror d ⟨Nat.le_of_lt hoptind, fun _ ↦ hoptind, hnonopts⟩ hone
  | cons c rest =>
    dsimp only
    have hread : ScanBounds argc { d with
        optind := if rest = [] then d.optind + 1 else d.optind
        nextchar := rest } := by
      refine ⟨?_, fun hrest ↦ ?_, hnonopts⟩
      · dsimp only
        split_ifs <;> omega
      · dsimp only at hrest ⊢
        rw [if_neg hrest]
        exact hoptind
    have hread_one : 1 ≤ if rest = [] then d.optind + 1 else d.optind := by
      split_ifs <;> omega
    cases htakes : takesArgument optstring c with
    | none => exact herror _ hread hread_one
    | some takes =>
      cases takes with
      | no => exact ⟨hread, hread_one, fun _ hc ↦ by simp [htakes] at hc⟩
      | optional =>
        dsimp only
        by_cases hrest : rest = []
        · rw [if_neg (not_not_intro hrest), if_pos hrest]
          exact htaken c _ rfl (Nat.succ_le_succ hone) hoptind hnonopts
        · rw [if_pos hrest, if_neg hrest]
          exact htaken c _ rfl (Nat.succ_le_succ hone) hoptind hnonopts
      | required =>
        dsimp only
        by_cases hrest : rest = []
        · rw [if_neg (not_not_intro hrest), if_pos hrest]
          split_ifs with hend
          · exact herror _ ⟨hoptind, fun hne ↦ absurd rfl hne, hnonopts⟩ (Nat.le_succ_of_le hone)
          · exact htaken c _ rfl (Nat.le_succ_of_le (Nat.succ_le_succ hone))
              (Nat.lt_of_le_of_ne hoptind hend) hnonopts
        · rw [if_pos hrest, if_neg hrest]
          exact htaken c _ rfl (Nat.succ_le_succ hone) hoptind hnonopts

/-- What a call leaves: the strings in another order, and an index within the vector. -/
structure Called (optstring : List Char) (args : List (List Char)) (nulls : ℕ)
    (result : Option Char × Argv × GetoptData) : Prop where
  argv : ∃ args', args'.Perm args ∧ result.2.1 = vector args' nulls
  finished : result.1 = none → result.2.2.optind ≤ args.length
  option : ∀ c, result.1 = some c → LetterBounds optstring args.length c result.2.2

theorem called_of_search (optstring : List Char) (args : List (List Char)) (nulls : ℕ)
    (hone : 1 ≤ d.optind) (hoptind : d.optind ≤ args.length)
    (hnonopts : d.firstNonopt ≤ d.lastNonopt) :
    Called optstring args nulls
      (match advance args.length (vector args nulls) d with
      | .finished argv d => (none, argv, d)
      | .element argv d =>
          (some (letter optstring args.length argv d).1, argv,
            (letter optstring args.length argv d).2)) := by
  have hsearch := advance_searched args nulls hnonopts hoptind
  obtain ⟨args', hperm, hargv⟩ := hsearch.argv
  have hwithin := hsearch.within
  cases hadvance : advance args.length (vector args nulls) d with
  | finished argv d' =>
    rw [hadvance] at hargv hwithin
    exact ⟨⟨args', hperm, hargv⟩, fun _ ↦ hwithin, fun c hc ↦ absurd hc (by simp)⟩
  | element argv d' =>
    rw [hadvance] at hargv hwithin
    obtain ⟨hlow, hhigh, hsegment⟩ := hwithin
    refine ⟨⟨args', hperm, hargv⟩, fun hnone ↦ absurd hnone (by simp), ?_⟩
    rintro c hc
    obtain rfl := Option.some.inj hc
    exact letter_bounds optstring argv (Nat.le_trans hone hlow) hhigh hsegment

/-- An index of 0, like the first call, starts the scan at 1. -/
theorem ScanBounds.initialize (h : ScanBounds argc d) (hargc : ¬ argc < 1) {d' : GetoptData}
    (hd' : (if d.optind = 0 ∨ d.initialized = false then getoptInitialize d else d) = d') :
    1 ≤ d'.optind ∧ ScanBounds argc d' := by
  subst hd'
  split_ifs with hinit
  · have hone : 1 ≤ (getoptInitialize d).optind ∧ (getoptInitialize d).optind ≤ argc := by
      have hoptind := h.optind
      dsimp only [getoptInitialize]
      split_ifs <;> omega
    exact ⟨hone.1, hone.2, fun hne ↦ absurd rfl hne, Nat.le_refl _⟩
  · push Not at hinit
    exact ⟨Nat.one_le_iff_ne_zero.mpr hinit.1, h⟩

/-- The bounds that a caller keeps are enough for the next call. -/
theorem getopt_called (optstring : List Char) (args : List (List Char)) (nulls : ℕ)
    (h : ScanBounds args.length d) :
    Called optstring args nulls (getopt optstring args.length (vector args nulls) d) := by
  by_cases hargc : args.length < 1
  · rw [getopt, if_pos hargc]
    exact ⟨⟨args, .refl _, rfl⟩, fun _ ↦ h.optind, fun c hc ↦ absurd hc (by simp)⟩
  · rw [getopt, if_neg hargc]
    dsimp only
    generalize hd' : (if d.optind = 0 ∨ d.initialized = false then
      getoptInitialize { d with optarg := none } else { d with optarg := none }) = d'
    have hcleared : ScanBounds args.length { d with optarg := none } :=
      ⟨h.optind, h.nextchar, h.nonopts⟩
    obtain ⟨hone, hbounds⟩ := hcleared.initialize hargc hd'
    split_ifs with hnext
    · exact called_of_search optstring args nulls hone hbounds.optind hbounds.nonopts
    · refine ⟨⟨args, .refl _, rfl⟩, fun hnone ↦ absurd hnone (by simp), ?_⟩
      rintro c hc
      obtain rfl := Option.some.inj hc
      exact letter_bounds optstring _ hone (hbounds.nextchar hnext) hbounds.nonopts

end Call

end FuseAdf.Getopt
