import FuseAdf.Options.Items

/-!
# The partition number

The argument of `-p` goes through `strtoul`, which skips white space, takes a sign and ignores what
follows the digits, then through a cast to 32 bits, and only then is compared with 10.
-/

namespace FuseAdf

open Getopt WhileLoop

/-- One or more decimal digits and nothing else, with this value. -/
def IsNumeral (text : CStr) (value : ℕ) : Prop :=
  text ≠ [] ∧ (∀ c ∈ text, c.isDigit = true) ∧ digitsValue text = value

/-- The next call of `getopt` returns `p` with this argument. -/
def ParseState.GivesPartition (state : ParseState) (text : CStr) : Prop :=
  ∃ argv d, Getopt.getopt validOptions state.argc state.argv state.getopt = (some 'p', argv, d) ∧
    d.optarg = some text

/-- A numeral up to 10 is taken as it is, and anything else makes `parse_args` return false. -/
structure ReadsPartition (realpath : CStr → Option CStr) (args : List CStr) (state : ParseState)
    (text : CStr) : Prop where
  takes : ∀ value ≤ 10, IsNumeral text value →
    ∃ next, parsePass realpath state = .inl next ∧ next.options.adfVolume.toNat = value
  refuses : (¬ ∃ value ≤ 10, IsNumeral text value) →
    ∃ last, parsePass realpath state = .inr (false, last) ∧
      ∃ fuel, parseArgs realpath fuel args = some (false, last)

/-- What is left of the digits after the cast to 32 bits. -/
def castValue (negative : Bool) (value : ℕ) : ℕ :=
  if negative then (2 ^ 32 - value % 2 ^ 32) % 2 ^ 32 else value % 2 ^ 32

/-- No digits follow the white space and the sign, or they are too many, or the cast leaves more than
10 of them. -/
def RefusedNumber (text : CStr) : Prop :=
  let (negative, digits) := signAndDigits (text.dropWhile isSpace)
  digits = [] ∨ 2 ^ 64 ≤ digitsValue digits ∨ 10 < castValue negative (digitsValue digits)

theorem toNat_castValue (negative : Bool) (value : ℕ) :
    ((if negative then -BitVec.ofNat 64 value else BitVec.ofNat 64 value).setWidth 32).toNat =
      castValue negative value := by
  cases negative with
  | false =>
    simp only [castValue, Bool.false_eq_true, if_false, BitVec.toNat_setWidth, BitVec.toNat_ofNat]
    omega
  | true =>
    simp only [castValue, if_true, BitVec.toNat_setWidth, BitVec.toNat_neg, BitVec.toNat_ofNat]
    omega

/-- A number is refused exactly for one of these reasons. -/
theorem refusedNumber_iff (text : CStr) :
    RefusedNumber text ↔ ∀ number ∈ strtoul text, 10 < (number.setWidth 32).toNat := by
  unfold RefusedNumber strtoul
  rcases signAndDigits (text.dropWhile isSpace) with ⟨negative, digits⟩
  dsimp only
  by_cases hdigits : digits = []
  · simp [hdigits]
  · by_cases hlarge : 2 ^ 64 ≤ digitsValue digits
    · rw [if_neg hdigits, if_pos hlarge]
      refine iff_of_true (Or.inr (Or.inl hlarge)) ?_
      intro number hnumber
      obtain rfl := Option.some.inj hnumber
      decide
    · rw [if_neg hdigits, if_neg hlarge]
      simp only [hdigits, hlarge, false_or, Option.mem_def, Option.some.injEq, forall_eq',
        toNat_castValue]

theorem parsePass_refused (realpath : CStr → Option CStr) {state : ParseState} {text : CStr}
    (hgives : state.GivesPartition text) (hrefused : RefusedNumber text) :
    ∃ last, parsePass realpath state = .inr (false, last) := by
  obtain ⟨argv, d, hgetopt, hoptarg⟩ := hgives
  rw [refusedNumber_iff] at hrefused
  rw [parsePass_of_getopt hgetopt]
  simp only [parseOption, hoptarg, Option.bind_some]
  cases hnumber : strtoul text with
  | none => exact ⟨_, rfl⟩
  | some number =>
    dsimp only
    rw [if_pos (hrefused number hnumber)]
    exact ⟨_, rfl⟩

theorem parsePass_taken (realpath : CStr → Option CStr) {state : ParseState} {text : CStr}
    (hgives : state.GivesPartition text) (htaken : ¬ RefusedNumber text) :
    ∃ number next, strtoul text = some number ∧ parsePass realpath state = .inl next ∧
      next.options.adfVolume = number.setWidth 32 := by
  obtain ⟨argv, d, hgetopt, hoptarg⟩ := hgives
  rw [refusedNumber_iff] at htaken
  push Not at htaken
  obtain ⟨number, hnumber, hsmall⟩ := htaken
  rw [Option.mem_def] at hnumber
  rw [parsePass_of_getopt hgetopt]
  simp only [parseOption, hoptarg, Option.bind_some, hnumber]
  rw [if_neg (by omega)]
  exact ⟨number, _, rfl, rfl, rfl⟩

theorem strtoul_of_isNumeral {text : CStr} {value : ℕ} (h : IsNumeral text value)
    (hle : value ≤ 10) : strtoul text = some (BitVec.ofNat 64 value) := by
  obtain ⟨hne, hdigits, rfl⟩ := h
  exact strtoul_number hne hdigits hle

theorem not_refused_of_isNumeral {text : CStr} {value : ℕ} (h : IsNumeral text value)
    (hle : value ≤ 10) : ¬ RefusedNumber text := by
  rw [refusedNumber_iff, strtoul_of_isNumeral h hle]
  push Not
  refine ⟨BitVec.ofNat 64 value, rfl, ?_⟩
  simp only [BitVec.toNat_setWidth, BitVec.toNat_ofNat]
  omega

/-- For every state of every run in which `-p` is read with this text, the text is read exactly if it
is a numeral up to 10 or is one of those that are refused. -/
theorem readsPartition_iff (realpath : CStr → Option CStr) (args : List CStr) (state : ParseState)
    (text : CStr) (hreaches : Reaches (parsePass realpath) (.start args) state)
    (hgives : state.GivesPartition text) :
    ReadsPartition realpath args state text ↔
      (∃ value ≤ 10, IsNumeral text value) ∨ RefusedNumber text := by
  constructor
  · intro h
    by_contra hnot
    push Not at hnot
    obtain ⟨hnumeral, hrefused⟩ := hnot
    obtain ⟨last, hlast, -⟩ := h.refuses (by push Not; exact hnumeral)
    obtain ⟨number, next, -, hnext, -⟩ := parsePass_taken realpath hgives hrefused
    exact absurd (hlast.symm.trans hnext) (by simp)
  · intro h
    refine ⟨fun value hle hvalue ↦ ?_, fun hnumeral ↦ ?_⟩
    · obtain ⟨number, next, hnumber, hnext, hvolume⟩ :=
        parsePass_taken realpath hgives (not_refused_of_isNumeral hvalue hle)
      rw [strtoul_of_isNumeral hvalue hle] at hnumber
      obtain rfl := Option.some.inj hnumber
      refine ⟨next, hnext, ?_⟩
      rw [hvolume, BitVec.toNat_setWidth, BitVec.toNat_ofNat]
      omega
    · obtain ⟨last, hlast⟩ :=
        parsePass_refused realpath hgives (h.resolve_left hnumeral)
      have hends : Ends (parsePass realpath) (.start args) (false, last) :=
        (hreaches.endsAlike (false, last)).mpr (.done hlast)
      exact ⟨last, hlast, run_of_ends hends⟩

theorem readsPartition_seven :
    ReadsPartition some ["fuseadf".toList, "-p".toList, "7".toList, "img".toList, "mnt".toList]
      (.start ["fuseadf".toList, "-p".toList, "7".toList, "img".toList, "mnt".toList]) "7".toList :=
  (readsPartition_iff some
    ["fuseadf".toList, "-p".toList, "7".toList, "img".toList, "mnt".toList] _ "7".toList (.refl _)
    ⟨_, _, rfl, rfl⟩).mpr
    (Or.inl ⟨7, by decide, by decide, List.all_eq_true.mp (by decide), by decide⟩)

/-- `-p 1x` mounts partition 1. -/
theorem not_readsPartition_tail :
    ¬ ∀ (realpath : CStr → Option CStr) (args : List CStr) (state : ParseState) (text : CStr),
      Reaches (parsePass realpath) (.start args) state → state.GivesPartition text →
      ReadsPartition realpath args state text := by
  intro h
  have hgives : ParseState.GivesPartition (.start ["fuseadf".toList, "-p".toList, "1x".toList,
      "img".toList, "mnt".toList]) "1x".toList := ⟨_, _, rfl, rfl⟩
  have hread := h some _ _ "1x".toList (.refl _) hgives
  have hnumeral : ¬ ∃ value ≤ 10, IsNumeral "1x".toList value := by
    rintro ⟨value, -, -, hdigits, -⟩
    exact absurd (hdigits 'x' (by decide)) (by decide)
  have hrefused : ¬ RefusedNumber "1x".toList := by
    rw [refusedNumber_iff]
    push Not
    exact ⟨1, by decide +kernel, by decide⟩
  obtain ⟨last, hlast, -⟩ := hread.refuses hnumeral
  obtain ⟨number, next, -, hnext, -⟩ := parsePass_taken some hgives hrefused
  exact absurd (hlast.symm.trans hnext) (by simp)

end FuseAdf
