import Mathlib.Data.List.Basic

/-!
# Loops without a bound

A loop is a function that does one pass and either goes on with a new state or ends with a result.
`run` does at most a given number of passes, and `Ends` says what the loop ends with, however many
it takes.
-/

namespace FuseAdf.WhileLoop

variable {State Result : Type*} (pass : State → State ⊕ Result)

/-- The result of the loop, or `none` if it takes more passes than the fuel allows. -/
def run : ℕ → State → Option Result
  | 0, _ => none
  | fuel + 1, state =>
      match pass state with
      | .inl next => run fuel next
      | .inr result => some result

/-- The loop ends with this result. -/
inductive Ends : State → Result → Prop
  | done {state : State} {result : Result} (h : pass state = .inr result) : Ends state result
  | more {state next : State} {result : Result} (h : pass state = .inl next)
      (hnext : Ends next result) : Ends state result

variable {pass}

theorem ends_of_run {fuel : ℕ} {state : State} {result : Result}
    (h : run pass fuel state = some result) : Ends pass state result := by
  induction fuel generalizing state with
  | zero => simp [run] at h
  | succ fuel ih =>
    rw [run] at h
    cases hpass : pass state with
    | inl next =>
      rw [hpass] at h
      exact .more hpass (ih h)
    | inr result' =>
      rw [hpass] at h
      obtain rfl := Option.some.inj h
      exact .done hpass

/-- A pass that ends the loop gives its result. -/
theorem Ends.eq_of_done {state : State} {result result' : Result} (h : Ends pass state result)
    (hpass : pass state = .inr result') : result = result' := by
  cases h with
  | done h => exact Sum.inr.inj (h.symm.trans hpass)
  | more h => exact absurd (h.symm.trans hpass) (by simp)

/-- A pass that goes on can be left out. -/
theorem Ends.of_more {state next : State} {result : Result} (h : Ends pass state result)
    (hpass : pass state = .inl next) : Ends pass next result := by
  cases h with
  | done h => exact absurd (h.symm.trans hpass) (by simp)
  | more h hnext =>
    obtain rfl := Sum.inl.inj (h.symm.trans hpass)
    exact hnext

/-- States from which the next pass is the same end with the same results. -/
theorem Ends.congr {state state' : State} {result : Result} (h : Ends pass state result)
    (hpass : pass state' = pass state) : Ends pass state' result := by
  cases h with
  | done h => exact .done (hpass.trans h)
  | more h hnext => exact .more (hpass.trans h) hnext

theorem run_of_ends {state : State} {result : Result} (h : Ends pass state result) :
    ∃ fuel, run pass fuel state = some result := by
  induction h with
  | done hpass => exact ⟨1, by rw [run, hpass]⟩
  | more hpass _ ih =>
    obtain ⟨fuel, hrun⟩ := ih
    refine ⟨fuel + 1, ?_⟩
    rw [run, hpass]
    exact hrun

theorem Ends.unique {state : State} {result result' : Result} (h : Ends pass state result)
    (h' : Ends pass state result') : result = result' := by
  induction h with
  | done hpass => exact (h'.eq_of_done hpass).symm
  | more hpass _ ih => exact ih (h'.of_more hpass)

/-- What every pass keeps holds of the result. -/
theorem Ends.invariant {state : State} {result : Result} (h : Ends pass state result)
    (holds : State → Prop) (holdsAtEnd : Result → Prop)
    (hmore : ∀ state next, pass state = .inl next → holds state → holds next)
    (hdone : ∀ state result, pass state = .inr result → holds state → holdsAtEnd result)
    (hstart : holds state) : holdsAtEnd result := by
  induction h with
  | done hpass => exact hdone _ _ hpass hstart
  | more hpass _ ih => exact ih (hmore _ _ hpass hstart)

variable (pass)

/-- From both states the loop ends alike. -/
def EndsAlike (state next : State) : Prop :=
  ∀ result, Ends pass state result ↔ Ends pass next result

variable {pass}

theorem EndsAlike.trans {state middle next : State} (h : EndsAlike pass state middle)
    (h' : EndsAlike pass middle next) : EndsAlike pass state next :=
  fun result ↦ (h result).trans (h' result)

theorem EndsAlike.of_more {state next : State} (hpass : pass state = .inl next) :
    EndsAlike pass state next :=
  fun _ ↦ ⟨fun h ↦ h.of_more hpass, Ends.more hpass⟩

theorem EndsAlike.of_eq {state next : State} (hpass : pass state = pass next) :
    EndsAlike pass state next :=
  fun _ ↦ ⟨fun h ↦ h.congr hpass.symm, fun h ↦ h.congr hpass⟩

/-! ## States on the way -/

variable (pass) in
/-- The loop gets to the second state after some passes. -/
inductive Reaches : State → State → Prop
  | refl (state : State) : Reaches state state
  | step {start state next : State} (h : Reaches start state) (hpass : pass state = .inl next) :
      Reaches start next

theorem Reaches.endsAlike {start state : State} (h : Reaches pass start state) :
    EndsAlike pass start state := by
  induction h with
  | refl => exact fun _ ↦ Iff.rfl
  | step _ hpass ih => exact ih.trans (.of_more hpass)

/-- What every pass keeps holds on the whole way. -/
theorem Reaches.invariant {start state : State} (h : Reaches pass start state)
    (holds : State → Prop)
    (hmore : ∀ state next, pass state = .inl next → holds state → holds next)
    (hstart : holds start) : holds state := by
  induction h with
  | refl => exact hstart
  | step _ hpass ih => exact hmore _ _ hpass ih

/-- A loop that ends has reached the state of its last pass. -/
theorem Ends.exists_last {state : State} {result : Result} (h : Ends pass state result) :
    ∃ last, Reaches pass state last ∧ pass last = .inr result := by
  suffices hfrom : ∀ start, Reaches pass start state →
      ∃ last, Reaches pass start last ∧ pass last = .inr result from hfrom state (.refl state)
  induction h with
  | done hpass => exact fun start hstart ↦ ⟨_, hstart, hpass⟩
  | more hpass _ ih => exact fun start hstart ↦ ih start (hstart.step hpass)

end FuseAdf.WhileLoop
