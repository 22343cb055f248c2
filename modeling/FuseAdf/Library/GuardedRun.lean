import Mathlib.Data.List.Basic
import Mathlib.Data.List.Induction

/-!
# Runs of a system whose steps are guarded

A system is a relation between the state before an operation, the operation and the state after.
`Run` is the chain of any number of such steps, each of which starts in a state that its guard
accepts; the guard `fun _ _ ↦ True` gives the unrestricted runs.  An invariant that every guarded
step keeps holds in every state a guarded run reaches.
-/

namespace FuseAdf.GuardedRun

variable {State Op : Type*}

/-- The states reached by doing the listed operations one after another. -/
inductive Run (Step : State → Op → State → Prop) (Guard : State → Op → Prop) :
    State → List Op → State → Prop
  | nil (start : State) : Run Step Guard start [] start
  | snoc {start middle last : State} {ops : List Op} {op : Op} :
      Run Step Guard start ops middle → Guard middle op → Step middle op last →
      Run Step Guard start (ops ++ [op]) last

variable {Step : State → Op → State → Prop} {Guard : State → Op → Prop}

/-- The induction rule for invariants: start and step are all there is to show. -/
theorem Run.invariant {Inv : State → Prop}
    (hstep : ∀ before op after, Inv before → Guard before op → Step before op after → Inv after)
    {start last : State} {ops : List Op} (hrun : Run Step Guard start ops last)
    (hstart : Inv start) : Inv last := by
  induction hrun with
  | nil => exact hstart
  | snoc _ hguard hlast ih => exact hstep _ _ _ ih hguard hlast

/-- A run of one operation. -/
theorem Run.single {start last : State} {op : Op} (hguard : Guard start op)
    (hstep : Step start op last) : Run Step Guard start [op] last :=
  Run.snoc (Run.nil start) hguard hstep

/-- A run may begin with one more operation. -/
theorem Run.cons {start middle last : State} {op : Op} {ops : List Op} (hguard : Guard start op)
    (hstep : Step start op middle) (hrun : Run Step Guard middle ops last) :
    Run Step Guard start (op :: ops) last := by
  induction hrun with
  | nil => exact Run.single hguard hstep
  | snoc _ hlater hlast ih => exact Run.snoc ih hlater hlast

/-- The last step of a run. -/
theorem Run.last {start last : State} {ops : List Op} {op : Op}
    (hrun : Run Step Guard start (ops ++ [op]) last) :
    ∃ middle, Run Step Guard start ops middle ∧ Guard middle op ∧ Step middle op last := by
  generalize hall : ops ++ [op] = all at hrun
  cases hrun with
  | nil => simp at hall
  | snoc hrun hguard hstep =>
    obtain ⟨rfl, hop⟩ := List.append_inj' hall rfl
    obtain rfl : op = _ := List.singleton_inj.mp hop
    exact ⟨_, hrun, hguard, hstep⟩

theorem Run.eq_of_nil {start last : State} (hrun : Run Step Guard start [] last) : last = start := by
  generalize hall : ([] : List Op) = all at hrun
  cases hrun with
  | nil => rfl
  | snoc => simp at hall

theorem Run.of_single {start last : State} {op : Op} (hrun : Run Step Guard start [op] last) :
    Guard start op ∧ Step start op last := by
  obtain ⟨middle, hnil, hguard, hstep⟩ := Run.last (show Run Step Guard start ([] ++ [op]) last from hrun)
  obtain rfl := hnil.eq_of_nil
  exact ⟨hguard, hstep⟩

/-- A run is cut in two between any two operations. -/
theorem Run.split {start last : State} {ops ops' : List Op}
    (hrun : Run Step Guard start (ops ++ ops') last) :
    ∃ middle, Run Step Guard start ops middle ∧ Run Step Guard middle ops' last := by
  induction ops' using List.reverseRecOn generalizing last with
  | nil => exact ⟨last, by rwa [List.append_nil] at hrun, Run.nil last⟩
  | append_singleton ops' op ih =>
    rw [← List.append_assoc] at hrun
    obtain ⟨before, hbefore, hguard, hstep⟩ := hrun.last
    obtain ⟨middle, hfirst, hrest⟩ := ih hbefore
    exact ⟨middle, hfirst, Run.snoc hrest hguard hstep⟩

/-- Where an invariant of the run makes a guard weaker than its own, it is a run of that guard. -/
theorem Run.weaken {Guard' : State → Op → Prop} (Inv : State → Prop)
    (hstep : ∀ before op after, Inv before → Guard before op → Step before op after → Inv after)
    (h : ∀ state op, Inv state → Guard state op → Guard' state op)
    {start last : State} {ops : List Op} (hrun : Run Step Guard start ops last)
    (hstart : Inv start) : Run Step Guard' start ops last := by
  induction hrun with
  | nil => exact Run.nil _
  | snoc hbefore hguard hlast ih =>
    exact Run.snoc ih (h _ _ (hbefore.invariant hstep hstart) hguard) hlast

/-- A weaker guard. -/
theorem Run.mono {Guard' : State → Op → Prop} (h : ∀ state op, Guard state op → Guard' state op)
    {start last : State} {ops : List Op} (hrun : Run Step Guard start ops last) :
    Run Step Guard' start ops last := by
  induction hrun with
  | nil => exact Run.nil _
  | snoc _ hguard hlast ih => exact Run.snoc ih (h _ _ hguard) hlast

/-- What all operations of a run meet may be its guard. -/
theorem Run.restrict {Meets : Op → Prop} {start last : State} {ops : List Op}
    (hrun : Run Step Guard start ops last) (h : ∀ op ∈ ops, Meets op) :
    Run Step (fun _ ↦ Meets) start ops last := by
  induction hrun with
  | nil => exact Run.nil _
  | snoc _ _ hlast ih =>
    exact Run.snoc (ih fun op hop ↦ h op (List.mem_append_left _ hop)) (h _ (by simp)) hlast

/-- Where every step is a step of another system between related states, every run is a run of it. -/
theorem Run.simulate {State' : Type*} {Step' : State' → Op → State' → Prop}
    {Guard' : State' → Op → Prop} (Related : State → State' → Prop)
    (hstep : ∀ before before' op after, Related before before' → Guard before op →
      Step before op after → Guard' before' op ∧
        ∃ after', Step' before' op after' ∧ Related after after')
    {start last : State} {start' : State'} {ops : List Op} (hrun : Run Step Guard start ops last)
    (hstart : Related start start') : ∃ last', Run Step' Guard' start' ops last' ∧ Related last last' := by
  induction hrun with
  | nil => exact ⟨start', Run.nil start', hstart⟩
  | snoc _ hguard hlast ih =>
    obtain ⟨middle', hrun', hmiddle⟩ := ih
    obtain ⟨hguard', last', hlast', hrelated⟩ := hstep _ _ _ _ hmiddle hguard hlast
    exact ⟨last', Run.snoc hrun' hguard' hlast', hrelated⟩

end FuseAdf.GuardedRun
