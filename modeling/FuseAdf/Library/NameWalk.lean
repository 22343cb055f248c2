import Mathlib.Data.List.Basic
import Mathlib.Order.Basic

/-!
# Walks along a list of names

A directory tree is seen here only through its lookup function: a partial map from a place and
a name to the next place.  `walk` follows a whole list of names and fails at the first name that
is missing; `reach` is the last place such a walk gets to and `walked` the names it has used by
then, so that a walk which is given up half way can be described by the same two functions as one
that succeeds.  Nothing is assumed about places and names.
-/

namespace FuseAdf.NameWalk

variable {Place Name : Type*}

/-- Follow every name, or fail at the first one that is missing. -/
def walk (look : Place → Name → Option Place) : Place → List Name → Option Place
  | place, [] => some place
  | place, name :: names => (look place name).bind fun next ↦ walk look next names

/-- The last place on the way, reached by following names until one is missing. -/
def reach (look : Place → Name → Option Place) : Place → List Name → Place
  | place, [] => place
  | place, name :: names =>
      match look place name with
      | none => place
      | some next => reach look next names

/-- The names that are followed before the first missing one. -/
def walked (look : Place → Name → Option Place) : Place → List Name → List Name
  | _, [] => []
  | place, name :: names =>
      match look place name with
      | none => []
      | some next => name :: walked look next names

section Computation

variable (look : Place → Name → Option Place) (place next : Place) (name : Name)
  (names : List Name)

@[simp] theorem walk_nil : walk look place [] = some place := rfl

@[simp] theorem reach_nil : reach look place [] = place := rfl

@[simp] theorem walked_nil : walked look place ([] : List Name) = [] := rfl

theorem walk_cons :
    walk look place (name :: names) = (look place name).bind fun next ↦ walk look next names := rfl

theorem walk_cons_of_none (h : look place name = none) :
    walk look place (name :: names) = none := by
  simp [walk_cons, h]

theorem walk_cons_of_some {place next : Place} {name : Name} (h : look place name = some next) :
    walk look place (name :: names) = walk look next names := by
  simp [walk_cons, h]

theorem reach_cons_of_none (h : look place name = none) :
    reach look place (name :: names) = place := by
  simp [reach, h]

theorem reach_cons_of_some {place next : Place} {name : Name} (h : look place name = some next) :
    reach look place (name :: names) = reach look next names := by
  simp [reach, h]

theorem walked_cons_of_none (h : look place name = none) :
    walked look place (name :: names) = [] := by
  simp [walked, h]

theorem walked_cons_of_some {place next : Place} {name : Name} (h : look place name = some next) :
    walked look place (name :: names) = name :: walked look next names := by
  simp [walked, h]

end Computation

theorem walk_append (look : Place → Name → Option Place) (place : Place)
    (front back : List Name) :
    walk look place (front ++ back) =
      (walk look place front).bind fun middle ↦ walk look middle back := by
  induction front generalizing place with
  | nil => rfl
  | cons name names ih =>
    cases h : look place name with
    | none => simp [walk_cons, h]
    | some next => simp [walk_cons, h, ih]

/-- The names already followed lead exactly to the place reached. -/
theorem walk_walked (look : Place → Name → Option Place) (place : Place) (names : List Name) :
    walk look place (walked look place names) = some (reach look place names) := by
  induction names generalizing place with
  | nil => rfl
  | cons name names ih =>
    cases h : look place name with
    | none => simp [walked_cons_of_none, reach_cons_of_none, h]
    | some next =>
      rw [walked_cons_of_some look names h, reach_cons_of_some look names h,
        walk_cons_of_some look _ h]
      exact ih next

/-- A walk succeeds exactly when it follows all its names. -/
theorem walk_eq_some_iff (look : Place → Name → Option Place) (place target : Place)
    (names : List Name) :
    walk look place names = some target ↔
      walked look place names = names ∧ reach look place names = target := by
  induction names generalizing place with
  | nil => simp
  | cons name names ih =>
    cases h : look place name with
    | none => simp [walk_cons_of_none, walked_cons_of_none, h]
    | some next =>
      rw [walked_cons_of_some look names h, reach_cons_of_some look names h,
        walk_cons_of_some look _ h, ih]
      simp

/-- A lookup that knows more follows the names that the other one follows. -/
theorem walk_mono {look look' : Place → Name → Option Place}
    (h : ∀ place name next, look place name = some next → look' place name = some next)
    {place target : Place} {names : List Name} (hwalk : walk look place names = some target) :
    walk look' place names = some target := by
  induction names generalizing place with
  | nil => exact hwalk
  | cons name names ih =>
    obtain ⟨next, hnext, hrest⟩ := Option.bind_eq_some_iff.mp hwalk
    rw [walk_cons_of_some look' names (h place name next hnext)]
    exact ih hrest

theorem reach_of_walk {look : Place → Name → Option Place} {place target : Place}
    {names : List Name} (h : walk look place names = some target) :
    reach look place names = target :=
  ((walk_eq_some_iff look place target names).mp h).2

theorem walked_of_walk {look : Place → Name → Option Place} {place target : Place}
    {names : List Name} (h : walk look place names = some target) :
    walked look place names = names :=
  ((walk_eq_some_iff look place target names).mp h).1

theorem walked_isPrefix (look : Place → Name → Option Place) (place : Place)
    (names : List Name) : walked look place names <+: names := by
  induction names generalizing place with
  | nil => exact List.prefix_rfl
  | cons name names ih =>
    cases h : look place name with
    | none =>
      rw [walked_cons_of_none look place name names h]
      exact List.nil_prefix
    | some next =>
      rw [walked_cons_of_some look names h, List.prefix_cons_inj]
      exact ih next

/-- A name that leads nowhere is not on a walk that succeeds. -/
theorem not_mem_of_walk {look : Place → Name → Option Place} {place target : Place} {name : Name}
    {names : List Name} (hname : ∀ middle, look middle name = none)
    (h : walk look place names = some target) : name ∉ names := by
  intro hmem
  obtain ⟨front, back, rfl⟩ := List.append_of_mem hmem
  rw [walk_append] at h
  obtain ⟨middle, -, hback⟩ := Option.bind_eq_some_iff.mp h
  rw [walk_cons_of_none look middle name back (hname middle)] at hback
  exact absurd hback (by simp)

/-- A walk that fails has followed some names and then misses one. -/
theorem exists_missing_of_walk {look : Place → Name → Option Place} {place : Place}
    {names : List Name} (h : walk look place names = none) :
    ∃ name back, names = walked look place names ++ name :: back ∧
      look (reach look place names) name = none := by
  induction names generalizing place with
  | nil => simp at h
  | cons name names ih =>
    cases hlook : look place name with
    | none =>
      refine ⟨name, names, ?_, ?_⟩
      · rw [walked_cons_of_none look place name names hlook, List.nil_append]
      · rw [reach_cons_of_none look place name names hlook, hlook]
    | some next =>
      rw [walk_cons_of_some look names hlook] at h
      obtain ⟨missing, back, hnames, hmissing⟩ := ih h
      refine ⟨missing, back, ?_, ?_⟩
      · rw [walked_cons_of_some look names hlook, List.cons_append, ← hnames]
      · rw [reach_cons_of_some look names hlook, hmissing]

/-- Conversely, the names up to the missing one are the names followed. -/
theorem walked_of_missing {look : Place → Name → Option Place} {place middle : Place}
    {front : List Name} {name : Name} (hfront : walk look place front = some middle)
    (hname : look middle name = none) (back : List Name) :
    walked look place (front ++ name :: back) = front ∧
      reach look place (front ++ name :: back) = middle := by
  induction front generalizing place with
  | nil =>
    obtain rfl := Option.some.inj hfront
    rw [List.nil_append]
    exact ⟨walked_cons_of_none look place name back hname,
      reach_cons_of_none look place name back hname⟩
  | cons first front ih =>
    cases hlook : look place first with
    | none => simp [walk_cons_of_none, hlook] at hfront
    | some next =>
      rw [walk_cons_of_some look front hlook] at hfront
      obtain ⟨hwalked, hreach⟩ := ih hfront
      rw [List.cons_append, walked_cons_of_some look _ hlook, reach_cons_of_some look _ hlook,
        hwalked, hreach]
      exact ⟨rfl, rfl⟩

/-- A walk whose every step survives a change of the lookup function survives the change.
`Affected place name` marks the steps for which nothing is promised. -/
theorem walk_of_agree {look look' : Place → Name → Option Place}
    (Affected : Place → Name → Prop)
    (hagree : ∀ place name next, look place name = some next → ¬ Affected place name →
      look' place name = some next)
    {start target : Place} {names : List Name} (h : walk look start names = some target)
    (hclear : ∀ front name back, names = front ++ name :: back →
      ∀ place, walk look start front = some place → ¬ Affected place name) :
    walk look' start names = some target := by
  induction names generalizing start with
  | nil => exact h
  | cons name names ih =>
    cases hlook : look start name with
    | none => simp [walk_cons_of_none, hlook] at h
    | some next =>
      have hstep : look' start name = some next :=
        hagree start name next hlook (hclear [] name names rfl start rfl)
      rw [walk_cons_of_some look names hlook] at h
      rw [walk_cons_of_some look' names hstep]
      apply ih h
      intro front middle back hnames place hplace
      apply hclear (name :: front) middle back (by rw [hnames]; rfl) place
      rw [walk_cons_of_some look front hlook]
      exact hplace

/-! ## Places that can be got to -/

/-- Some walk gets from the start to the place. -/
def Reachable (look : Place → Name → Option Place) (start place : Place) : Prop :=
  ∃ names, walk look start names = some place

section Reachable

variable {look look' : Place → Name → Option Place} {start place next : Place}

theorem Reachable.refl (look : Place → Name → Option Place) (start : Place) :
    Reachable look start start := ⟨[], rfl⟩

theorem Reachable.of_walk {names : List Name} (h : walk look start names = some place) :
    Reachable look start place := ⟨names, h⟩

theorem Reachable.reach (look : Place → Name → Option Place) (start : Place) (names : List Name) :
    Reachable look start (reach look start names) := .of_walk (walk_walked look start names)

theorem Reachable.step {name : Name} (h : Reachable look start place)
    (hnext : look place name = some next) : Reachable look start next := by
  obtain ⟨names, hwalk⟩ := h
  refine ⟨names ++ [name], ?_⟩
  rw [walk_append, hwalk, Option.bind_some, walk_cons_of_some look [] hnext, walk_nil]

/-- To be reachable it is enough to be in every set that is closed under the lookups. -/
theorem Reachable.induction {motive : Place → Prop} (hstart : motive start)
    (hstep : ∀ place name next, motive place → look place name = some next → motive next)
    (h : Reachable look start place) : motive place := by
  obtain ⟨names, hwalk⟩ := h
  induction names generalizing start with
  | nil =>
    obtain rfl := Option.some.inj hwalk
    exact hstart
  | cons name names ih =>
    obtain ⟨next, hnext, hrest⟩ := Option.bind_eq_some_iff.mp hwalk
    exact ih (hstep start name next hstart hnext) hrest

/-- A lookup that knows more at the places that can be got to makes the same walks. -/
theorem walk_mono_reachable
    (h : ∀ place, Reachable look start place → ∀ name next, look place name = some next →
      look' place name = some next)
    {names : List Name} (hwalk : walk look start names = some place) :
    walk look' start names = some place := by
  apply walk_of_agree (fun middle _ ↦ ¬ Reachable look start middle) _ hwalk
  · intro front _ _ _ middle hmiddle hunreached
    exact hunreached (.of_walk hmiddle)
  · intro middle name next hnext hreached
    exact h middle (not_not.mp hreached) name next hnext

/-- Only the lookups at places that can be got to matter. -/
theorem walk_congr_reachable
    (h : ∀ place, Reachable look start place → ∀ name, look' place name = look place name)
    (names : List Name) : walk look' start names = walk look start names := by
  have hstep : ∀ {middle}, Reachable look start middle →
      walk look' middle names = walk look middle names := by
    induction names with
    | nil => exact fun _ ↦ rfl
    | cons name names ih =>
      intro middle hmiddle
      rw [walk_cons, walk_cons, h middle hmiddle]
      cases hlook : look middle name with
      | none => rfl
      | some next => exact ih (hmiddle.step hlook)
  exact hstep (.refl look start)

theorem reach_congr_reachable
    (h : ∀ place, Reachable look start place → ∀ name, look' place name = look place name)
    (names : List Name) :
    NameWalk.reach look' start names = NameWalk.reach look start names := by
  have hstep : ∀ {middle}, Reachable look start middle →
      NameWalk.reach look' middle names = NameWalk.reach look middle names := by
    induction names with
    | nil => exact fun _ ↦ rfl
    | cons name names ih =>
      intro middle hmiddle
      have hsame := h middle hmiddle name
      cases hlook : look middle name with
      | none =>
        rw [reach_cons_of_none look _ _ _ hlook, reach_cons_of_none look' _ _ _ (hsame.trans hlook)]
      | some next =>
        rw [reach_cons_of_some look _ hlook, reach_cons_of_some look' _ (hsame.trans hlook)]
        exact ih (hmiddle.step hlook)
  exact hstep (.refl look start)

end Reachable

/-- A lookup function over richer places gives the same walks, seen through a projection. -/
theorem walk_map {Place' : Type*} {look : Place → Name → Option Place}
    {look' : Place' → Name → Option Place'} (project : Place → Place') {names : List Name}
    (h : ∀ name ∈ names, ∀ place, (look place name).map project = look' (project place) name)
    (place : Place) : (walk look place names).map project = walk look' (project place) names := by
  induction names generalizing place with
  | nil => rfl
  | cons name names ih =>
    have hstep := h name List.mem_cons_self place
    cases hlook : look place name with
    | none =>
      rw [hlook] at hstep
      rw [walk_cons_of_none look place name names hlook,
        walk_cons_of_none look' _ name names hstep.symm]
      rfl
    | some next =>
      rw [hlook] at hstep
      rw [walk_cons_of_some look names hlook, walk_cons_of_some look' names hstep.symm]
      exact ih (fun other hother ↦ h other (List.mem_cons_of_mem _ hother)) next

end FuseAdf.NameWalk
