import Mathlib

/-!
# The states of a transition system

`Transition.Reachable init step s`: the state `s` is reached from a state that `init`
admits by steps of the relation `step`. A property of every reachable state
is proved once by induction (`Reachable.invariant`): it holds of the initial
states and every step keeps it. `Reachable.invariant_of` is the same rule
for a step that keeps it only together with a second, already proved
invariant. `keeps_of_reflTransGen` carries a property over a chain of steps
given at once, as a component that makes several calls states them.
-/

namespace Transition

/-- The states `step` reaches from the states `init` admits. -/
inductive Reachable {σ : Type*} (init : σ → Prop) (step : σ → σ → Prop) : σ → Prop
  | init {s : σ} : init s → Reachable init step s
  | step {s s' : σ} : Reachable init step s → step s s' → Reachable init step s'

namespace Reachable

variable {σ : Type*} {init : σ → Prop} {step : σ → σ → Prop}

/-- A property of the initial states that every step keeps holds of every
reachable state. -/
theorem invariant {I : σ → Prop} (hinit : ∀ s, init s → I s)
    (hstep : ∀ s s', I s → step s s' → I s') {s : σ} (h : Reachable init step s) : I s := by
  induction h with
  | init hs => exact hinit _ hs
  | step _ hst ih => exact hstep _ _ ih hst

/-- The same rule when a step keeps the property only on states where a
known invariant `J` holds too. -/
theorem invariant_of {I J : σ → Prop} (hJ : ∀ {s}, Reachable init step s → J s)
    (hinit : ∀ s, init s → I s) (hstep : ∀ s s', J s → I s → step s s' → I s') {s : σ}
    (h : Reachable init step s) : I s := by
  induction h with
  | init hs => exact hinit _ hs
  | step hr hst ih => exact hstep _ _ (hJ hr) ih hst

end Reachable

/-- A property every step keeps holds after any number of steps. -/
theorem keeps_of_reflTransGen {σ : Type*} {step : σ → σ → Prop} {I : σ → Prop}
    (hstep : ∀ s s', I s → step s s' → I s') {s s' : σ} (hs : Relation.ReflTransGen step s s')
    (h : I s) : I s' := by
  induction hs with
  | refl => exact h
  | tail _ hst ih => exact hstep _ _ ih hst

end Transition
