import Mathlib.Logic.Relation
import Mathlib.Tactic.SplitIfs

/-!
# Runs of labelled transition systems

A run starts in a start state and takes labelled steps.  `Reachable` restricts
the steps by a condition on the state before the step and the label, so that
an invariant can be asked of all runs or only of the runs that meet it.
-/

namespace Nvbmc.Library

variable {σ α : Type*} {start : σ → Prop} {step : σ → α → σ → Prop}

/-- The states reached by steps that all meet `allowed`. -/
inductive Reachable (start : σ → Prop) (step : σ → α → σ → Prop)
    (allowed : σ → α → Prop) : σ → Prop where
  | start {state : σ} : start state → Reachable start step allowed state
  | step {state next : σ} {label : α} :
      Reachable start step allowed state → allowed state label →
      step state label next → Reachable start step allowed next

namespace Reachable

variable {allowed wider : σ → α → Prop} {state : σ}

/-- What holds at the start and is preserved by every allowed step holds of
every reachable state. -/
theorem invariant {holds : σ → Prop}
    (initial : ∀ state, start state → holds state)
    (preserved : ∀ state label next, holds state → allowed state label →
      step state label next → holds next)
    (reached : Reachable start step allowed state) : holds state := by
  induction reached with
  | start started => exact initial _ started
  | step _ meets stepped held => exact preserved _ _ _ held meets stepped

theorem mono (included : ∀ state label, allowed state label → wider state label)
    (reached : Reachable start step allowed state) :
    Reachable start step wider state := by
  induction reached with
  | start started => exact .start started
  | step _ meets stepped earlier =>
      exact .step earlier (included _ _ meets) stepped

end Reachable

/-- Performs labels one after the other, as long as they are allowed. -/
def follow (perform : σ → α → Option σ) (allowed : σ → α → Prop)
    [∀ state label, Decidable (allowed state label)] : List α → σ → Option σ
  | [], state => some state
  | label :: labels, state =>
      if allowed state label then
        (perform state label).bind (follow perform allowed labels)
      else none

theorem Reachable.follow {perform : σ → α → Option σ} {allowed : σ → α → Prop}
    [∀ state label, Decidable (allowed state label)]
    (sound : ∀ state label next, perform state label = some next →
      step state label next) (labels : List α) {state final : σ}
    (reached : Reachable start step allowed state)
    (followed : follow perform allowed labels state = some final) :
    Reachable start step allowed final := by
  induction labels generalizing state with
  | nil =>
      cases followed
      exact reached
  | cons label labels induction =>
      rw [Library.follow] at followed
      split_ifs at followed with meets
      obtain ⟨next, performed, followed⟩ := Option.bind_eq_some_iff.mp followed
      exact induction (.step reached meets (sound _ _ _ performed)) followed

end Nvbmc.Library
