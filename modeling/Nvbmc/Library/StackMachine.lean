import Mathlib.Logic.Function.Iterate

/-!
# Stack machines

A stack of frames is worked off from the top.  A step puts other frames in the
place of the top one and changes the state.
-/

namespace Nvbmc.Library

section StackMachine

variable {Frame State : Type}
  {step : Frame → State → List Frame × State}
  {frames rest : List Frame} {before middle after : State}

/-- One step of the machine whose frames do what `step` says. -/
def stackStep (step : Frame → State → List Frame × State) :
    List Frame × State → List Frame × State
  | ([], state) => ([], state)
  | (frame :: frames, state) =>
      ((step frame state).1 ++ frames, (step frame state).2)

/-- All frames are worked off at some time. -/
def Returns (step : Frame → State → List Frame × State)
    (frames : List Frame) (before after : State) : Prop :=
  ∃ steps, (stackStep step)^[steps] (frames, before) = ([], after)

theorem stackStep_nil (steps : ℕ) (state : State) :
    (stackStep step)^[steps] ([], state) = ([], state) :=
  Function.iterate_fixed rfl steps

theorem returns_nil (state : State) : Returns step [] state state := ⟨0, rfl⟩

theorem Returns.push {frame : Frame} {pushed : List Frame}
    (steps : step frame before = (pushed, middle))
    (returns : Returns step (pushed ++ rest) middle after) :
    Returns step (frame :: rest) before after := by
  obtain ⟨count, reached⟩ := returns
  refine ⟨count + 1, ?_⟩
  rw [Function.iterate_succ_apply]
  simp only [stackStep, steps]
  exact reached

theorem returns_frame {frame : Frame} {pushed : List Frame}
    (steps : step frame before = (pushed, middle))
    (returns : Returns step pushed middle after) :
    Returns step [frame] before after := by
  apply Returns.push steps
  rw [List.append_nil]
  exact returns

theorem Returns.append (first : Returns step frames before middle)
    (second : Returns step rest middle after) :
    Returns step (frames ++ rest) before after := by
  obtain ⟨steps, reached⟩ := first
  induction steps generalizing frames before with
  | zero =>
      cases reached
      exact second
  | succ steps induction =>
      cases frames with
      | nil =>
          rw [stackStep_nil] at reached
          cases reached
          exact second
      | cons frame frames =>
          rw [Function.iterate_succ_apply] at reached
          rw [List.cons_append]
          apply Returns.push rfl
          rw [← List.append_assoc]
          exact induction reached

theorem Returns.cons {frame : Frame}
    (first : Returns step [frame] before middle)
    (second : Returns step rest middle after) :
    Returns step (frame :: rest) before after :=
  first.append second

theorem Returns.unique {other : State}
    (first : Returns step frames before after)
    (second : Returns step frames before other) : after = other := by
  obtain ⟨steps, reached⟩ := first
  obtain ⟨more, ended⟩ := second
  have both : (stackStep step)^[steps + more] (frames, before) =
      ([], after) := by
    rw [Nat.add_comm, Function.iterate_add_apply, reached, stackStep_nil]
  rw [Function.iterate_add_apply, ended, stackStep_nil] at both
  exact (congrArg Prod.snd both).symm

end StackMachine

end Nvbmc.Library
