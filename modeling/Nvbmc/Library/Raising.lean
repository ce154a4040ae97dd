import Mathlib.Tactic.Common

/-!
# Computations that raise

A computation over a state either returns a value or raises.  What it did to the
state before it raised stays done.  A loop ends with the first round that
raises.
-/

namespace Nvbmc.Library

/-- A computation: what it returns, if it does, and the state it leaves. -/
def Run (σ α : Type) := σ → Option α × σ

namespace Run

variable {σ α β : Type}

protected def pure (value : α) : Run σ α :=
  fun state => (some value, state)

protected def bind (run : Run σ α) (next : α → Run σ β) : Run σ β :=
  fun state =>
  match run state with
  | (some value, after) => next value after
  | (none, after) => (none, after)

instance : Monad (Run σ) where
  pure := Run.pure
  bind := Run.bind

def raise : Run σ α :=
  fun state => (none, state)

def ofOption : Option α → Run σ α
  | some value => pure value
  | none => raise

def get : Run σ σ :=
  fun state => (some state, state)

def modify (change : σ → σ) : Run σ Unit :=
  fun state => (some (), change state)

/-- The computation is done where the condition holds. -/
def when (condition : Prop) [Decidable condition] (act : Run σ Unit) :
    Run σ Unit :=
  if condition then act else pure ()

/-- The computations for all items, one after the other. -/
def forEach (act : α → Run σ Unit) : List α → Run σ Unit
  | [] => pure ()
  | item :: items => do
      act item
      forEach act items

/-- The values for all items, one after the other. -/
def collect (act : α → Run σ β) : List α → Run σ (List β)
  | [] => pure []
  | item :: items => do
      let value ← act item
      let values ← collect act items
      pure (value :: values)

variable {run : Run σ α} {next : α → Run σ β} {state after : σ} {value : α}

@[simp] theorem pure_apply (value : α) (state : σ) :
    (pure value : Run σ α) state = (some value, state) := rfl

@[simp] theorem raise_apply (state : σ) :
    (raise : Run σ α) state = (none, state) := rfl

@[simp] theorem get_apply (state : σ) :
    (get : Run σ σ) state = (some state, state) := rfl

@[simp] theorem modify_apply (change : σ → σ) (state : σ) :
    modify change state = (some (), change state) := rfl

@[simp] theorem pure_bind_apply (value : α) (next : α → Run σ β) (state : σ) :
    ((pure value : Run σ α) >>= next) state = next value state := rfl

@[simp] theorem raise_bind_apply (next : α → Run σ β) (state : σ) :
    ((raise : Run σ α) >>= next) state = (none, state) := rfl

@[simp] theorem get_bind_apply (next : σ → Run σ β) (state : σ) :
    ((get : Run σ σ) >>= next) state = next state state := rfl

@[simp] theorem modify_bind_apply (change : σ → σ) (next : Unit → Run σ β)
    (state : σ) : (modify change >>= next) state = next () (change state) := rfl

theorem bind_apply_of_eq (first : run state = (some value, after)) :
    (run >>= next) state = next value after := by
  show Run.bind run next state = _
  rw [Run.bind, first]

theorem bind_eq_some_iff {final : β} {last : σ} :
    (run >>= next) state = (some final, last) ↔
      ∃ value after, run state = (some value, after) ∧
        next value after = (some final, last) := by
  show Run.bind run next state = _ ↔ _
  rw [Run.bind]
  rcases run state with ⟨returned, between⟩
  cases returned with
  | none => simp
  | some value => simp

theorem bind_fst {final : α → β}
    (returns : ∀ value after, (next value after).1 = some (final value)) :
    ((run >>= next) state).1 = (run state).1.map final := by
  show (Run.bind run next state).1 = _
  rw [Run.bind]
  rcases run state with ⟨returned, between⟩
  cases returned with
  | none => rfl
  | some value => exact returns value between

theorem ofOption_eq_some_iff {found : Option α} :
    ofOption found state = (some value, after) ↔ found = some value ∧
      state = after := by
  cases found with
  | none => simp [ofOption]
  | some held => simp [ofOption]

def AgreeOn (property : σ → Prop) (run other : Run σ α) : Prop :=
  ∀ state, property state → run state = other state ∧ property (run state).2

variable {property : σ → Prop} {other : Run σ α} {following : α → Run σ β}

namespace AgreeOn

theorem pure (value : α) : AgreeOn property (Pure.pure value)
    (Pure.pure value) :=
  fun _ holds => ⟨rfl, holds⟩

theorem raise : AgreeOn property (raise : Run σ α) Run.raise :=
  fun _ holds => ⟨rfl, holds⟩

theorem ofOption (found : Option α) :
    AgreeOn property (Run.ofOption found) (Run.ofOption found) := by
  cases found with
  | none => exact raise
  | some value => exact pure value

theorem modify {update : σ → σ}
    (kept : ∀ state, property state → property (update state)) :
    AgreeOn property (Run.modify update) (Run.modify update) :=
  fun state holds => ⟨rfl, kept state holds⟩

theorem bind (first : AgreeOn property run other)
    (second : ∀ value, AgreeOn property (next value) (following value)) :
    AgreeOn property (run >>= next) (other >>= following) := by
  intro state holds
  obtain ⟨same, kept⟩ := first state holds
  show Run.bind run next state = Run.bind other following state ∧
    property (Run.bind run next state).2
  rw [Run.bind, Run.bind, ← same]
  rcases ran : run state with ⟨returned, after⟩
  rw [ran] at kept
  cases returned with
  | none => exact ⟨rfl, kept⟩
  | some value => exact second value after kept

theorem get_bind {next following : σ → Run σ β}
    (second : ∀ state, property state →
      AgreeOn property (next state) (following state)) :
    AgreeOn property (Run.get >>= next) (Run.get >>= following) :=
  fun state holds => second state holds state holds

theorem collect {act acting : α → Run σ β}
    (each : ∀ item, AgreeOn property (act item) (acting item))
    (items : List α) :
    AgreeOn property (Run.collect act items) (Run.collect acting items) := by
  induction items with
  | nil => exact pure []
  | cons item items induction =>
      apply bind (each item)
      intro value
      apply bind induction
      intro values
      exact pure _

end AgreeOn

end Run

section Loops

variable {α ε σ : Type}

/-- A computation returns or raises, and leaves a state. -/
abbrev Ending (ε σ : Type) := Except ε Unit × σ

/-- The rounds for the items one after the other, as far as one raises. -/
def forEach (round : α → σ → Ending ε σ) : List α → σ → Ending ε σ
  | [], state => (.ok (), state)
  | item :: items, state =>
      match round item state with
      | (.ok _, state) => forEach round items state
      | (.error error, state) => (.error error, state)

def EndsWith (returned : σ → Prop) (raised : ε → σ → Prop) : Ending ε σ → Prop
  | (.ok _, state) => returned state
  | (.error error, state) => raised error state

theorem forEach_invariant {round : α → σ → Ending ε σ} {items : List α}
    {invariant : σ → Prop} {raised : ε → σ → Prop}
    (keeps : ∀ item ∈ items, ∀ state, invariant state →
      EndsWith invariant raised (round item state))
    {state : σ} (start : invariant state) :
    EndsWith invariant raised (forEach round items state) := by
  induction items generalizing state with
  | nil => exact start
  | cons item items induction =>
      have first := keeps item List.mem_cons_self state start
      rw [forEach]
      rcases isRound : round item state with ⟨result, after⟩
      rw [isRound] at first
      cases result with
      | ok value =>
          exact induction (fun other member => keeps other (.tail _ member))
            first
      | error error => exact first

end Loops

end Nvbmc.Library
