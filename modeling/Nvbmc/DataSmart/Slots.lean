import Nvbmc.DataSmart.DataNodes
import Nvbmc.DataSmart.FlagDeletion

/-!
# What the assignments build

A value and a weak default are built up for each variable and each flag, by the
operators in their order, and an `unset` starts anew.  The store keeps both
under names of its own.
-/

namespace Nvbmc.DataSmart

open Library

/-- What is built for a variable or a flag: the value and the weak default. -/
structure Slot where
  value : Option Text
  weak : Option Text
deriving DecidableEq

/-- Nothing has been assigned. -/
def Slot.start : Slot := ⟨none, none⟩

/-- An assignment; `expanded` is what its text is expanded to. -/
def Slot.assign (slot : Slot) (operator : Operator) (assigned expanded : Text) :
    Slot :=
  match operator with
  | .set => { slot with value := some assigned }
  | .ques => { slot with value := some (slot.value.getD assigned) }
  | .lazyques => { slot with weak := some assigned }
  | .colon => { slot with value := some expanded }
  | .append =>
      { slot with value := some (slot.value.getD [] ++ ' ' :: assigned) }
  | .prepend =>
      { slot with value := some (assigned ++ ' ' :: slot.value.getD []) }
  | .postdot => { slot with value := some (slot.value.getD [] ++ assigned) }
  | .predot => { slot with value := some (assigned ++ slot.value.getD []) }

/-- The value, or else the weak default. -/
def Slot.shown (slot : Slot) : Value :=
  match slot.value.or slot.weak with
  | some shown => .text shown
  | none => .none

/-- The slots of the variables and of their flags. -/
abbrev Table := Text → Option Text → Slot

def Table.start : Table := fun _ _ => Slot.start

/-- What a statement does to the slots. -/
def Table.step (table : Table) (expanded : Text) : Node → Table
  | .data groupd => fun var flag =>
      if var = groupd.var ∧ flag = groupd.flag then
        (table var flag).assign groupd.operator groupd.value expanded
      else table var flag
  | .unset name =>
      fun var flag => if var = name then Slot.start else table var flag
  | .unsetFlag name unset => fun var flag =>
      if var = name ∧ flag = some unset then Slot.start else table var flag

def IsFlag (flag : Text) : Prop :=
  flag ≠ [] ∧ flag.head? ≠ some '_' ∧ flag.head? ≠ some ':'

instance (flag : Text) : Decidable (IsFlag flag) :=
  inferInstanceAs (Decidable (_ ∧ _ ∧ _))

/-- The value of a variable, or one of its flags. -/
def IsTarget (flag : Option Text) : Prop :=
  ∀ name ∈ flag, IsFlag name

/-- The name under which a value is held. -/
def valueKey : Option Text → Text
  | none => contentFlag
  | some flag => flag

def weakKey : Option Text → Text
  | none => defaultval
  | some flag => defaultvalFlag ++ flag

section Keys

variable {flag other : Option Text}

theorem head_defaultvalFlag (name : Text) :
    (defaultvalFlag ++ name).head? = some '_' := rfl

theorem IsTarget.ne_of_head {key : Text} (target : IsTarget flag)
    (underscore : key.head? = some '_') (different : key ≠ contentFlag) :
    valueKey flag ≠ key := by
  cases flag with
  | none => exact different.symm
  | some name =>
      intro same
      apply (target name rfl).2.1
      rw [← underscore, ← same]
      rfl

theorem IsTarget.value_ne_weak (target : IsTarget flag) (other : Option Text) :
    valueKey flag ≠ weakKey other := by
  cases other with
  | none => exact target.ne_of_head rfl (by decide)
  | some name =>
      apply target.ne_of_head (head_defaultvalFlag name)
      intro same
      have begins : defaultvalFlag <+: contentFlag := ⟨name, same⟩
      exact absurd begins (by decide)

theorem IsTarget.value_injective (target : IsTarget flag)
    (others : IsTarget other)
    (same : valueKey flag = valueKey other) : flag = other := by
  cases flag with
  | none =>
      cases other with
      | none => rfl
      | some name =>
          refine absurd ?_ (others name rfl).2.1
          exact (congrArg List.head? same).symm
  | some flag =>
      cases other with
      | none =>
          refine absurd ?_ (target flag rfl).2.1
          exact congrArg List.head? same
      | some name => exact congrArg some same

theorem weak_injective (same : weakKey flag = weakKey other) :
    flag = other := by
  have longer : ∀ name, defaultval ≠ defaultvalFlag ++ name := by
    intro name equal
    have begins : defaultvalFlag <+: defaultval := ⟨name, equal.symm⟩
    exact absurd begins (by decide)
  cases flag with
  | none =>
      cases other with
      | none => rfl
      | some name => exact absurd same (longer name)
  | some flag =>
      cases other with
      | none => exact absurd same.symm (longer flag)
      | some name => exact congrArg some (List.append_cancel_left same)

theorem head_keyword {keyword : Text} (member : keyword ∈ setvarKeywords) :
    keyword.head? = some ':' := by
  simp only [setvarKeywords, List.mem_cons, List.not_mem_nil, or_false]
    at member
  rcases member with isAppend | isPrepend | isRemove
  · rw [isAppend]
    rfl
  · rw [isPrepend]
    rfl
  · rw [isRemove]
    rfl

theorem IsTarget.value_not_keyword (target : IsTarget flag) :
    valueKey flag ∉ setvarKeywords := by
  intro member
  have colon := head_keyword member
  cases flag with
  | none => exact absurd colon (by decide)
  | some name => exact (target name rfl).2.2 colon

theorem weak_not_keyword (flag : Option Text) :
    weakKey flag ∉ setvarKeywords := by
  intro member
  have colon := head_keyword member
  cases flag with
  | none => exact absurd colon (by decide)
  | some name =>
      rw [weakKey, head_defaultvalFlag] at colon
      exact absurd colon (by decide)

end Keys

end Nvbmc.DataSmart
