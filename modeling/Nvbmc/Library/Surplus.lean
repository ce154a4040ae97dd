import Mathlib.Algebra.Group.Basic
import Mathlib.Data.List.Perm.Subperm

/-!
# What one list has more of

A list is gone through with a counter of what it has more of than another one.
What is taken is the difference of the two lists as bags.
-/

namespace Nvbmc.Library

variable {α : Type} [DecidableEq α]

/-- The items that are still counted when they are reached. -/
def surplus : (α → ℤ) → List α → List α
  | _, [] => []
  | counter, item :: items =>
      if 0 < counter item then
        item :: surplus (Function.update counter item (counter item - 1)) items
      else surplus counter items

/-- How many more times an item is in the first list. -/
def excess (items others : List α) (item : α) : ℤ :=
  items.count item - others.count item

theorem count_surplus {counter : α → ℤ} {items : List α} {item : α}
    (enough : counter item ≤ items.count item) :
    (surplus counter items).count item = (counter item).toNat := by
  induction items generalizing counter with
  | nil =>
      rw [List.count_nil] at enough
      rw [surplus, List.count_nil]
      omega
  | cons head items induction =>
      rw [surplus]
      by_cases same : head = item
      · subst head
        rw [List.count_cons_self] at enough
        by_cases counted : 0 < counter item
        · rw [if_pos counted, List.count_cons_self, induction]
          · rw [Function.update_self]
            omega
          · rw [Function.update_self]
            omega
        · rw [if_neg counted, induction (by omega)]
      · rw [List.count_cons_of_ne same] at enough
        by_cases counted : 0 < counter head
        · have other :=
            Function.update_of_ne (Ne.symm same) (counter head - 1) counter
          rw [if_pos counted, List.count_cons_of_ne same,
            induction (by rw [other]; omega), other]
        · rw [if_neg counted, induction enough]

theorem count_surplus_excess (items others : List α) (item : α) :
    (surplus (excess items others) items).count item =
      items.count item - others.count item := by
  rw [count_surplus]
  · rw [excess]
    omega
  · rw [excess]
    omega

theorem mem_surplus_iff {items others : List α} {item : α} :
    item ∈ surplus (excess items others) items ↔
      others.count item < items.count item := by
  rw [← List.count_pos_iff, count_surplus_excess]
  omega

theorem surplus_eq_nil_iff {items others : List α} :
    surplus (excess items others) items = [] ∧
      surplus (excess others items) others = [] ↔ items.Perm others := by
  rw [List.perm_iff_count]
  constructor
  · intro none item
    have notMore : item ∉ surplus (excess items others) items :=
      none.1 ▸ List.not_mem_nil
    have notLess : item ∉ surplus (excess others items) others :=
      none.2 ▸ List.not_mem_nil
    rw [mem_surplus_iff] at notMore notLess
    omega
  · intro same
    constructor
    · apply List.eq_nil_iff_forall_not_mem.mpr
      intro item member
      rw [mem_surplus_iff, same item] at member
      omega
    · apply List.eq_nil_iff_forall_not_mem.mpr
      intro item member
      rw [mem_surplus_iff, same item] at member
      omega

theorem surplus_of_perm_cons {items others rest : List α} {item other : α}
    (different : item ≠ other) (here : items.Perm (item :: rest))
    (there : others.Perm (other :: rest)) :
    surplus (excess items others) items = [item] := by
  apply List.perm_singleton.mp
  apply List.perm_iff_count.mpr
  intro any
  rw [count_surplus_excess, here.count_eq, there.count_eq]
  simp only [List.count_cons, List.count_nil, beq_iff_eq]
  by_cases first : item = any
  · have second : other ≠ any := fun same => different (first.trans same.symm)
    rw [if_pos first, if_neg second]
    omega
  · rw [if_neg first]
    omega

end Nvbmc.Library
