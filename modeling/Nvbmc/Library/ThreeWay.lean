import Mathlib.Data.List.Lex
import Mathlib.Data.Prod.Lex

/-!
# Three-way comparisons

A comparison that returns a negative number, zero or a positive one agrees with
a linear order when the number has the sign that the order gives.  Comparisons
of pairs and of lists agree with the lexicographic order when those of the parts
do.
-/

namespace Nvbmc.Library

variable {α β : Type*} [LinearOrder α] [LinearOrder β]

def Agrees (result : ℤ) (first second : α) : Prop :=
  (result < 0 ∧ first < second) ∨ (result = 0 ∧ first = second) ∨
    (0 < result ∧ second < first)

namespace Agrees

variable {result back : ℤ} {first second : α}

theorem of_lt (negative : result < 0) (less : first < second) :
    Agrees result first second :=
  .inl ⟨negative, less⟩

theorem of_gt (positive : 0 < result) (greater : second < first) :
    Agrees result first second :=
  .inr (.inr ⟨positive, greater⟩)

theorem of_eq (same : first = second) : Agrees 0 first second :=
  .inr (.inl ⟨rfl, same⟩)

variable (agrees : Agrees result first second)
include agrees

theorem neg_iff : result < 0 ↔ first < second := by
  rcases agrees with ⟨negative, less⟩ | ⟨zero, same⟩ | ⟨positive, greater⟩
  · exact iff_of_true negative less
  · exact iff_of_false (by omega) (by simp [same])
  · exact iff_of_false (by omega) greater.not_gt

theorem eq_zero_iff : result = 0 ↔ first = second := by
  rcases agrees with ⟨negative, less⟩ | ⟨zero, same⟩ | ⟨positive, greater⟩
  · exact iff_of_false (by omega) less.ne
  · exact iff_of_true zero same
  · exact iff_of_false (by omega) greater.ne'

theorem nonpos_iff : result ≤ 0 ↔ first ≤ second := by
  rw [Int.le_iff_lt_or_eq, agrees.neg_iff, agrees.eq_zero_iff, le_iff_lt_or_eq]

theorem pos_iff : 0 < result ↔ second < first := by
  rw [← not_le, agrees.nonpos_iff, not_le]

theorem sign_eq_neg (backward : Agrees back second first) :
    result.sign = -back.sign := by
  rcases agrees with ⟨negative, less⟩ | ⟨zero, same⟩ | ⟨positive, greater⟩
  · rw [Int.sign_eq_neg_one_of_neg negative,
      Int.sign_eq_one_of_pos (backward.pos_iff.mpr less)]
  · rw [zero, backward.eq_zero_iff.mpr same.symm]
    rfl
  · rw [Int.sign_eq_one_of_pos positive,
      Int.sign_eq_neg_one_of_neg (backward.neg_iff.mpr greater)]
    rfl

theorem sign_eq {other : ℤ}
    (otherAgrees : Agrees other first second) : result.sign = other.sign := by
  rcases agrees with ⟨negative, less⟩ | ⟨zero, same⟩ | ⟨positive, greater⟩
  · rw [Int.sign_eq_neg_one_of_neg negative,
      Int.sign_eq_neg_one_of_neg (otherAgrees.neg_iff.mpr less)]
  · rw [zero, otherAgrees.eq_zero_iff.mpr same]
  · rw [Int.sign_eq_one_of_pos positive,
      Int.sign_eq_one_of_pos (otherAgrees.pos_iff.mpr greater)]

omit agrees

theorem sub (first second : ℤ) : Agrees (first - second) first second := by
  rcases lt_trichotomy first second with less | same | greater
  · exact of_lt (by omega) less
  · exact .inr (.inl ⟨by omega, same⟩)
  · exact of_gt (by omega) greater

theorem toLex_of_ne {first second : α} (agrees : Agrees result first second)
    (different : result ≠ 0) (firstRest secondRest : β) :
    Agrees result (toLex (first, firstRest)) (toLex (second, secondRest)) := by
  rcases agrees with ⟨negative, less⟩ | ⟨zero, same⟩ | ⟨positive, greater⟩
  · exact of_lt negative (Prod.Lex.toLex_lt_toLex.mpr (.inl less))
  · exact absurd zero different
  · exact of_gt positive (Prod.Lex.toLex_lt_toLex.mpr (.inl greater))

theorem toLex_of_eq {first second : β} (agrees : Agrees result first second)
    (head : α) : Agrees result (toLex (head, first))
    (toLex (head, second)) := by
  rcases agrees with ⟨negative, less⟩ | ⟨zero, same⟩ | ⟨positive, greater⟩
  · exact of_lt negative (Prod.Lex.toLex_lt_toLex.mpr (.inr ⟨rfl, less⟩))
  · exact .inr (.inl ⟨zero, by rw [same]⟩)
  · exact of_gt positive (Prod.Lex.toLex_lt_toLex.mpr (.inr ⟨rfl, greater⟩))

theorem cons_of_ne {first second : α} (agrees : Agrees result first second)
    (different : result ≠ 0) (firsts seconds : List α) :
    Agrees result (first :: firsts) (second :: seconds) := by
  rcases agrees with ⟨negative, less⟩ | ⟨zero, same⟩ | ⟨positive, greater⟩
  · exact of_lt negative (List.cons_lt_cons_iff.mpr (.inl less))
  · exact absurd zero different
  · exact of_gt positive (List.cons_lt_cons_iff.mpr (.inl greater))

theorem cons_of_eq {firsts seconds : List α}
    (agrees : Agrees result firsts seconds) (head : α) :
    Agrees result (head :: firsts) (head :: seconds) := by
  rcases agrees with ⟨negative, less⟩ | ⟨zero, same⟩ | ⟨positive, greater⟩
  · exact of_lt negative (List.cons_lt_cons_iff.mpr (.inr ⟨rfl, less⟩))
  · exact .inr (.inl ⟨zero, by rw [same]⟩)
  · exact of_gt positive (List.cons_lt_cons_iff.mpr (.inr ⟨rfl, greater⟩))

end Agrees

end Nvbmc.Library
