import Mathlib.Data.Nat.Log
import Mathlib.Tactic.Linarith

/-!
# Rounding to binary digits

A natural number is rounded to a number of leading binary digits, a half to the
even neighbour.
-/

namespace Nvbmc.Library

/-- The quotient that is nearest, of two the even one. -/
def roundQuotient (value unit : ℕ) : ℕ :=
  if 2 * (value % unit) < unit ∨ 2 * (value % unit) = unit ∧
    value / unit % 2 = 0 then
    value / unit
  else value / unit + 1

def lastPlace (bits value : ℕ) : ℕ :=
  2 ^ (value.log2 + 1 - bits)

def roundBits (bits value : ℕ) : ℕ :=
  roundQuotient value (lastPlace bits value) * lastPlace bits value

section Rounding

variable {bits unit first second value : ℕ}

theorem div_le_roundQuotient : value / unit ≤ roundQuotient value unit := by
  unfold roundQuotient
  split <;> omega

theorem roundQuotient_le : roundQuotient value unit ≤ value / unit + 1 := by
  unfold roundQuotient
  split <;> omega

theorem roundQuotient_mono (ordered : first ≤ second) :
    roundQuotient first unit ≤ roundQuotient second unit := by
  have quotients : first / unit ≤ second / unit := Nat.div_le_div_right ordered
  rcases Nat.lt_or_eq_of_le quotients with less | same
  · calc roundQuotient first unit ≤ first / unit + 1 := roundQuotient_le
      _ ≤ second / unit := less
      _ ≤ roundQuotient second unit := div_le_roundQuotient
  · have rests : first % unit ≤ second % unit := by
      have firstSplit := Nat.div_add_mod first unit
      have secondSplit := Nat.div_add_mod second unit
      rw [same] at firstSplit
      omega
    unfold roundQuotient
    rw [same]
    split <;> split <;> omega

theorem roundBits_le : roundBits bits value ≤ 2 ^ (value.log2 + 1) := by
  have places : 2 ^ (value.log2 + 1) =
      2 ^ (value.log2 + 1 - (value.log2 + 1 - bits)) *
        lastPlace bits value := by
    rw [lastPlace, ← pow_add]
    congr 1
    omega
  have quotient : value / lastPlace bits value <
      2 ^ (value.log2 + 1 - (value.log2 + 1 - bits)) := by
    apply Nat.div_lt_of_lt_mul
    rw [mul_comm, ← places]
    exact Nat.lt_log2_self
  rw [places, roundBits]
  apply Nat.mul_le_mul_right
  exact roundQuotient_le.trans quotient

theorem le_roundBits (positive : value ≠ 0) (kept : 0 < bits) :
    2 ^ value.log2 ≤ roundBits bits value := by
  have places : 2 ^ value.log2 =
      2 ^ (value.log2 - (value.log2 + 1 - bits)) * lastPlace bits value := by
    rw [lastPlace, ← pow_add]
    congr 1
    omega
  have quotient : 2 ^ (value.log2 - (value.log2 + 1 - bits)) ≤
      value / lastPlace bits value := by
    apply (Nat.le_div_iff_mul_le (Nat.two_pow_pos _)).mpr
    have below := Nat.log2_self_le positive
    rwa [places] at below
  rw [places, roundBits]
  apply Nat.mul_le_mul_right
  exact quotient.trans div_le_roundQuotient

theorem roundBits_mono (kept : 0 < bits) (ordered : first ≤ second) :
    roundBits bits first ≤ roundBits bits second := by
  have digits : first.log2 ≤ second.log2 := by
    rw [Nat.log2_eq_log_two, Nat.log2_eq_log_two]
    exact Nat.log_mono_right ordered
  rcases Nat.lt_or_eq_of_le digits with less | same
  · have positive : second ≠ 0 := by
      intro isZero
      rw [isZero, Nat.log2_zero] at less
      omega
    calc roundBits bits first ≤ 2 ^ (first.log2 + 1) := roundBits_le
      _ ≤ 2 ^ second.log2 := Nat.pow_le_pow_right (by decide) less
      _ ≤ roundBits bits second := le_roundBits positive kept
  · have places : lastPlace bits first = lastPlace bits second := by
      rw [lastPlace, same, lastPlace]
    rw [roundBits, places]
    apply Nat.mul_le_mul_right
    exact roundQuotient_mono ordered

end Rounding

end Nvbmc.Library
