import Mathlib.Data.List.Basic

/-!
# Writing into a list

A list is written over from a position on, as a file is.  Pieces that follow
each other make up one piece, and writing what is there changes nothing.
-/

namespace Nvbmc.Library

section Overwrite

variable {α : Type*} {file : List α} {position : ℕ}

def overwrite (file : List α) (position : ℕ) (items : List α) : List α :=
  file.take position ++ items ++ file.drop (position + items.length)

@[simp] theorem overwrite_nil (file : List α) (position : ℕ) :
    overwrite file position [] = file := by
  simp [overwrite]

theorem length_overwrite {items : List α}
    (fits : position + items.length ≤ file.length) :
    (overwrite file position items).length = file.length := by
  simp only [overwrite, List.length_append, List.length_take, List.length_drop]
  omega

theorem drop_overwrite (items : List α) (within : position ≤ file.length) :
    (overwrite file position items).drop (position + items.length) =
      file.drop (position + items.length) := by
  have front : (file.take position ++ items).length =
      position + items.length := by
    simp only [List.length_append, List.length_take]
    omega
  rw [overwrite, ← front]
  exact List.drop_left ..

theorem overwrite_append (first second : List α)
    (within : position ≤ file.length) :
    overwrite (overwrite file position first) (position + first.length) second =
      overwrite file position (first ++ second) := by
  have front : (file.take position ++ first).length =
      position + first.length := by
    simp only [List.length_append, List.length_take]
    omega
  unfold overwrite
  rw [List.take_left' front, ← front, List.drop_append, front,
    List.drop_eq_nil_of_le (by omega), List.nil_append, List.drop_drop,
    List.length_append, List.append_assoc (file.take position)]
  congr 2
  omega

theorem overwrite_self {items : List α}
    (same : (file.drop position).take items.length = items) :
    overwrite file position items = file := by
  have rest : items ++ file.drop (position + items.length) =
      file.drop position := by
    rw [← List.drop_drop]
    nth_rewrite 1 [← same]
    exact List.take_append_drop ..
  rw [overwrite, List.append_assoc, rest, List.take_append_drop]

end Overwrite

end Nvbmc.Library
