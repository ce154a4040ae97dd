import Mathlib.Data.List.Basic

/-!
# Pieces of a text

Lists that are joined without anything between them.  The pieces are known from
the whole when their lengths are, and one length may be missing, since it is
what the others leave.
-/

namespace Nvbmc.Library

section Pieces

variable {α : Type*} {first second : List (List α)}

theorem eq_of_flatten_eq
    (lengths : first.map List.length = second.map List.length)
    (whole : first.flatten = second.flatten) : first = second := by
  induction first generalizing second with
  | nil =>
      cases second with
      | nil => rfl
      | cons piece second => cases lengths
  | cons piece first induction =>
      cases second with
      | nil => cases lengths
      | cons other second =>
          rw [List.map_cons, List.map_cons, List.cons.injEq] at lengths
          rw [List.flatten_cons, List.flatten_cons] at whole
          obtain ⟨same, rest⟩ := List.append_inj whole lengths.1
          rw [same, induction lengths.2 rest]

theorem lengths_eq (count : first.length = second.length)
    (whole : first.flatten.length = second.flatten.length) (place : ℕ)
    (others : ∀ index, index ≠ place →
      (first[index]?.map List.length) = second[index]?.map List.length) :
    first.map List.length = second.map List.length := by
  induction first generalizing second place with
  | nil =>
      cases second with
      | nil => rfl
      | cons piece second => cases count
  | cons piece first induction =>
      cases second with
      | nil => cases count
      | cons other second =>
          rw [List.length_cons, List.length_cons, Nat.add_right_cancel_iff]
            at count
          rw [List.flatten_cons, List.flatten_cons, List.length_append,
            List.length_append] at whole
          rw [List.map_cons, List.map_cons]
          cases place with
          | zero =>
              have rest : first.map List.length = second.map List.length := by
                apply List.ext_getElem?
                intro index
                rw [List.getElem?_map, List.getElem?_map]
                simpa using others (index + 1) (Nat.succ_ne_zero _)
              have sums : first.flatten.length = second.flatten.length := by
                rw [List.length_flatten, List.length_flatten, rest]
              rw [sums] at whole
              rw [rest, Nat.add_right_cancel whole]
          | succ place =>
              have head : piece.length = other.length := by
                simpa using others 0 (Nat.succ_ne_zero _).symm
              have rest :=
                induction count (by omega) place fun index different => by
                simpa using others (index + 1) fun same => different (by omega)
              rw [head, rest]

end Pieces

end Nvbmc.Library
