import Mathlib.Data.List.DropRight

/-!
# Text

Text is a list of characters.  The functions are Python's string methods as
far as line based protocols need them: blanks, stripping on the right and
cutting into pieces of a fixed length.
-/

namespace Nvbmc.Library

abbrev Text := List Char

instance decidableMemText (text : Text) (texts : List Text) :
    Decidable (text ∈ texts) :=
  List.instDecidableMemOfLawfulBEq text texts

/-- `str.isspace` of one character. -/
def isspace (char : Char) : Bool :=
  let code := char.toNat
  (9 ≤ code && code ≤ 13) || (28 ≤ code && code ≤ 32) || code == 0x85 ||
    code == 0xa0 || code == 0x1680 || (0x2000 ≤ code && code ≤ 0x200a) ||
    code == 0x2028 || code == 0x2029 || code == 0x202f || code == 0x205f ||
    code == 0x3000

/-- `str.rstrip`. -/
def rstrip (text : Text) : Text :=
  text.rdropWhile isspace

theorem rstrip_append_blanks (text blanks : Text)
    (blank : ∀ char ∈ blanks, isspace char) :
    rstrip (text ++ blanks) = rstrip text := by
  induction blanks using List.reverseRecOn with
  | nil => simp
  | append_singleton blanks last induction =>
      have lastBlank : isspace last := blank last (by simp)
      rw [← List.append_assoc, rstrip, List.rdropWhile_concat_pos _ _ _
        lastBlank]
      exact induction fun char member => blank char (by simp [member])

theorem rstrip_append (text : Text) :
    ∃ blanks : Text, text = rstrip text ++ blanks ∧
      ∀ char ∈ blanks, isspace char := by
  induction text using List.reverseRecOn with
  | nil => exact ⟨[], by simp [rstrip]⟩
  | append_singleton text last induction =>
      by_cases lastBlank : isspace last
      · obtain ⟨blanks, split, blank⟩ := induction
        refine ⟨blanks ++ [last], ?_, ?_⟩
        · rw [rstrip, List.rdropWhile_concat_pos _ _ _ lastBlank]
          rw [← List.append_assoc]
          exact congrArg (· ++ [last]) split
        · intro char member
          rcases List.mem_append.mp member with earlier | isLast
          · exact blank char earlier
          · exact List.mem_singleton.mp isLast ▸ lastBlank
      · refine ⟨[], ?_, by simp⟩
        rw [rstrip, List.rdropWhile_concat_neg _ _ _ lastBlank, List.append_nil]

theorem rstrip_eq_self {text : Text}
    (unblank : ∀ last ∈ text.getLast?, ¬ isspace last) :
    rstrip text = text := by
  induction text using List.reverseRecOn with
  | nil => rfl
  | append_singleton text last _ =>
      have lastUnblank : ¬ isspace last := unblank last (by simp)
      rw [rstrip, List.rdropWhile_concat_neg _ _ _ lastUnblank]

/-- Cuts a text into pieces of `size` characters, the last one shorter; at most
`fuel` of them. -/
def cutFuel (size : ℕ) : ℕ → Text → List Text
  | 0, _ => []
  | fuel + 1, text =>
      if text = [] then []
      else text.take size :: cutFuel size fuel (text.drop size)

/-- The pieces of `size` characters of a text.  No text has more pieces than
characters. -/
def cut (size : ℕ) (text : Text) : List Text :=
  if size = 0 then [] else cutFuel size text.length text

section Cut

variable {size : ℕ} (positive : 0 < size)

include positive

private theorem flatten_cutFuel {fuel : ℕ} {text : Text}
    (enough : text.length ≤ fuel) : (cutFuel size fuel text).flatten =
      text := by
  induction fuel generalizing text with
  | zero => simpa [cutFuel] using enough
  | succ fuel induction =>
      by_cases empty : text = []
      · simp [cutFuel, empty]
      · have shorter : (text.drop size).length ≤ fuel := by
          have nonempty := List.length_pos_iff.mpr empty
          rw [List.length_drop]
          omega
        rw [cutFuel, if_neg empty, List.flatten_cons, induction shorter]
        exact List.take_append_drop size text

@[simp] theorem flatten_cut (text : Text) : (cut size text).flatten = text := by
  rw [cut, if_neg (by omega)]
  exact flatten_cutFuel positive le_rfl

private theorem mem_cutFuel {fuel : ℕ} {text piece : Text}
    (member : piece ∈ cutFuel size fuel text) :
    piece ≠ [] ∧ piece.length ≤ size := by
  induction fuel generalizing text with
  | zero => simp [cutFuel] at member
  | succ fuel induction =>
      by_cases empty : text = []
      · simp [cutFuel, empty] at member
      · rw [cutFuel, if_neg empty] at member
        rcases List.mem_cons.mp member with first | later
        · subst first
          constructor
          · rw [Ne, List.take_eq_nil_iff]
            rintro (zero | none)
            · omega
            · exact empty none
          · exact List.length_take_le size text
        · exact induction later

theorem length_le_of_mem_cut {text piece : Text}
    (member : piece ∈ cut size text) : piece.length ≤ size := by
  rw [cut, if_neg (by omega)] at member
  exact (mem_cutFuel positive member).2

end Cut

theorem mem_of_mem_cut {size : ℕ} (positive : 0 < size) {text piece : Text}
    {char : Char} (member : piece ∈ cut size text) (inside : char ∈ piece) :
    char ∈ text := by
  rw [← flatten_cut positive text]
  exact List.mem_flatten.mpr ⟨piece, member, inside⟩

theorem exists_mem_splitOn {separator char : Char} {text : Text}
    (member : char ∈ text) (different : char ≠ separator) :
    ∃ part ∈ text.splitOn separator, char ∈ part := by
  rw [List.splitOn_eq_splitOnP]
  induction text with
  | nil => cases member
  | cons head rest induction =>
      rw [List.splitOnP_cons_eq_if_modifyHead]
      split_ifs with isSeparator
      · rcases List.mem_cons.mp member with rfl | later
        · exact absurd (by simpa using isSeparator) different
        · obtain ⟨part, among, inside⟩ := induction later
          exact ⟨part, List.mem_cons_of_mem _ among, inside⟩
      · obtain ⟨first, others, split⟩ := List.exists_cons_of_ne_nil
          (List.splitOnP_ne_nil (· == separator) rest)
        rw [split] at induction ⊢
        rw [List.modifyHead_cons]
        rcases List.mem_cons.mp member with rfl | later
        · exact ⟨_, List.mem_cons_self, List.mem_cons_self⟩
        · obtain ⟨part, among, inside⟩ := induction later
          rcases List.mem_cons.mp among with rfl | among
          · exact ⟨_, List.mem_cons_self, List.mem_cons_of_mem _ inside⟩
          · exact ⟨part, List.mem_cons_of_mem _ among, inside⟩
end Nvbmc.Library
