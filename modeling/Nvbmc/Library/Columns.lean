import Nvbmc.Library.Text

/-!
# Columns

Numbers and words that are padded with blanks on the left, as the formats `%10d`
and `%10s` write them.  A word without blanks is read back when a blank stands
behind it.
-/

namespace Nvbmc.Library

/-- `%d`. -/
def decimal : ℤ → Text
  | .ofNat magnitude => Nat.toDigits 10 magnitude
  | .negSucc magnitude => '-' :: Nat.toDigits 10 (magnitude + 1)

/-- `%s` with a width. -/
def padLeft (width : ℕ) (word : Text) : Text :=
  List.replicate (width - word.length) ' ' ++ word

/-- A text without blanks. -/
structure Word (text : Text) : Prop where
  nonempty : text ≠ []
  solid : ' ' ∉ text

section Numbers

theorem not_mem_toDigits {char : Char} (noDigit : char.isDigit = false)
    (magnitude : ℕ) : char ∉ Nat.toDigits 10 magnitude := by
  intro member
  rw [Nat.isDigit_of_mem_toDigits (by omega) (by omega) member] at noDigit
  cases noDigit

theorem toDigits_injective : Function.Injective (Nat.toDigits 10) := by
  intro first second same
  rw [← Nat.ofDigitChars_ten_toDigits (n := first), same,
    Nat.ofDigitChars_ten_toDigits]

theorem decimal_injective : Function.Injective decimal := by
  have minus (magnitude : ℕ) : '-' ∉ Nat.toDigits 10 magnitude :=
    not_mem_toDigits rfl magnitude
  intro first second same
  cases first with
  | ofNat first =>
      cases second with
      | ofNat second => rw [toDigits_injective same]
      | negSucc second =>
          have member : '-' ∈ decimal (.negSucc second) := List.mem_cons_self
          rw [← same] at member
          exact absurd member (minus first)
  | negSucc first =>
      cases second with
      | ofNat second =>
          have member : '-' ∈ decimal (.negSucc first) := List.mem_cons_self
          rw [same] at member
          exact absurd member (minus second)
      | negSucc second =>
          have digits := toDigits_injective (List.cons.inj same).2
          rw [Nat.add_right_cancel digits]

theorem word_toDigits (magnitude : ℕ) : Word (Nat.toDigits 10 magnitude) :=
  ⟨Nat.toDigits_ne_nil, not_mem_toDigits rfl magnitude⟩

theorem word_decimal (number : ℤ) : Word (decimal number) := by
  cases number with
  | ofNat magnitude => exact word_toDigits magnitude
  | negSucc magnitude =>
      constructor
      · exact List.cons_ne_nil _ _
      · rw [decimal, List.mem_cons]
        rintro (isMinus | digit)
        · exact absurd isMinus (by decide)
        · exact (word_toDigits _).solid digit

end Numbers

section Padding

theorem append_separator_inj {α : Type*} {separator : α}
    {first second rest behind : List α} (free : separator ∉ first)
    (alsoFree : separator ∉ second)
    (same : first ++ separator :: rest = second ++ separator :: behind) :
    first = second ∧ rest = behind := by
  induction first generalizing second with
  | nil =>
      cases second with
      | nil => exact ⟨rfl, (List.cons.inj same).2⟩
      | cons head second =>
          rw [(List.cons.inj same).1] at alsoFree
          exact absurd List.mem_cons_self alsoFree
  | cons head first induction =>
      cases second with
      | nil =>
          rw [(List.cons.inj same).1] at free
          exact absurd List.mem_cons_self free
      | cons other second =>
          obtain ⟨rfl, tails⟩ := List.cons.inj same
          rw [List.mem_cons, not_or] at free alsoFree
          obtain ⟨rfl, rest⟩ := induction free.2 alsoFree.2 tails
          exact ⟨rfl, rest⟩

variable {word other rest behind : Text}

theorem dropWhile_blanks (isWord : Word word) (count : ℕ) :
    (List.replicate count ' ' ++ word ++ rest).dropWhile (· = ' ') =
      word ++ rest := by
  induction count with
  | zero =>
      obtain ⟨head, tail, rfl⟩ := List.exists_cons_of_ne_nil isWord.nonempty
      have solid : head ≠ ' ' :=
        fun same => isWord.solid (same ▸ List.mem_cons_self)
      simp [solid]
  | succ count induction =>
      rw [List.replicate_succ, List.cons_append, List.cons_append,
        List.dropWhile_cons_of_pos (by simp)]
      exact induction

theorem padLeft_append_inj {width : ℕ} (isWord : Word word)
    (isOther : Word other)
    (same : padLeft width word ++ ' ' :: rest = padLeft width other ++ ' ' ::
      behind) :
    word = other ∧ rest = behind := by
  have words : word ++ ' ' :: rest = other ++ ' ' :: behind := by
    rw [← dropWhile_blanks isWord (width - word.length),
      ← dropWhile_blanks isOther (width - other.length)]
    exact congrArg _ same
  exact append_separator_inj isWord.solid isOther.solid words

end Padding

end Nvbmc.Library
