import Mathlib.Algebra.Group.Nat.Defs
import Nvbmc.Library.Columns

/-!
# Numerals

Python's reading of a text as an integer, which takes the decimal digits of all
scripts, its hexadecimal numerals and its integers as bytes.
-/

namespace Nvbmc.Library

/-- The code points of the digits zero; the other nine digits of a script
follow. -/
def zeros : List ℕ :=
  [0x30, 0x660, 0x6f0, 0x7c0, 0x966, 0x9e6, 0xa66, 0xae6, 0xb66, 0xbe6, 0xc66,
    0xce6, 0xd66, 0xde6, 0xe50, 0xed0, 0xf20, 0x1040, 0x1090, 0x17e0, 0x1810,
    0x1946, 0x19d0, 0x1a80, 0x1a90, 0x1b50, 0x1bb0, 0x1c40, 0x1c50, 0xa620,
    0xa8d0, 0xa900, 0xa9d0, 0xa9f0, 0xaa50, 0xabf0, 0xff10, 0x104a0, 0x10d30,
    0x11066, 0x110f0, 0x11136, 0x111d0, 0x112f0, 0x11450, 0x114d0, 0x11650,
    0x116c0, 0x11730, 0x118e0, 0x11950, 0x11c50, 0x11d50, 0x11da0, 0x16a60,
    0x16ac0, 0x16b50, 0x1d7ce, 0x1d7d8, 0x1d7e2, 0x1d7ec, 0x1d7f6, 0x1e140,
    0x1e2f0, 0x1e950, 0x1fbf0]

def digit? (char : Char) : Option ℕ :=
  (zeros.find? fun first =>
    first ≤ char.toNat && char.toNat < first + 10).map (char.toNat - ·)

/-- The value of a numeral whose first digits have been read.  Single
underscores may stand between digits. -/
def digitsFrom (value : ℕ) : Text → Option ℕ
  | [] => some value
  | '_' :: char :: rest => do
      let digit ← digit? char
      digitsFrom (10 * value + digit) rest
  | char :: rest => do
      let digit ← digit? char
      digitsFrom (10 * value + digit) rest

def digits? : Text → Option ℕ
  | [] => none
  | char :: rest => do
      let digit ← digit? char
      digitsFrom digit rest

/-- `int` of a text, `none` for its `ValueError`. -/
def int? (text : Text) : Option ℤ :=
  match rstrip (text.dropWhile isspace) with
  | '-' :: numeral => (digits? numeral).map fun value => -Int.ofNat value
  | '+' :: numeral => (digits? numeral).map Int.ofNat
  | numeral => (digits? numeral).map Int.ofNat

/-- `hex` of a natural number. -/
def hex (value : ℕ) : Text :=
  '0' :: 'x' :: Nat.toDigits 16 value

def hexDigits : List Char :=
  ['0', '1', '2', '3', '4', '5', '6', '7', '8', '9', 'a', 'b', 'c', 'd', 'e',
    'f']

/-- The number a hexadecimal numeral is read as. -/
def ofHex? : Text → Option ℕ
  | '0' :: 'x' :: digits =>
      some (digits.foldl (fun value char => 16 * value + hexDigits.idxOf char)
        0)
  | _ => none

section Hex

theorem idxOf_digitChar :
    ∀ digit < 16, hexDigits.idxOf (Nat.digitChar digit) = digit := by
  decide

private theorem foldl_toDigits (value : ℕ) :
    (Nat.toDigits 16 value).foldl
      (fun value char => 16 * value + hexDigits.idxOf char) 0 = value := by
  induction value using Nat.base_induction 16 (by decide) with
  | single digit below =>
      simp [Nat.toDigits_of_lt_base below, idxOf_digitChar digit below]
  | digit higher digit below positive induction =>
      rw [← Nat.toDigits_append_toDigits (by decide) positive below,
        List.foldl_append, induction, Nat.toDigits_of_lt_base below]
      simp [idxOf_digitChar digit below]

theorem ofHex_hex (value : ℕ) : ofHex? (hex value) = some value := by
  rw [hex, ofHex?, foldl_toDigits]

private theorem mem_toDigitsCore {base fuel value : ℕ} {char : Char}
    {later : List Char}
    (member : char ∈ Nat.toDigitsCore base fuel value later) :
    char ∈ later ∨ ∃ digit, char = Nat.digitChar digit := by
  induction fuel generalizing value later with
  | zero => exact .inl member
  | succ fuel induction =>
      rw [Nat.toDigitsCore] at member
      have first (among : char ∈ Nat.digitChar (value % base) :: later) :
          char ∈ later ∨ ∃ digit, char = Nat.digitChar digit := by
        rcases List.mem_cons.mp among with rfl | among
        · exact .inr ⟨_, rfl⟩
        · exact .inl among
      split_ifs at member
      · exact first member
      · rcases induction member with among | digit
        · exact first among
        · exact .inr digit

private theorem ite_ne {c : Prop} [Decidable c] {first second char : Char}
    (one : first ≠ char) (other : second ≠ char) :
    (if c then first else second) ≠ char := by
  split <;> assumption

theorem digitChar_ne_null (digit : ℕ) : Nat.digitChar digit ≠ Char.ofNat 0 := by
  rw [Nat.digitChar]
  iterate 16 refine ite_ne (by decide) ?_
  decide

theorem mem_hex {value : ℕ} {char : Char} (member : char ∈ hex value) :
    char = '0' ∨ char = 'x' ∨ ∃ digit, char = Nat.digitChar digit := by
  rcases List.mem_cons.mp member with first | member
  · exact .inl first
  · rcases List.mem_cons.mp member with second | member
    · exact .inr (.inl second)
    · rcases mem_toDigitsCore member with none | digit
      · cases none
      · exact .inr (.inr digit)

end Hex

section Characters

def OfNumeral (char : Char) : Prop :=
  isspace char ∨ char ∈ ['-', '+', '_'] ∨ (digit? char).isSome

private theorem ofNumeral_of_digitsFrom {value result : ℕ} {text : Text}
    (read : digitsFrom value text = some result) :
    ∀ char ∈ text, OfNumeral char := by
  fun_induction digitsFrom value text with
  | case1 => simp
  | case2 value char rest induction =>
      obtain ⟨digit, isDigit, later⟩ := Option.bind_eq_some_iff.mp read
      have digits := induction digit later
      intro other member
      rcases List.mem_cons.mp member with rfl | member
      · exact .inr (.inl (by simp))
      · rcases List.mem_cons.mp member with rfl | member
        · exact .inr (.inr (by simp [isDigit]))
        · exact digits other member
  | case3 value char rest _ induction =>
      obtain ⟨digit, isDigit, later⟩ := Option.bind_eq_some_iff.mp read
      have digits := induction digit later
      intro other member
      rcases List.mem_cons.mp member with rfl | member
      · exact .inr (.inr (by simp [isDigit]))
      · exact digits other member

private theorem ofNumeral_of_digits {result : ℕ} {text : Text}
    (read : digits? text = some result) : ∀ char ∈ text, OfNumeral char := by
  cases text with
  | nil => simp
  | cons char rest =>
      obtain ⟨digit, isDigit, later⟩ := Option.bind_eq_some_iff.mp read
      intro other member
      rcases List.mem_cons.mp member with rfl | member
      · exact .inr (.inr (by simp [isDigit]))
      · exact ofNumeral_of_digitsFrom later other member

theorem ofNumeral_of_int {result : ℤ} {text : Text}
    (read : int? text = some result) : ∀ char ∈ text, OfNumeral char := by
  have stripped : ∀ char ∈ rstrip (text.dropWhile isspace), OfNumeral char := by
    rw [int?] at read
    split at read
    · obtain ⟨value, digits, -⟩ := Option.map_eq_some_iff.mp read
      rename_i numeral same
      rw [same]
      intro char member
      rcases List.mem_cons.mp member with rfl | member
      · exact .inr (.inl (by simp))
      · exact ofNumeral_of_digits digits char member
    · obtain ⟨value, digits, -⟩ := Option.map_eq_some_iff.mp read
      rename_i numeral same
      rw [same]
      intro char member
      rcases List.mem_cons.mp member with rfl | member
      · exact .inr (.inl (by simp))
      · exact ofNumeral_of_digits digits char member
    · obtain ⟨value, digits, -⟩ := Option.map_eq_some_iff.mp read
      exact ofNumeral_of_digits digits
  intro char member
  obtain ⟨blanks, split, blank⟩ := rstrip_append (text.dropWhile isspace)
  rw [← List.takeWhile_append_dropWhile (p := isspace) (l := text), split]
    at member
  rcases List.mem_append.mp member with leading | member
  · exact .inl (List.mem_takeWhile_imp leading)
  · rcases List.mem_append.mp member with inside | trailing
    · exact stripped char inside
    · exact .inl (blank char trailing)

end Characters

section Decimal

theorem digit?_of_isDigit {char : Char} (isDigit : char.isDigit) :
    digit? char = some (char.toNat - 48) := by
  have bounds : 48 ≤ char.toNat ∧ char.toNat ≤ 57 := by
    simp only [Char.isDigit, Bool.and_eq_true, decide_eq_true_eq] at isDigit
    exact isDigit
  rw [digit?, zeros, List.find?_cons_of_pos]
  · rfl
  · simp only [Bool.and_eq_true, decide_eq_true_eq]
    omega

theorem digitsFrom_of_isDigit {text : Text}
    (digits : ∀ char ∈ text, char.isDigit)
    (value : ℕ) :
    digitsFrom value text = some (Nat.ofDigitChars 10 text value) := by
  induction text generalizing value with
  | nil => simp [digitsFrom]
  | cons char rest induction =>
      have isDigit := digits char List.mem_cons_self
      have notUnderscore : char ≠ '_' := by
        rintro rfl
        exact absurd isDigit (by decide)
      rw [digitsFrom, digit?_of_isDigit isDigit]
      · simp only [Option.bind_eq_bind, Option.bind_some]
        rw [induction fun other member =>
          digits other (List.mem_cons_of_mem _ member), Nat.ofDigitChars_cons]
        rfl
      · intro _ _ isUnderscore
        exact absurd isUnderscore notUnderscore

theorem digits?_toDigits (value : ℕ) : digits? (Nat.toDigits 10 value) =
    some value := by
  have digits : ∀ char ∈ Nat.toDigits 10 value, char.isDigit := by
    intro char member
    exact Nat.isDigit_of_mem_toDigits (by decide) (by decide) member
  have whole := digitsFrom_of_isDigit digits 0
  rw [Nat.ofDigitChars_ten_toDigits] at whole
  obtain ⟨first, rest, split⟩ := List.exists_cons_of_ne_nil
    (@Nat.toDigits_ne_nil value 10)
  rw [split] at digits whole ⊢
  have isDigit := digits first List.mem_cons_self
  have notUnderscore : first ≠ '_' := by
    rintro rfl
    exact absurd isDigit (by decide)
  rw [digitsFrom] at whole
  · simpa [digits?] using whole
  · intro _ _ isUnderscore
    exact absurd isUnderscore notUnderscore

theorem not_isspace_of_isDigit {char : Char} (isDigit : char.isDigit) :
    ¬ isspace char := by
  have bounds : 48 ≤ char.toNat ∧ char.toNat ≤ 57 := by
    simp only [Char.isDigit, Bool.and_eq_true, decide_eq_true_eq] at isDigit
    exact isDigit
  simp only [isspace, Bool.or_eq_true, Bool.and_eq_true, decide_eq_true_eq,
    beq_iff_eq]
  omega

theorem int?_decimal (value : ℤ) : int? (decimal value) = some value := by
  have digits : ∀ magnitude, ∀ char ∈ Nat.toDigits 10 magnitude,
      char.isDigit := by
    intro magnitude char member
    exact Nat.isDigit_of_mem_toDigits (by decide) (by decide) member
  have solid : ∀ char ∈ decimal value, ¬ isspace char := by
    intro char member
    cases value with
    | ofNat magnitude =>
        exact not_isspace_of_isDigit (digits magnitude char member)
    | negSucc magnitude =>
        rcases List.mem_cons.mp member with rfl | member
        · decide
        · exact not_isspace_of_isDigit (digits (magnitude + 1) char member)
  have unstripped : rstrip ((decimal value).dropWhile isspace) =
      decimal value := by
    have noLeading : (decimal value).dropWhile isspace = decimal value := by
      cases written : decimal value with
      | nil => rfl
      | cons char rest =>
          rw [List.dropWhile_cons_of_neg]
          exact solid char (by simp [written])
    rw [noLeading]
    apply rstrip_eq_self
    intro last member
    exact solid last (List.mem_of_getLast? member)
  rw [int?, unstripped]
  cases value with
  | ofNat magnitude =>
      rw [decimal]
      split
      · rename_i numeral same
        have member : '-' ∈ Nat.toDigits 10 magnitude := by simp [same]
        exact absurd (digits magnitude _ member) (by decide)
      · rename_i numeral same
        have member : '+' ∈ Nat.toDigits 10 magnitude := by simp [same]
        exact absurd (digits magnitude _ member) (by decide)
      · rw [digits?_toDigits]
        rfl
  | negSucc magnitude =>
      rw [decimal]
      simp only [digits?_toDigits, Option.map_some]
      rfl

end Decimal

/-- `value.to_bytes(size, 'big')`, for a value that fits. -/
def toBytesBig : ℕ → ℕ → List UInt8
  | 0, _ => []
  | size + 1, value =>
      toBytesBig size (value / 256) ++ [UInt8.ofNat (value % 256)]

/-- `int.from_bytes(bytes, 'big')`. -/
def fromBytesBig (bytes : List UInt8) : ℕ :=
  bytes.foldl (fun value byte => value * 256 + byte.toNat) 0

@[simp] theorem length_toBytesBig (size value : ℕ) :
    (toBytesBig size value).length = size := by
  induction size generalizing value with
  | zero => rfl
  | succ size induction => simp [toBytesBig, induction]

theorem fromBytesBig_toBytesBig {size value : ℕ} (fits : value < 256 ^ size) :
    fromBytesBig (toBytesBig size value) = value := by
  induction size generalizing value with
  | zero =>
      rw [Nat.pow_zero] at fits
      simp only [toBytesBig, fromBytesBig, List.foldl_nil]
      omega
  | succ size induction =>
      have lower : value / 256 < 256 ^ size := by
        rw [Nat.pow_succ] at fits
        omega
      have digit : (UInt8.ofNat (value % 256)).toNat = value % 256 := by
        rw [UInt8.toNat_ofNat']
        omega
      have high := induction lower
      rw [fromBytesBig] at high
      simp only [toBytesBig, fromBytesBig, List.foldl_append, List.foldl_cons,
        List.foldl_nil, high, digit]
      omega

end Nvbmc.Library
