import Nvbmc.Library.Numerals
import Nvbmc.PackageData.PkgData

/-!
# A codec

What the encoder of `unicode_escape` writes for each character, and a decoder of
that.
-/

namespace Nvbmc.PackageData

open Library

def hexField : ℕ → ℕ → Text
  | 0, _ => []
  | width + 1, value =>
      hexField width (value / 16) ++ [Nat.digitChar (value % 16)]

def ofHexField (digits : Text) : ℕ :=
  digits.foldl (fun value char => 16 * value + hexDigits.idxOf char) 0

def escapeChar (char : Char) : Text :=
  if char = '\\' then ['\\', '\\']
  else if char = '\t' then ['\\', 't']
  else if char = '\n' then ['\\', 'n']
  else if char = '\r' then ['\\', 'r']
  else if 32 ≤ char.toNat ∧ char.toNat < 127 then [char]
  else if char.toNat < 256 then '\\' :: 'x' :: hexField 2 char.toNat
  else if char.toNat < 65536 then '\\' :: 'u' :: hexField 4 char.toNat
  else '\\' :: 'U' :: hexField 8 char.toNat

/-- The character that stands behind a backslash, and how much of the text it
takes. -/
def unescapeAt : Text → Option (Char × ℕ)
  | '\\' :: _ => some ('\\', 1)
  | 't' :: _ => some ('\t', 1)
  | 'n' :: _ => some ('\n', 1)
  | 'r' :: _ => some ('\r', 1)
  | 'x' :: rest => some (Char.ofNat (ofHexField (rest.take 2)), 3)
  | 'u' :: rest => some (Char.ofNat (ofHexField (rest.take 4)), 5)
  | 'U' :: rest => some (Char.ofNat (ofHexField (rest.take 8)), 9)
  | _ => none

/-- The decoder, behind the part of an escape that is still to be left out. -/
def unescapeFrom : ℕ → Text → Text
  | _, [] => []
  | skip + 1, _ :: rest => unescapeFrom skip rest
  | 0, char :: rest =>
      if char = '\\' then
        match unescapeAt rest with
        | some (found, length) => found :: unescapeFrom length rest
        | none => char :: unescapeFrom 0 rest
      else char :: unescapeFrom 0 rest

section Fields

theorem length_hexField (width value : ℕ) : (hexField width value).length =
    width := by
  induction width generalizing value with
  | zero => rfl
  | succ width induction =>
      rw [hexField, List.length_append, induction, List.length_singleton]

theorem ofHexField_hexField {width value : ℕ} (fits : value < 16 ^ width) :
    ofHexField (hexField width value) = value := by
  induction width generalizing value with
  | zero =>
      rw [Nat.pow_zero] at fits
      rw [Nat.lt_one_iff.mp fits]
      rfl
  | succ width induction =>
      have higher : value / 16 < 16 ^ width := by
        rw [Nat.div_lt_iff_lt_mul (by decide), ← Nat.pow_succ]
        exact fits
      have before := induction higher
      rw [ofHexField] at before
      rw [ofHexField, hexField, List.foldl_append, before, List.foldl_cons,
        List.foldl_nil, idxOf_digitChar _ (Nat.mod_lt _ (by decide))]
      exact Nat.div_add_mod value 16

theorem take_hexField (width value : ℕ) (rest : Text) :
    (hexField width value ++ rest).take width = hexField width value := by
  have long := length_hexField width value
  rw [List.take_append_of_le_length long.ge, List.take_of_length_le long.le]

theorem unescapeFrom_skip (skipped rest : Text) :
    unescapeFrom skipped.length (skipped ++ rest) = unescapeFrom 0 rest := by
  induction skipped with
  | nil => rfl
  | cons char skipped induction => exact induction

theorem unescapeFrom_escape {found : Char} {length : ℕ} (skipped rest : Text)
    (isLength : skipped.length = length)
    (isFound : unescapeAt (skipped ++ rest) = some (found, length)) :
    unescapeFrom 0 ('\\' :: skipped ++ rest) =
      found :: unescapeFrom 0 rest := by
  rw [List.cons_append, unescapeFrom, if_pos rfl, isFound, ← isLength]
  exact congrArg _ (unescapeFrom_skip skipped rest)

theorem unescapeFrom_field {char mark : Char} {width : ℕ}
    (fits : char.toNat < 16 ^ width)
    (isFound : ∀ rest, unescapeAt (mark :: rest) =
      some (Char.ofNat (ofHexField (rest.take width)), width + 1)) (rest :
        Text) :
    unescapeFrom 0 ('\\' :: mark :: hexField width char.toNat ++ rest) =
      char :: unescapeFrom 0 rest := by
  apply unescapeFrom_escape (mark :: hexField width char.toNat) rest
  · rw [List.length_cons, length_hexField]
  · rw [List.cons_append, isFound, take_hexField, ofHexField_hexField fits,
      Char.ofNat_toNat]

theorem unescapeFrom_escapeChar (char : Char) (rest : Text) :
    unescapeFrom 0 (escapeChar char ++ rest) = char :: unescapeFrom 0 rest := by
  rw [escapeChar]
  split_ifs with isBackslash isTab isNewline isReturn isPrintable isByte isShort
  · rw [isBackslash]
    exact unescapeFrom_escape ['\\'] rest rfl rfl
  · rw [isTab]
    exact unescapeFrom_escape ['t'] rest rfl rfl
  · rw [isNewline]
    exact unescapeFrom_escape ['n'] rest rfl rfl
  · rw [isReturn]
    exact unescapeFrom_escape ['r'] rest rfl rfl
  · rw [List.singleton_append, unescapeFrom, if_neg isBackslash]
  · exact unescapeFrom_field isByte (fun _ => rfl) rest
  · exact unescapeFrom_field isShort (fun _ => rfl) rest
  · have valid : char.toNat < 16 ^ 8 := by
      have bound : char.toNat < 1114112 := by
        rcases char.valid with low | ⟨_, high⟩
        · exact low.trans (by decide)
        · exact high
      exact bound.trans (by decide)
    exact unescapeFrom_field valid (fun _ => rfl) rest

theorem isspace_hexField {width value : ℕ} {mark : Char}
    (member : mark ∈ hexField width value) : isspace mark = false := by
  induction width generalizing value with
  | zero => cases member
  | succ width induction =>
      rw [hexField] at member
      rcases List.mem_append.mp member with higher | isLast
      · exact induction higher
      · have digits : ∀ digit < 16, isspace (Nat.digitChar digit) = false := by
          decide
        rw [List.mem_singleton.mp isLast]
        exact digits _ (Nat.mod_lt _ (by decide))

theorem isspace_escapeChar {char : Char} (notSpace : char ≠ ' ') {mark : Char}
    (member : mark ∈ escapeChar char) : isspace mark = false := by
  have plain : ∀ {first second : Char}, isspace first = false →
      isspace second = false →
      mark ∈ [first, second] → isspace mark = false := by
    intro first second isFirst isSecond inPair
    rcases List.mem_cons.mp inPair with same | inRest
    · rwa [same]
    · rwa [List.mem_singleton.mp inRest]
  have field : ∀ {sort : Char} {width value : ℕ}, isspace sort = false →
      mark ∈ '\\' :: sort :: hexField width value → isspace mark = false := by
    intro sort width value isSort inField
    rcases List.mem_cons.mp inField with same | behind
    · rw [same]
      decide
    · rcases List.mem_cons.mp behind with same | inDigits
      · rwa [same]
      · exact isspace_hexField inDigits
  rw [escapeChar] at member
  split_ifs
    at member with isBackslash isTab isNewline isReturn isPrintable isByte
    isShort
  · exact plain (by decide) (by decide) member
  · exact plain (by decide) (by decide) member
  · exact plain (by decide) (by decide) member
  · exact plain (by decide) (by decide) member
  · rw [List.mem_singleton.mp member]
    have notCode : char.toNat ≠ 32 := by
      intro isCode
      exact notSpace (Char.toNat_inj.mp isCode)
    simp only [isspace, Bool.or_eq_false_iff, Bool.and_eq_false_iff,
      decide_eq_false_iff_not, beq_eq_false_iff_ne]
    omega
  · exact field (by decide) member
  · exact field (by decide) member
  · exact field (by decide) member

theorem unescapeFrom_flatMap (text : Text) :
    unescapeFrom 0 (text.flatMap escapeChar) = text := by
  induction text with
  | nil => rfl
  | cons char rest induction =>
      rw [List.flatMap_cons, unescapeFrom_escapeChar, induction]

theorem unblank_escapeChar (char : Char) (notSpace : char ≠ ' ') :
    ∀ mark ∈ escapeChar char, isspace mark = false :=
  fun _ member => isspace_escapeChar notSpace member

theorem escapeChar_space : escapeChar ' ' = [' '] := by
  decide

end Fields

/-- The codec of Python, on what its encoder writes. -/
def unicodeEscape : UnicodeEscape where
  escape := escapeChar
  decode := unescapeFrom 0
  decode_encode := unescapeFrom_flatMap
  space := escapeChar_space
  unblank := unblank_escapeChar

end Nvbmc.PackageData
