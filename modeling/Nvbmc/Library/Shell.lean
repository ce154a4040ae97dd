import Mathlib.Data.List.Infix
import Nvbmc.Library.Columns

/-!
# Texts in the shell

The words of a text, what the parameter expansions leave of it, command
substitutions and the numerals of arithmetic.
-/

namespace Nvbmc.Library

def shellWords (text : Text) : List Text :=
  (text.splitOnP fun char => char = ' ' || char = '\t' || char = '\n').filter
    (· ≠ [])

/-- The characters that end a word or that the shell expands or takes away. -/
def shellSpecial : List Char :=
  "|&;<>()$`\\\"' \t\n*?[".toList

/-- A text that the shell reads as the one word it is: no comment, no home
directory and no special character in it. -/
def isShellWord (text : Text) : Bool :=
  text.head?.any (· ∉ ['#', '~']) && text.all (· ∉ shellSpecial)

/-- A word that is no pattern of file names and no option of `echo`. -/
def isPlainWord (word : Text) : Bool :=
  word.head? ≠ some '-' && word.all (· ∉ ['*', '?', '[', '\\'])

/-- How the shell matches a pattern with the name of a file, which depends on
the locale and on options of the shell. -/
structure Globbing where
  takes : Text → Text → Bool
  /-- A star after characters that stand for themselves. -/
  takes_star : ∀ {before file : Text}, before ≠ [] → '/' ∉ file →
    (∀ char ∈ before, char ∉ "*?[]\\()".toList) →
      (takes (before ++ ['*']) file = true ↔ before <+: file)

/-- Nothing but a star at the end of a pattern is special. -/
def Globbing.literal : Globbing where
  takes pattern file :=
    if pattern.getLast? = some '*' then pattern.dropLast <+: file
    else pattern = file
  takes_star _ _ _ := by simp

/-- What `echo $text` prints.  What the shell makes of words that are not plain
is given. -/
def echoed (special : Text → Text) (text : Text) : Text :=
  let words := shellWords text
  if words.all isPlainWord then [' '].intercalate words else special text

/-- `${text/old/new}` -/
def replaceFirst (old new : Text) : Text → Text
  | [] => []
  | char :: rest =>
      if old <+: char :: rest then new ++ (char :: rest).drop old.length
      else char :: replaceFirst old new rest

/-- `${text#start}` -/
def removeStart (start text : Text) : Text :=
  if start <+: text then text.drop start.length else text

/-- `${text#*mark}` -/
def afterFirst (mark : Char) (text : Text) : Text :=
  if mark ∈ text then (text.dropWhile (· ≠ mark)).tail else text

/-- `${text%mark*}` -/
def beforeLast (mark : Char) (text : Text) : Text :=
  if mark ∈ text then (text.rdropWhile (· ≠ mark)).dropLast else text

def numeral (digits : Text) : ℕ :=
  Nat.ofDigitChars 10 digits 0

/-- `[0-9A-Fa-f]` -/
def isHexDigit (char : Char) : Bool :=
  ('0' ≤ char && char ≤ '9') || ('A' ≤ char && char ≤ 'F') ||
    ('a' ≤ char && char ≤ 'f')

def hexValue (char : Char) : ℕ :=
  if char ≤ '9' then char.toNat - '0'.toNat
  else if char ≤ 'F' then char.toNat - 'A'.toNat + 10
  else char.toNat - 'a'.toNat + 10

/-- What a numeral after `0x` stands for. -/
def hexadecimal (digits : Text) : ℕ :=
  digits.foldl (fun value digit => 16 * value + hexValue digit) 0

theorem isHexDigit_ne {char other : Char} (isHex : isHexDigit char)
    (notHex : isHexDigit other = false) : char ≠ other := by
  intro same
  rw [same, notHex] at isHex
  cases isHex

@[simp] theorem numeral_toDigits (value : ℕ) : numeral (Nat.toDigits 10 value) =
    value :=
  Nat.ofDigitChars_ten_toDigits

def substituted (output : Text) : Text :=
  (output.filter (· ≠ '\x00')).rdropWhile (· = '\n')

/-- A text that a command substitution leaves as it is. -/
structure Clean (text : Text) : Prop where
  noNull : '\x00' ∉ text
  last : ∀ nonempty : text ≠ [], text.getLast nonempty ≠ '\n'

theorem substituted_of_clean {text : Text} (clean : Clean text) :
    substituted text = text := by
  have noNull : text.filter (· ≠ '\x00') = text := by
    apply List.filter_eq_self.mpr
    intro char member
    simp only [ne_eq, decide_not, Bool.not_eq_true', decide_eq_false_iff_not]
    intro isNull
    exact clean.noNull (isNull ▸ member)
  rw [substituted, noNull]
  apply List.rdropWhile_eq_self_iff.mpr
  intro nonempty
  simpa using clean.last nonempty

theorem clean_substituted (output : Text) : Clean (substituted output) := by
  constructor
  · intro member
    have isPrefix :=
      List.rdropWhile_prefix (· = '\n') (output.filter (· ≠ '\x00'))
    have kept := (List.mem_filter.mp (isPrefix.mem member)).2
    exact absurd kept (by decide)
  · intro nonempty isNewline
    apply List.rdropWhile_last_not (· = '\n') (output.filter (· ≠ '\x00'))
      nonempty
    exact decide_eq_true isNewline

theorem clean_append_cons {front back : Text} {char : Char}
    (noNull : '\x00' ∉ front)
    (isChar : char ≠ '\x00') (clean : Clean back) (nonempty : back ≠ []) :
    Clean (front ++ char :: back) := by
  constructor
  · simp only [List.mem_append, List.mem_cons, not_or]
    exact ⟨noNull, Ne.symm isChar, clean.noNull⟩
  · intro _
    rw [List.getLast_append_of_ne_nil _ (List.cons_ne_nil _ _),
      List.getLast_cons nonempty]
    exact clean.last nonempty

theorem clean_toDigits (value : ℕ) : Clean (Nat.toDigits 10 value) := by
  constructor
  · exact not_mem_toDigits (by decide) _
  · intro nonempty isNewline
    have member := List.getLast_mem nonempty
    rw [isNewline] at member
    exact not_mem_toDigits (by decide) _ member

end Nvbmc.Library
