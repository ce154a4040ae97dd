import Nvbmc.Library.Text

/-!
# JSON messages and their texts

`dumps` is `json.dumps` with its defaults: only printable ASCII leaves it, the
items of a list are separated by a comma and a blank, and a key is separated
from its value by a colon and a blank.

A blank of such a text is either between two tokens or inside a string literal.
`Quoting` is the state of a reader that tells the two apart, and `compact`
drops the blanks between the tokens.
-/

namespace Nvbmc.AsyncRpc

open Nvbmc.Library

/-- A Python string: its code points. -/
abbrev PyStr := List ℕ

def codes (text : String) : PyStr :=
  text.toList.map Char.toNat

/-- A letter, a digit, a sign or a dot: what numbers are written with. -/
def isPlain (char : Char) : Bool :=
  let code := char.toNat
  (48 ≤ code && code ≤ 57) || (65 ≤ code && code ≤ 90) ||
    (97 ≤ code && code ≤ 122) || code == 43 || code == 45 || code == 46

/-- A float by its `repr`. -/
structure PyFloat where
  repr : Text
  ne_nil : repr ≠ []
  plain : ∀ char ∈ repr, isPlain char

def PyFloat.isZero (value : PyFloat) : Bool :=
  value.repr = "0.0".toList || value.repr = "-0.0".toList

/-- What `json` reads and writes. -/
inductive Json where
  | null
  | bool (value : Bool)
  | int (value : ℤ)
  | float (value : PyFloat)
  | str (value : PyStr)
  | list (items : List Json)
  | dict (items : List (PyStr × Json))

/-- `int.__repr__`. -/
def intRepr : ℤ → Text
  | .ofNat magnitude => Nat.toDigits 10 magnitude
  | .negSucc magnitude => '-' :: Nat.toDigits 10 (magnitude + 1)

/-- `"{0:04x}".format(code)` of a code below `0x10000`. -/
def hex4 (code : ℕ) : Text :=
  [code / 4096 % 16, code / 256 % 16, code / 16 % 16, code % 16].map
    Nat.digitChar

def unicodeEscape (code : ℕ) : Text :=
  '\\' :: 'u' :: hex4 code

/-- One character in `py_encode_basestring_ascii`. -/
def encodeChar (code : ℕ) : Text :=
  if code = 0x22 then ['\\', '"']
  else if code = 0x5c then ['\\', '\\']
  else if code = 0x0a then ['\\', 'n']
  else if code = 0x0d then ['\\', 'r']
  else if code = 0x09 then ['\\', 't']
  else if code = 0x0c then ['\\', 'f']
  else if code = 0x08 then ['\\', 'b']
  else if 0x20 ≤ code ∧ code ≤ 0x7e then [Char.ofNat code]
  else if code < 0x10000 then unicodeEscape code
  else
    -- a surrogate pair
    let rest := code - 0x10000
    unicodeEscape (0xd800 + rest / 1024 % 1024) ++
      unicodeEscape (0xdc00 + rest % 1024)

def encodeString (value : PyStr) : Text :=
  '"' :: (value.flatMap encodeChar ++ ['"'])

mutual

/-- `json.dumps`. -/
def dumps : Json → Text
  | .null => "null".toList
  | .bool true => "true".toList
  | .bool false => "false".toList
  | .int value => intRepr value
  | .float value => value.repr
  | .str value => encodeString value
  | .list [] => "[]".toList
  | .list (item :: items) => '[' :: (dumps item ++ dumpsItems items ++ [']'])
  | .dict [] => "\x7b\x7d".toList
  | .dict ((key, value) :: items) =>
      '\x7b' :: (encodeString key ++ ": ".toList ++ dumps value ++
        dumpsEntries items ++ ['\x7d'])

def dumpsItems : List Json → Text
  | [] => []
  | item :: items => ", ".toList ++ dumps item ++ dumpsItems items

def dumpsEntries : List (PyStr × Json) → Text
  | [] => []
  | (key, value) :: items =>
      ", ".toList ++ encodeString key ++ ": ".toList ++ dumps value ++
        dumpsEntries items

end

/-- Where a reader of a JSON text is: between or in a token, in a string
literal, or behind the backslash of one. -/
inductive Quoting where
  | outside
  | inside
  | escaped
  deriving DecidableEq

def Quoting.next : Quoting → Char → Quoting
  | .outside, char => if char = '"' then .inside else .outside
  | .inside, char =>
      if char = '"' then .outside
      else if char = '\\' then .escaped
      else .inside
  | .escaped, _ => .inside

/-- Where a reader is after a text. -/
def scan (quoting : Quoting) (text : Text) : Quoting :=
  text.foldl Quoting.next quoting

/-- The text without the blanks between its tokens. -/
def compact : Quoting → Text → Text
  | _, [] => []
  | quoting, char :: text =>
      if quoting = .outside ∧ isspace char then compact quoting text
      else char :: compact (quoting.next char) text

@[simp] theorem scan_nil (quoting : Quoting) : scan quoting [] = quoting := by
  simp [scan]

@[simp] theorem scan_cons (quoting : Quoting) (char : Char) (text : Text) :
    scan quoting (char :: text) = scan (quoting.next char) text := by
  simp [scan]

@[simp] theorem scan_append (quoting : Quoting) (first second : Text) :
    scan quoting (first ++ second) = scan (scan quoting first) second := by
  simp [scan]

variable {char : Char}

theorem not_quote_of_isspace (blank : isspace char) :
    char ≠ '"' ∧ char ≠ '\\' := by
  constructor
  · rintro rfl
    exact absurd blank (by decide)
  · rintro rfl
    exact absurd blank (by decide)

variable {quoting : Quoting}

theorem Quoting.next_of_isspace (blank : isspace char)
    (unescaped : quoting ≠ .escaped) : quoting.next char = quoting := by
  obtain ⟨notQuote, notBackslash⟩ := not_quote_of_isspace blank
  cases quoting with
  | outside => simp [Quoting.next, notQuote]
  | inside => simp [Quoting.next, notQuote, notBackslash]
  | escaped => exact absurd rfl unescaped

theorem compact_append (quoting : Quoting) (first second : Text) :
    compact quoting (first ++ second) =
      compact quoting first ++ compact (scan quoting first) second := by
  induction first generalizing quoting with
  | nil => simp [compact]
  | cons char text induction =>
      by_cases dropped : quoting = .outside ∧ isspace char
      · have stays : quoting.next char = quoting :=
          Quoting.next_of_isspace dropped.2 (by simp [dropped.1])
        simp only [List.cons_append, compact, if_pos dropped, scan_cons, stays]
        exact induction quoting
      · simp only [List.cons_append, compact, if_neg dropped, scan_cons]
        rw [induction]

/-- A text in which every character is printable ASCII and no blank stands
behind the backslash of a string literal. -/
def Tidy : Quoting → Text → Prop
  | _, [] => True
  | quoting, char :: text =>
      ((32 ≤ char.toNat ∧ char.toNat ≤ 126) ∧
        (isspace char → quoting ≠ .escaped)) ∧ Tidy (quoting.next char) text

instance instDecidableTidy : (quoting : Quoting) → (text : Text) →
    Decidable (Tidy quoting text)
  | _, [] => .isTrue trivial
  | quoting, char :: text =>
      have := instDecidableTidy (quoting.next char) text
      inferInstanceAs (Decidable (((32 ≤ char.toNat ∧ char.toNat ≤ 126) ∧
        (isspace char → quoting ≠ .escaped)) ∧ Tidy (quoting.next char) text))

variable {first second : Text}

theorem Tidy.append (left : Tidy quoting first)
    (right : Tidy (scan quoting first) second) :
    Tidy quoting (first ++ second) := by
  induction first generalizing quoting with
  | nil => exact right
  | cons char text induction => exact ⟨left.1, induction left.2 right⟩

theorem Tidy.left (tidy : Tidy quoting (first ++ second)) :
    Tidy quoting first := by
  induction first generalizing quoting with
  | nil => trivial
  | cons char text induction => exact ⟨tidy.1, induction tidy.2⟩

theorem Tidy.right (tidy : Tidy quoting (first ++ second)) :
    Tidy (scan quoting first) second := by
  induction first generalizing quoting with
  | nil => exact tidy
  | cons char text induction => exact induction tidy.2

variable {text : Text}

theorem Tidy.printable (tidy : Tidy quoting text) (member : char ∈ text) :
    32 ≤ char.toNat ∧ char.toNat ≤ 126 := by
  induction text generalizing quoting with
  | nil => simp at member
  | cons head text induction =>
      rcases List.mem_cons.mp member with isHead | later
      · exact isHead ▸ tidy.1.1
      · exact induction tidy.2 later

/-- A text that is read from between two tokens to between two tokens. -/
structure Token (text : Text) : Prop where
  tidy : Tidy .outside text
  closed : scan .outside text = .outside

theorem Token.append (left : Token first)
    (right : Token second) : Token (first ++ second) where
  tidy := left.tidy.append (left.closed.symm ▸ right.tidy)
  closed := by rw [scan_append, left.closed, right.closed]

theorem Token.cons (left : Token [char])
    (right : Token text) : Token (char :: text) :=
  left.append right

theorem isPlain_bounds (plain : isPlain char) :
    (32 < char.toNat ∧ char.toNat ≤ 126) ∧ char ≠ '"' := by
  constructor
  · simp [isPlain] at plain
    omega
  · rintro rfl
    exact absurd plain (by decide)

theorem not_isspace_of_isPlain (plain : isPlain char) : ¬ isspace char := by
  obtain ⟨bounds, _⟩ := isPlain_bounds plain
  simp [isspace]
  omega

theorem Token.of_isPlain (plain : ∀ char ∈ text, isPlain char) :
    Token text := by
  induction text with
  | nil => exact ⟨trivial, rfl⟩
  | cons char text induction =>
      obtain ⟨bounds, notQuote⟩ := isPlain_bounds (plain char (by simp))
      refine Token.cons ⟨?_, by simp [Quoting.next, notQuote]⟩
        (induction fun later member => plain later (by simp [member]))
      exact ⟨⟨⟨bounds.1.le, bounds.2⟩, by simp⟩, trivial⟩

theorem isPlain_of_mem_toDigits {magnitude : ℕ}
    (member : char ∈ Nat.toDigits 10 magnitude) : isPlain char := by
  have digit := Nat.isDigit_of_mem_toDigits (by decide) (by decide) member
  obtain ⟨lower, upper⟩ := Char.isDigit_iff_toNat.mp digit
  have range : 48 ≤ char.toNat ∧ char.toNat ≤ 57 := ⟨lower, upper⟩
  simp [isPlain, range]

theorem isPlain_of_mem_intRepr {value : ℤ}
    (member : char ∈ intRepr value) : isPlain char := by
  cases value with
  | ofNat magnitude => exact isPlain_of_mem_toDigits member
  | negSucc magnitude =>
      rcases List.mem_cons.mp member with sign | digit
      · exact sign ▸ by decide
      · exact isPlain_of_mem_toDigits digit

/-- What one character of a string becomes is read inside the literal and
leaves the reader there. -/
structure Literal (text : Text) : Prop where
  tidy : Tidy .inside text
  open_ : scan .inside text = .inside

theorem Literal.append (left : Literal first)
    (right : Literal second) : Literal (first ++ second) where
  tidy := left.tidy.append (left.open_.symm ▸ right.tidy)
  open_ := by rw [scan_append, left.open_, right.open_]

theorem Literal.cons_plain (plain : isPlain char)
    (rest : Literal text) : Literal (char :: text) := by
  obtain ⟨bounds, notQuote⟩ := isPlain_bounds plain
  have notBackslash : char ≠ '\\' := by
    rintro rfl
    exact absurd plain (by decide)
  have stays : Quoting.next .inside char = .inside := by
    simp [Quoting.next, notQuote, notBackslash]
  constructor
  · refine ⟨⟨⟨bounds.1.le, bounds.2⟩, by simp⟩, ?_⟩
    rw [stays]
    exact rest.tidy
  · rw [scan_cons, stays]
    exact rest.open_

theorem Literal.of_isPlain (plain : ∀ char ∈ text, isPlain char) :
    Literal text := by
  induction text with
  | nil => exact ⟨trivial, rfl⟩
  | cons char text induction =>
      apply Literal.cons_plain (plain char (by simp))
      exact induction fun later member => plain later (by simp [member])

theorem isPlain_digitChar : ∀ nibble < 16, isPlain (Nat.digitChar nibble) := by
  decide

theorem literal_unicodeEscape (code : ℕ) : Literal (unicodeEscape code) := by
  have digits : Literal (hex4 code) := by
    apply Literal.of_isPlain
    intro char member
    obtain ⟨nibble, among, rfl⟩ := List.mem_map.mp member
    apply isPlain_digitChar
    simp only [List.mem_cons, List.not_mem_nil, or_false] at among
    omega
  have lead : Literal ['\\', 'u'] := ⟨by decide, by decide⟩
  exact lead.append digits

/-- A printable character that is neither a quote nor a backslash stands for
itself. -/
theorem literal_printable {code : ℕ} (printable : 0x20 ≤ code ∧ code ≤ 0x7e)
    (notQuote : code ≠ 0x22) (notBackslash : code ≠ 0x5c) :
    Literal [Char.ofNat code] := by
  have all : ∀ code < 0x7f, 0x20 ≤ code → code ≠ 0x22 → code ≠ 0x5c →
      Tidy .inside [Char.ofNat code] ∧
        scan .inside [Char.ofNat code] = .inside := by decide
  obtain ⟨tidy, opened⟩ := all code (by omega) printable.1 notQuote notBackslash
  exact ⟨tidy, opened⟩

theorem literal_encodeChar (code : ℕ) : Literal (encodeChar code) := by
  rw [encodeChar]
  split_ifs with quote backslash newline carriage tab feed back printable small
  · exact ⟨by decide, by decide⟩
  · exact ⟨by decide, by decide⟩
  · exact ⟨by decide, by decide⟩
  · exact ⟨by decide, by decide⟩
  · exact ⟨by decide, by decide⟩
  · exact ⟨by decide, by decide⟩
  · exact ⟨by decide, by decide⟩
  · exact literal_printable printable quote backslash
  · exact literal_unicodeEscape code
  · exact (literal_unicodeEscape _).append (literal_unicodeEscape _)

theorem literal_flatMap_encodeChar (value : PyStr) :
    Literal (value.flatMap encodeChar) := by
  induction value with
  | nil => exact ⟨trivial, rfl⟩
  | cons code value induction =>
      rw [List.flatMap_cons]
      exact (literal_encodeChar code).append induction

theorem token_encodeString (value : PyStr) : Token (encodeString value) := by
  have body := literal_flatMap_encodeChar value
  have opening : Tidy .outside ['"'] := by decide
  have closing : Tidy .inside ['"'] := by decide
  have inner : Tidy .inside (value.flatMap encodeChar ++ ['"']) := by
    apply body.tidy.append
    rw [body.open_]
    exact closing
  constructor
  · exact opening.append inner
  · rw [encodeString, scan_cons, scan_append]
    have opened : Quoting.next .outside '"' = .inside := by decide
    rw [opened, body.open_]
    decide

mutual

theorem token_dumps : (message : Json) → Token (dumps message)
  | .null => ⟨by decide, by decide⟩
  | .bool true => ⟨by decide, by decide⟩
  | .bool false => ⟨by decide, by decide⟩
  | .int _ => .of_isPlain fun _ => isPlain_of_mem_intRepr
  | .float value => .of_isPlain value.plain
  | .str value => token_encodeString value
  | .list [] => ⟨by decide, by decide⟩
  | .list (item :: items) => by
      rw [dumps]
      apply Token.cons ⟨by decide, by decide⟩
      apply ((token_dumps item).append (token_dumpsItems items)).append
      exact ⟨by decide, by decide⟩
  | .dict [] => ⟨by decide, by decide⟩
  | .dict ((key, value) :: items) => by
      have colon : Token ": ".toList := ⟨by decide, by decide⟩
      rw [dumps]
      apply Token.cons ⟨by decide, by decide⟩
      apply Token.append
      · apply Token.append _ (token_dumpsEntries items)
        exact ((token_encodeString key).append colon).append (token_dumps value)
      · exact ⟨by decide, by decide⟩

theorem token_dumpsItems : (items : List Json) → Token (dumpsItems items)
  | [] => ⟨trivial, by simp [dumpsItems]⟩
  | item :: items => by
      have comma : Token ", ".toList := ⟨by decide, by decide⟩
      rw [dumpsItems]
      exact (comma.append (token_dumps item)).append (token_dumpsItems items)

theorem token_dumpsEntries :
    (items : List (PyStr × Json)) → Token (dumpsEntries items)
  | [] => ⟨trivial, by simp [dumpsEntries]⟩
  | (key, value) :: items => by
      have comma : Token ", ".toList := ⟨by decide, by decide⟩
      have colon : Token ": ".toList := ⟨by decide, by decide⟩
      rw [dumpsEntries]
      apply Token.append _ (token_dumpsEntries items)
      apply Token.append _ (token_dumps value)
      exact (comma.append (token_encodeString key)).append colon

end

theorem dumps_ends (message : Json) :
    ∃ body last, dumps message = body ++ [last] ∧ ¬ isspace last := by
  have ofPlain : ∀ {text : Text}, text ≠ [] →
      (∀ char ∈ text, isPlain char) →
      ∃ body last, text = body ++ [last] ∧ ¬ isspace last := by
    intro text nonempty plain
    refine ⟨text.dropLast, text.getLast nonempty,
      (List.dropLast_append_getLast nonempty).symm, ?_⟩
    exact not_isspace_of_isPlain (plain _ (List.getLast_mem nonempty))
  cases message with
  | null => exact ⟨"nul".toList, 'l', by decide, by decide⟩
  | bool value =>
      cases value with
      | false => exact ⟨"fals".toList, 'e', by decide, by decide⟩
      | true => exact ⟨"tru".toList, 'e', by decide, by decide⟩
  | int value =>
      apply ofPlain _ fun _ => isPlain_of_mem_intRepr
      cases value with
      | ofNat magnitude => exact Nat.toDigits_ne_nil
      | negSucc magnitude => simp [intRepr]
  | float value => exact ofPlain value.ne_nil value.plain
  | str value =>
      exact ⟨'"' :: value.flatMap encodeChar,
        '"', by simp [dumps, encodeString], by decide⟩
  | list items =>
      cases items with
      | nil => exact ⟨['['], ']', by decide, by decide⟩
      | cons item items =>
          exact ⟨'[' :: (dumps item ++ dumpsItems items), ']', by simp [dumps],
            by decide⟩
  | dict items =>
      cases items with
      | nil => exact ⟨['\x7b'], '\x7d', by decide, by decide⟩
      | cons entry items =>
          obtain ⟨key, value⟩ := entry
          exact ⟨_, '\x7d', by rw [dumps, ← List.cons_append], by decide⟩

end Nvbmc.AsyncRpc
