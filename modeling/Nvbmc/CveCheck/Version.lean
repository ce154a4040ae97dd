import Mathlib.Data.Char
import Mathlib.Data.List.Lex
import Mathlib.Data.Prod.Lex
import Nvbmc.Library.Rounding
import Nvbmc.Library.Text

/-!
# Versions of a product

A pattern cuts a version into its release, a patch and a pre-release.  Versions
are compared by a key of these three.
-/

namespace Nvbmc.CveCheck

open Library

/-- `str(suffix)`; `other` is every text but two. -/
inductive Suffix where
  | alphabetical
  | patch
  | other
deriving DecidableEq

/-- The lower case letter that a character is matched with.  Four characters
outside the alphabet are matched with letters of it. -/
def folded (char : Char) : Char :=
  if char = '\u0130' ∨ char = '\u0131' then 'i'
  else if char = '\u212a' then 'k'
  else if char = '\u017f' then 's'
  else char.toLower

/-- A character of `[-_\.]`. -/
def isMark (char : Char) : Bool :=
  char ∈ ['-', '_', '.']

/-- `[-_\.]?`. -/
def skipMark : Text → Text
  | char :: rest => if isMark char then rest else char :: rest
  | [] => []

def skipLetter (letter : Char) : Text → Text
  | char :: rest => if folded char = letter then rest else char :: rest
  | [] => []

def behind : Text → Text → Option Text
  | [], text => some text
  | letter :: word, char :: text =>
      if folded char = letter then behind word text else none
  | _ :: _, [] => none

/-- A text of `[0-9]+`. -/
structure Numeral where
  digits : Text
  nonempty : digits ≠ []
  areDigits : ∀ char ∈ digits, char.isDigit = true

theorem isDigit_of_mem_takeWhile (text : Text) :
    ∀ char ∈ text.takeWhile Char.isDigit, char.isDigit = true :=
  fun _ member => List.mem_takeWhile_imp member

/-- `[0-9]+`, if there is a digit. -/
def numeral (text : Text) : Option Numeral :=
  if nonempty : text.takeWhile Char.isDigit ≠ [] then
    some ⟨text.takeWhile Char.isDigit, nonempty, isDigit_of_mem_takeWhile text⟩
  else none

/-- `[0-9]+(?:[-\.][0-9]+)*` from a digit on, and what stands behind it. -/
def releaseGroup : Text → Text × Text
  | first :: second :: rest =>
      if first.isDigit then
        let after := releaseGroup (second :: rest)
        (first :: after.1, after.2)
      else if (first = '-' ∨ first = '.') ∧ second.isDigit then
        let after := releaseGroup rest
        (first :: second :: after.1, after.2)
      else ([], first :: second :: rest)
  | [last] => if last.isDigit then ([last], []) else ([], [last])
  | [] => ([], [])

def matchRelease (text : Text) : Option (Text × Text) :=
  let start := skipLetter 'v' (skipLetter 'r' (text.dropWhile isspace))
  if start.head?.any Char.isDigit then some (releaseGroup start) else none

/-- `patch_l` in the pattern of a suffix. -/
inductive Patch : Suffix → Type where
  | letter (char : Char) : Patch .alphabetical
  | number (value : Numeral) : Patch .patch

def Patch.text {suffix : Suffix} : Patch suffix → Text
  | letter char => [char]
  | number value => value.digits

/-- `(p|patch)(?P<patch_l>[0-9]+)`. -/
def patchNumber (text : Text) : Option (Numeral × Text) :=
  [['p'], ['p', 'a', 't', 'c', 'h']].findSome? fun word =>
    (behind word text).bind fun rest =>
      (numeral rest).map fun value => (value, rest.dropWhile Char.isDigit)

/-- The group `patch` and what stands behind it. -/
def patchGroup : (suffix : Suffix) → Text → Option (Patch suffix) × Text
  | .alphabetical, text =>
      match skipMark text with
      | char :: rest =>
          if (folded char).isLower then (some (.letter char), rest)
          else (none, text)
      | [] => (none, text)
  | .patch, text =>
      match patchNumber (skipMark text) with
      | some (value, rest) => (some (.number value), rest)
      | none => (none, text)
  | .other, text => (none, text)

inductive PreKind where
  | rc
  | alpha
  | beta
  | pre
  | preview
  | dev
deriving DecidableEq

def PreKind.text : PreKind → Text
  | rc => ['r', 'c']
  | alpha => ['a', 'l', 'p', 'h', 'a']
  | beta => ['b', 'e', 't', 'a']
  | pre => ['p', 'r', 'e']
  | preview => ['p', 'r', 'e', 'v', 'i', 'e', 'w']
  | dev => ['d', 'e', 'v']

/-- The alternatives of `pre_l`; the first that fits is taken. -/
def alternatives : List PreKind :=
  [.rc, .alpha, .beta, .pre, .preview, .dev]

/-- `pre_l` and `pre_v`. -/
structure Pre where
  kind : PreKind
  number : Option Numeral

/-- The group `pre` for some alternatives, and what stands behind it. -/
def preGroup (kinds : List PreKind) (text : Text) : Option (Pre × Text) :=
  kinds.findSome? fun kind => (behind kind.text (skipMark text)).map fun rest =>
    (⟨kind, numeral (skipMark rest)⟩, (skipMark rest).dropWhile Char.isDigit)

/-- `(.*)?\s*$`. -/
def ends (text : Text) : Bool :=
  (text.dropWhile (· ≠ '\n')).all isspace

/-- `int` of a text of digits. -/
def intOf (digits : Text) : ℕ :=
  digits.foldl (fun value char => 10 * value + (char.toNat - '0'.toNat)) 0

/-- `float` of a natural number, which is infinite where it has no finite one.
-/
def float (value : ℕ) : WithTop ℕ :=
  if roundBits 53 value < 2 ^ 1024 then (roundBits 53 value : ℕ) else ⊤

/-- `str.upper` of a character that is matched as a letter or a digit. -/
def upper (char : Char) : Char :=
  if char = '\u0131' then 'I' else if char = '\u017f' then 'S' else char.toUpper

/-- A float that is not negative, or the one below all. -/
abbrev Weight := WithBot (WithTop ℕ)

abbrev Key := List ℕ ×ₗ Text ×ₗ Weight

/-- `_cmpkey`. -/
def cmpkey (release : List ℕ) (patchL : Text) (preL : Option PreKind)
    (preV : Option Numeral) : Key :=
  let weight : Weight :=
    if preL = none ∧ preV.isNone then ((⊤ : WithTop ℕ) : Weight)
    else match preV with
      | some number => (float (intOf number.digits) : Weight)
      | none => ⊥
  toLex (release.rdropWhile (· = 0), toLex (patchL.map upper, weight))

inductive VersionError where
  | invalid (version : Text)

/-- The `_version` of an object. -/
structure Version where
  release : List ℕ
  patchL : Text
  preL : Option PreKind
  preV : Option Numeral

namespace Version

/-- The `_key` of an object. -/
def key (version : Version) : Key :=
  cmpkey version.release version.patchL version.preL version.preV

def fields (release : Text) : List ℕ :=
  ((release.map fun char => if char = '-' then '.' else char).splitOn '.').map
    intOf

/-- `__init__`. -/
def init (suffix : Suffix) (version : Text) : Except VersionError Version :=
  match matchRelease version with
  | some (release, after) =>
      let patch := patchGroup suffix after
      let pre := preGroup alternatives patch.2
      if ends ((pre.map Prod.snd).getD patch.2) then
        .ok ⟨fields release, (patch.1.map Patch.text).getD [],
          pre.map (·.1.kind), pre.bind (·.1.number)⟩
      else .error (.invalid version)
  | none => .error (.invalid version)

/-- `__eq__`. -/
def eq (version other : Version) : Bool :=
  version.key = other.key

/-- `__gt__`. -/
def gt (version other : Version) : Bool :=
  other.key < version.key

/-- `__lt__`, as `total_ordering` adds it. -/
def lt (version other : Version) : Bool :=
  !version.gt other && !version.eq other

end Version

end Nvbmc.CveCheck
