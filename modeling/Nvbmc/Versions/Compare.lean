import Mathlib.Data.Char
import Mathlib.Data.List.Lex
import Mathlib.Data.Prod.Lex
import Nvbmc.Library.Numerals
import Nvbmc.Library.Split

/-!
# Comparing versions

A version text is split into an epoch, a version and a revision.  The latter two
are exploded into pieces, which are numbers, letters, tildes and other
characters, and are compared piece by piece with an end marker that stands
between the kinds.
-/

namespace Nvbmc.Versions

open Library

/-- The tuples of `explode_version`. -/
inductive Piece where
  /-- `(-1, "~")`. -/
  | tilde
  /-- `(0, value)`. -/
  | number (value : ℕ)
  /-- `(1, text)`. -/
  | letters (text : Text)
  /-- `(2, char)`. -/
  | other (char : Char)
deriving DecidableEq

/-- `\d`. -/
def isDecimal (char : Char) : Bool :=
  (digit? char).isSome

/-- `int` of a run of digits. -/
def runValue (value : ℕ) (run : Text) : ℕ :=
  run.foldl (fun value char => 10 * value + (digit? char).getD 0) value

/-- `(.*)$`: all that is left, or all but a newline at the end. -/
def restOfLine (text : Text) : Option Text :=
  if '\n' ∉ text then some text
  else if text.getLast? = some '\n' ∧ '\n' ∉ text.dropLast then
    some text.dropLast
  else none

/-- The loop of `explode_version`; each round takes a character at least. -/
def explodeLoop : ℕ → Text → Option (List Piece)
  | _, [] => some []
  | 0, _ :: _ => none
  | fuel + 1, char :: rest =>
      if char.isDigit then do
        let after ← restOfLine (rest.dropWhile isDecimal)
        let pieces ← explodeLoop fuel after
        pure (.number (runValue 0 (char :: rest.takeWhile isDecimal)) :: pieces)
      else if char.isAlpha then do
        let after ← restOfLine (rest.dropWhile Char.isAlpha)
        let pieces ← explodeLoop fuel after
        pure (.letters (char :: rest.takeWhile Char.isAlpha) :: pieces)
      else do
        let pieces ← explodeLoop fuel rest
        pure ((if char = '~' then .tilde else .other char) :: pieces)

/-- `explode_version`. -/
def explodeVersion (text : Text) : Option (List Piece) :=
  explodeLoop text.length text

def Piece.order : Piece → ℤ
  | tilde => -1
  | number _ => 0
  | letters _ => 1
  | other _ => 2

/-- `ca < cb`, for pieces of one order. -/
def Piece.contentLt : Piece → Piece → Bool
  | number first, number second => first < second
  | letters first, letters second => first < second
  | other first, other second => first < second
  | _, _ => false

/-- The loop of `vercmp_part`; the end of a list counts as `(0, None)`. -/
def vercmpPieces : List Piece → List Piece → ℤ
  | [], [] => 0
  | [], second :: _ =>
      if 0 < second.order then -1 else if second.order < 0 then 1 else -1
  | first :: _, [] =>
      if first.order < 0 then -1 else if 0 < first.order then 1 else 1
  | first :: firsts, second :: seconds =>
      if first.order < second.order then -1
      else if second.order < first.order then 1
      else if first.contentLt second then -1
      else if second.contentLt first then 1
      else vercmpPieces firsts seconds

/-- `vercmp_part`. -/
def vercmpPart (first second : Text) : Option ℤ := do
  let firsts ← explodeVersion first
  let seconds ← explodeVersion second
  pure (vercmpPieces firsts seconds)

structure Version where
  pe : ℤ
  pv : Text
  pr : Text

/-- `vercmp`; a later part is looked at when the earlier ones are equal. -/
def vercmp (first second : Version) : Option ℤ :=
  let r := first.pe - second.pe
  if r = 0 then do
    let r ← vercmpPart first.pv second.pv
    if r = 0 then vercmpPart first.pr second.pr else pure r
  else some r

/-- The characters of `s.strip(" <>=")`. -/
def isStripped (char : Char) : Bool :=
  char ∈ [' ', '<', '>', '=']

/-- `s.strip(" <>=")`. -/
def strip (text : Text) : Text :=
  (text.dropWhile isStripped).rdropWhile isStripped

/-- The version and the revision of a text without an epoch. -/
def splitRevision (pe : ℤ) (text : Text) : Version :=
  match rsplitOnce '-' text with
  | some (pv, pr) => ⟨pe, pv, pr⟩
  | none => ⟨pe, text, []⟩

/-- `split_version`.  The epoch ends at the first colon, and what stands behind
a second one is left out. -/
def splitVersion (text : Text) : Option Version :=
  match splitOnce ':' (strip text) with
  | some (epoch, rest) => do
      let pe ← int? epoch
      pure (splitRevision pe (rest.takeWhile (· ≠ ':')))
  | none => some (splitRevision 0 (strip text))

/-- `vercmp_string`. -/
def vercmpString (first second : Text) : Option ℤ := do
  let first ← splitVersion first
  let second ← splitVersion second
  vercmp first second

end Nvbmc.Versions
