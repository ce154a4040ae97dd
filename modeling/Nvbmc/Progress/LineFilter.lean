import Nvbmc.Library.Split
import Nvbmc.Library.Text

/-!
# The line filter

`LineFilterProgressHandler` collects what is written in a buffer and takes lines
from it, as long as it finds an end of a line there.
-/

namespace Nvbmc.Progress

open Library

/-- `ANSI_ESCAPE_REGEX`: the length of the sequence that the text begins with.
-/
def escapeLength : Text → Option ℕ
  | '\x1b' :: '[' :: rest =>
      let params := (rest.takeWhile fun char => '0' ≤ char ∧ char ≤ '?').length
      let inter :=
        ((rest.drop params).takeWhile fun char => ' ' ≤ char ∧
          char ≤ '/').length
      match rest.drop (params + inter) with
      | last :: _ =>
          if '@' ≤ last ∧ last ≤ '~' then some (params + inter + 3) else none
      | [] => none
  | _ => none

/-- `filter_color`, behind the characters of a sequence that are still to be
left out. -/
def filterColorFrom : ℕ → Text → Text
  | _, [] => []
  | skip + 1, _ :: rest => filterColorFrom skip rest
  | 0, char :: rest =>
      match escapeLength (char :: rest) with
      | some length => filterColorFrom (length - 1) rest
      | none => char :: filterColorFrom 0 rest

/-- `filter_color`. -/
def filterColor (text : Text) : Text :=
  filterColorFrom 0 text

/-- What the buffer has up to the first line feed, or else up to the first
carriage return, and what is left of it. -/
def nextLine (linebuffer : Text) : Option (Text × Text) :=
  match splitOnce '\n' linebuffer with
  | some (line, rest) => some (line ++ ['\n'], rest)
  | none =>
      (splitOnce '\r' linebuffer).map fun parts => (parts.1 ++ ['\r'], parts.2)

/-- The line without what stands in front of its last carriage return, unless it
ends there. -/
def shown (line : Text) : Text :=
  match rsplitOnce '\r' line with
  | some (_, rest) => if rest = [] then line else rest
  | none => line

theorem length_nextLine {linebuffer line rest : Text}
    (found : nextLine linebuffer = some (line, rest)) :
    rest.length < linebuffer.length := by
  have shorter : ∀ {separator : Char} {before after : Text},
      splitOnce separator linebuffer = some (before, after) →
      after.length < linebuffer.length := by
    intro separator before after isSplit
    rw [(splitOnce_eq_some.mp isSplit).1, List.length_append, List.length_cons]
    omega
  rw [nextLine] at found
  split at found
  · rename_i before after isSplit
    cases found
    exact shorter isSplit
  · obtain ⟨parts, isSplit, same⟩ := Option.map_eq_some_iff.mp found
    cases same
    exact shorter isSplit

structure Handler where
  linebuffer : Text
  /-- What `writeline` was asked for. -/
  lines : List Text
  /-- What was written to the file. -/
  outfile : List Text

namespace Handler

def start : Handler :=
  ⟨[], [], []⟩

/-- One line of the loop. -/
def pass (writeline : Text → Bool) (handler : Handler) (line rest : Text) :
    Handler where
  linebuffer := rest
  lines := handler.lines ++ [filterColor (shown line)]
  outfile :=
    if writeline (filterColor (shown line)) then handler.outfile ++ [shown line]
    else handler.outfile

def loop (writeline : Text → Bool) (handler : Handler) : Handler :=
  match _found : nextLine handler.linebuffer with
  | none => handler
  | some (line, rest) => loop writeline (handler.pass writeline line rest)
termination_by handler.linebuffer.length
decreasing_by exact length_nextLine _found

/-- `write`. -/
def write (writeline : Text → Bool) (handler : Handler) (string : Text) :
    Handler :=
  loop writeline { handler with linebuffer := handler.linebuffer ++ string }

end Handler

def filtered (writeline : Text → Bool) (strings : List Text) : Handler :=
  strings.foldl (Handler.write writeline) Handler.start

/-- The lines that are taken from the buffer, and what is left of it. -/
def cutLines (linebuffer : Text) : List Text × Text :=
  match _found : nextLine linebuffer with
  | none => ([], linebuffer)
  | some (line, rest) => (shown line :: (cutLines rest).1, (cutLines rest).2)
termination_by linebuffer.length
decreasing_by exact length_nextLine _found

section Cut

variable {front rest text : Text}

theorem cutLines_of_some {linebuffer line : Text}
    (found : nextLine linebuffer = some (line, rest)) :
    cutLines linebuffer =
      (shown line :: (cutLines rest).1, (cutLines rest).2) := by
  rw [cutLines]
  split
  · rename_i none
    rw [none] at found
    cases found
  · rename_i other isFound
    rw [found] at isFound
    cases isFound
    rfl

theorem cutLines_of_none {linebuffer : Text}
    (none : nextLine linebuffer = none) :
    cutLines linebuffer = ([], linebuffer) := by
  rw [cutLines]
  split
  · rfl
  · rename_i found
    rw [none] at found
    cases found

theorem cutLines_feed (noFeed : '\n' ∉ front) (rest : Text) :
    cutLines (front ++ '\n' :: rest) =
      (shown (front ++ ['\n']) :: (cutLines rest).1, (cutLines rest).2) := by
  apply cutLines_of_some
  rw [nextLine, splitOnce_eq_some.mpr ⟨rfl, noFeed⟩]

theorem cutLines_return (noReturn : '\r' ∉ front)
    (noFeed : '\n' ∉ front ++ '\r' :: rest) : cutLines (front ++ '\r' :: rest) =
      ((front ++ ['\r']) :: (cutLines rest).1, (cutLines rest).2) := by
  have found : nextLine (front ++ '\r' :: rest) =
      some (front ++ ['\r'], rest) := by
    rw [nextLine, splitOnce_eq_none.mpr noFeed,
      splitOnce_eq_some.mpr ⟨rfl, noReturn⟩]
    rfl
  have whole : shown (front ++ ['\r']) = front ++ ['\r'] := by
    rw [shown, rsplitOnce_eq_some.mpr ⟨rfl, List.not_mem_nil⟩]
    rfl
  rw [cutLines_of_some found, whole]

theorem cutLines_open (noFeed : '\n' ∉ text) (noReturn : '\r' ∉ text) :
    cutLines text = ([], text) := by
  apply cutLines_of_none
  rw [nextLine, splitOnce_eq_none.mpr noFeed, splitOnce_eq_none.mpr noReturn]
  rfl

theorem shown_of_not_mem (noReturn : '\r' ∉ front) :
    shown (front ++ ['\n']) = front ++ ['\n'] := by
  have absent : '\r' ∉ front ++ ['\n'] := by simp [noReturn]
  rw [shown, rsplitOnce_eq_none.mpr absent]

theorem shown_of_return (front : Text) (noReturn : '\r' ∉ rest) :
    shown (front ++ '\r' :: rest ++ ['\n']) = rest ++ ['\n'] := by
  have isSplit : rsplitOnce '\r' (front ++ '\r' :: rest ++ ['\n']) =
      some (front, rest ++ ['\n']) := by
    apply rsplitOnce_eq_some.mpr
    constructor
    · rw [List.append_assoc, List.cons_append]
    · simp [noReturn]
  have nonempty : rest ++ ['\n'] ≠ [] := by simp
  rw [shown, isSplit]
  exact if_neg nonempty

theorem cutLines_rest (text : Text) :
    '\n' ∉ (cutLines text).2 ∧ '\r' ∉ (cutLines text).2 := by
  induction text using split_induction '\n' with
  | last text noFeed =>
      induction text using split_induction '\r' with
      | last text noReturn =>
          rw [cutLines_open noFeed noReturn]
          exact ⟨noFeed, noReturn⟩
      | next front rest noReturn induction =>
          rw [cutLines_return noReturn noFeed]
          exact induction fun member => noFeed (by simp [member])
  | next front rest noFeed induction =>
      rw [cutLines_feed noFeed]
      exact induction

end Cut

theorem loop_eq (writeline : Text → Bool) (handler : Handler) :
    handler.loop writeline =
      { linebuffer := (cutLines handler.linebuffer).2
        lines := handler.lines ++
          (cutLines handler.linebuffer).1.map filterColor
        outfile := handler.outfile ++
          (cutLines handler.linebuffer).1.filter fun line =>
            writeline (filterColor line) } := by
  induction handler using Handler.loop.induct writeline with
  | case1 handler none =>
      rw [Handler.loop]
      split
      · rw [cutLines_of_none none]
        simp
      · rename_i found
        rw [none] at found
        cases found
  | case2 handler line rest found induction =>
      rw [Handler.loop]
      split
      · rename_i none
        rw [none] at found
        cases found
      · rename_i other after isFound
        rw [found] at isFound
        cases isFound
        rw [induction, cutLines_of_some found]
        simp only [Handler.pass, List.map_cons, List.append_assoc,
          List.singleton_append, List.filter_cons]
        split_ifs
        · simp
        · rfl

end Nvbmc.Progress
