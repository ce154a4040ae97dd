import Nvbmc.Library.Strip

/-!
# The two line readers

`ConfHandler.handle` joins the lines of an expression by reading ahead and looks
at the end of the joined text; `BBHandler.feeder` keeps what is not complete and
looks at the end of each line.  Both pass the joined lines to the feeder of
`ConfHandler`, which is a parameter here.
-/

namespace Nvbmc.Parse

open Nvbmc.Library

/-- The newlines of a file that is read as text. -/
def universalNewlines : Text → Text
  | [] => []
  | '\r' :: '\n' :: rest => '\n' :: universalNewlines rest
  | '\r' :: rest => '\n' :: universalNewlines rest
  | char :: rest => char :: universalNewlines rest

/-- What `readline` returns one after the other. -/
def readlines (text : Text) : List Text :=
  let pieces := (universalNewlines text).splitOn '\n'
  let whole := pieces.dropLast.map (· ++ ['\n'])
  if pieces.getLastD [] = [] then whole else whole ++ [pieces.getLastD []]

theorem universalNewlines_append {front rest : Text} (absent : '\r' ∉ front) :
    universalNewlines (front ++ rest) = front ++ universalNewlines rest := by
  induction front with
  | nil => rfl
  | cons char front induction =>
      have notChar : char ≠ '\r' :=
        fun same => absurd (same ▸ List.mem_cons_self) absent
      have notFront : '\r' ∉ front := fun member => absent (.tail _ member)
      rw [List.cons_append, universalNewlines, induction notFront,
        List.cons_append]
      · intro _ same
        exact absurd same notChar
      · intro same
        exact absurd same notChar

theorem readlines_append {line rest : Text} (newline : '\n' ∉ line)
    (carriage : '\r' ∉ line) :
    readlines (line ++ '\n' :: rest) = (line ++ ['\n']) :: readlines rest := by
  have isRest : universalNewlines ('\n' :: rest) =
      '\n' :: universalNewlines rest := by
    rw [universalNewlines] <;> simp
  have pieces : (universalNewlines (line ++ '\n' :: rest)).splitOn '\n' =
      line :: (universalNewlines rest).splitOn '\n' := by
    rw [universalNewlines_append carriage, isRest]
    exact List.splitOn_append_cons_self_of_not_mem newline _
  have some := List.splitOn_ne_nil '\n' (universalNewlines rest)
  obtain ⟨piece, others, isCons⟩ := List.exists_cons_of_ne_nil some
  rw [readlines, readlines, pieces, isCons]
  simp only [List.dropLast_cons_cons, List.map_cons, List.getLastD_cons]
  split_ifs <;> simp

theorem readlines_flatten {lines : List Text}
    (clean : ∀ line ∈ lines, '\n' ∉ line ∧ '\r' ∉ line) :
    readlines (lines.map (· ++ ['\n'])).flatten = lines.map (· ++ ['\n']) := by
  induction lines with
  | nil => rfl
  | cons line lines induction =>
      have first := clean line List.mem_cons_self
      have others := induction fun other member => clean other (.tail _ member)
      rw [List.map_cons, List.flatten_cons, List.append_assoc,
        List.singleton_append, readlines_append first.1 first.2, others]

inductive HandleError (ε : Type) where
  /-- A `ParseError` of the feeder. -/
  | parse (error : ε)
  /-- "There is a confusing multiline, partially commented expression starting
  on line %s of file %s:\n%s\nPlease clarify whether this is all a comment or
  should be parsed." -/
  | confusing (origlineno : ℕ) (origline : Text)
  /-- `IndexError`. -/
  | indexError

/-- An expression, with the lines after it and the number of its last line. -/
structure Joined where
  s : Text
  rest : List Text
  lineno : ℕ

variable {ε : Type}

/-- `while s[-1] == '\\'`; at the end of the file the next line is empty. -/
def join (origlineno : ℕ) (origline s : Text) (rest : List Text) (lineno : ℕ) :
    Except (HandleError ε) Joined :=
  if s = [] then .error .indexError
  else if s.getLast? ≠ some '\\' then .ok ⟨s, rest, lineno⟩
  else
    let line := rest.headD []
    let s2 := rstrip line
    if s2.head? ≠ some '#' ∧ s.head? = some '#' then
      .error (.confusing origlineno (origline ++ line))
    else join origlineno (origline ++ line) (s.dropLast ++ s2) rest.tail
      (lineno + 1)
termination_by (rest.length, s.length)
decreasing_by
  rename_i nonempty _ _
  have positive : 0 < s.length := List.length_pos_iff.mpr nonempty
  cases rest with
  | nil =>
      apply Prod.Lex.right
      simp [rstrip]
      omega
  | cons line rest =>
      apply Prod.Lex.left
      simp

section Join

variable {origlineno lineno : ℕ} {origline s : Text} {rest : List Text}

theorem join_nil : join (ε := ε) origlineno origline [] rest lineno =
    .error .indexError := by
  rw [join, if_pos rfl]

theorem join_of_getLast? (nonempty : s ≠ [])
    (complete : s.getLast? ≠ some '\\') :
    join (ε := ε) origlineno origline s rest lineno =
      .ok ⟨s, rest, lineno⟩ := by
  rw [join, if_neg nonempty, if_pos complete]

theorem join_append_backslash (s : Text) :
    join (ε := ε) origlineno origline (s ++ ['\\']) rest lineno =
      if (rstrip (rest.headD [])).head? ≠ some '#' ∧
        (s ++ ['\\']).head? = some '#' then
        .error (.confusing origlineno (origline ++ rest.headD []))
      else join origlineno (origline ++ rest.headD [])
        (s ++ rstrip (rest.headD [])) rest.tail (lineno + 1) := by
  rw [join, if_neg (by simp), if_neg (by simp), List.dropLast_concat]

end Join

theorem join_spec {origlineno lineno : ℕ} {origline s : Text} {rest : List Text}
    {joined : Joined}
    (joins : join (ε := ε) origlineno origline s rest lineno = .ok joined) :
    joined.s ≠ [] ∧ joined.s.getLast? ≠ some '\\' ∧
      joined.rest.length ≤ rest.length := by
  induction origline, s, rest, lineno using join.induct with
  | case1 origline rest lineno =>
      rw [join_nil] at joins
      cases joins
  | case2 origline s rest lineno nonempty complete =>
      rw [join_of_getLast? nonempty complete] at joins
      cases joins
      exact ⟨nonempty, complete, le_rfl⟩
  | case3 origline s rest lineno nonempty incomplete line s2 confusing =>
      rw [join, if_neg nonempty, if_neg incomplete, if_pos confusing] at joins
      cases joins
  | case4 origline s rest lineno nonempty incomplete line s2 clear induction =>
      rw [join, if_neg nonempty, if_neg incomplete, if_neg clear] at joins
      obtain ⟨some, complete, shorter⟩ := induction joins
      refine ⟨some, complete, shorter.trans ?_⟩
      rw [List.length_tail]
      exact Nat.sub_le _ _

/-- The loop of `ConfHandler.handle`: the lines that were passed to the feeder,
with their numbers. -/
def confHandle (feeder : ℕ → Text → Except ε Unit) (lineno : ℕ)
    (passed : List (ℕ × Text)) :
    List Text → Except (HandleError ε) (List (ℕ × Text))
  | [] => .ok passed
  | line :: rest =>
      if strip line = [] then confHandle feeder (lineno + 1) passed rest
      else
        match _joins : join (lineno + 1) line (rstrip line) rest
          (lineno + 1) with
        | .error error => .error error
        | .ok joined =>
            if joined.s.head? = some '#' then
              confHandle feeder joined.lineno passed joined.rest
            else
              match feeder joined.lineno joined.s with
              | .error error => .error (.parse error)
              | .ok _ =>
                  confHandle feeder joined.lineno
                    (passed ++ [(joined.lineno, joined.s)]) joined.rest
termination_by lines => lines.length
decreasing_by
  · simp
  · have shorter := (join_spec _joins).2.2
    simp only [List.length_cons]
    omega
  · have shorter := (join_spec _joins).2.2
    simp only [List.length_cons]
    omega

section Handle

variable {feeder : ℕ → Text → Except ε Unit} {lineno : ℕ}
  {passed : List (ℕ × Text)} {line : Text} {rest : List Text} {joined : Joined}

theorem confHandle_blank (isBlank : strip line = []) :
    confHandle feeder lineno passed (line :: rest) =
      confHandle feeder (lineno + 1) passed rest := by
  rw [confHandle, if_pos isBlank]

variable (nonblank : strip line ≠ [])
include nonblank

theorem confHandle_error {error : HandleError ε}
    (failed : join (lineno + 1) line (rstrip line) rest (lineno + 1) =
      .error error) :
    confHandle feeder lineno passed (line :: rest) = .error error := by
  rw [confHandle, if_neg nonblank]
  split
  · rename_i other isError
    rw [failed] at isError
    cases isError
    rfl
  · rename_i joined isJoined
    rw [failed] at isJoined
    cases isJoined

theorem confHandle_joined
    (joins : join (ε := ε) (lineno + 1) line (rstrip line) rest (lineno + 1) =
      .ok joined) :
    confHandle feeder lineno passed (line :: rest) =
      if joined.s.head? = some '#' then
        confHandle feeder joined.lineno passed joined.rest
      else
        match feeder joined.lineno joined.s with
        | .error error => .error (.parse error)
        | .ok _ =>
            confHandle feeder joined.lineno
              (passed ++ [(joined.lineno, joined.s)]) joined.rest
      := by
  rw [confHandle, if_neg nonblank]
  split
  · rename_i error isError
    rw [joins] at isError
    cases isError
  · rename_i other isJoined
    rw [joins] at isJoined
    cases isJoined
    rfl

theorem confHandle_comment
    (joins : join (ε := ε) (lineno + 1) line (rstrip line) rest (lineno + 1) =
      .ok joined)
    (isComment : joined.s.head? = some '#') : confHandle feeder lineno passed
    (line :: rest) = confHandle feeder joined.lineno passed joined.rest := by
  rw [confHandle_joined nonblank joins, if_pos isComment]

theorem confHandle_rejected
    (joins : join (ε := ε) (lineno + 1) line (rstrip line) rest (lineno + 1) =
      .ok joined)
    (notComment : joined.s.head? ≠ some '#') {error : ε}
    (rejected : feeder joined.lineno joined.s = .error error) :
    confHandle feeder lineno passed (line :: rest) = .error (.parse error) := by
  rw [confHandle_joined nonblank joins, if_neg notComment, rejected]

theorem confHandle_fed
    (joins : join (ε := ε) (lineno + 1) line (rstrip line) rest (lineno + 1) =
      .ok joined)
    (notComment : joined.s.head? ≠ some '#') {fine : Unit}
    (accepted : feeder joined.lineno joined.s = .ok fine) :
    confHandle feeder lineno passed (line :: rest) =
      confHandle feeder joined.lineno (passed ++ [(joined.lineno, joined.s)])
        joined.rest := by
  rw [confHandle_joined nonblank joins, if_neg notComment, accepted]

end Handle

inductive BBError (ε : Type) where
  /-- A `ParseError` of the feeder. -/
  | parse (error : ε)
  /-- "There is a comment on line %s of file %s:\n'''\n%s\n'''\nwhich is in the
  middle of a multiline expression. This syntax is invalid, please correct it."
  -/
  | commentInside (lineno : ℕ) (s : Text)
  /-- "There is a confusing multiline partially commented expression on line %s
  of file %s:\n%s\n Please clarify whether this is all a comment or should be
  parsed." -/
  | confusing (lineno : ℕ) (residue : List Text)
  | unparsed (residue : List Text) (lineno : ℕ)
  /-- `IndexError`. -/
  | indexError
  /-- A function, `def`, task, `inherit` or handler line, which is not modelled.
  -/
  | otherSyntax (s : Text)

/-- `__residue__`, and the lines that were passed to the feeder of
`ConfHandler`. -/
structure BBState where
  residue : List Text
  passed : List (ℕ × Text)

/-- `__residue__[0][0]`, if there is a residue. -/
def firstChar : List Text → Except (BBError ε) (Option Char)
  | [] => .ok none
  | [] :: _ => .error .indexError
  | (char :: _) :: _ => .ok (some char)

/-- `BBHandler.feeder` outside of functions; `otherSyntax` tells whether one of
its own regular expressions matches. -/
def bbFeeder (otherSyntax : Text → Bool) (feeder : ℕ → Text → Except ε Unit)
    (state : BBState) (lineno : ℕ) (s : Text) : Except (BBError ε) BBState :=
  match firstChar state.residue with
  | .error error => .error error
  | .ok first =>
      if s.head? = some '#' ∧ first ≠ none ∧ first ≠ some '#' then
        .error (.commentInside lineno s)
      else if first = some '#' ∧ s.head? ≠ some '#' then
        .error (.confusing (lineno - state.residue.length) state.residue)
      else if s.getLast? = some '\\' then
        .ok { state with residue := state.residue ++ [s.dropLast] }
      else
        let s := state.residue.flatten ++ s
        if s = [] ∨ s.head? = some '#' then .ok { state with residue := [] }
        else if otherSyntax s then .error (.otherSyntax s)
        else
          match feeder lineno s with
          | .error error => .error (.parse error)
          | .ok _ => .ok ⟨[], state.passed ++ [(lineno, s)]⟩

/-- `get_statements`. -/
def getStatements (otherSyntax : Text → Bool)
    (feeder : ℕ → Text → Except ε Unit)
    (state : BBState) (lineno : ℕ) : List Text → Except (BBError ε)
    (List (ℕ × Text))
  | [] =>
      if state.residue = [] then .ok state.passed
      else .error (.unparsed state.residue lineno)
  | line :: rest =>
      match bbFeeder otherSyntax feeder state (lineno + 1) (rstrip line) with
      | .error error => .error error
      | .ok state => getStatements otherSyntax feeder state (lineno + 1) rest

end Nvbmc.Parse
