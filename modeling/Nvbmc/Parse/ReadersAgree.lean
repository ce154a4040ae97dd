import Nvbmc.Parse.LineReaders

/-!
# When the line readers agree

The readers differ where a blank line follows an expression that still ends in a
backslash when the last one is taken off: one of them goes on, the other does
not.  If nothing but backslashes is left, the first one looks at the end of an
empty text.
-/

namespace Nvbmc.Parse

open Nvbmc.Library

variable {ε : Type}

/-- An expression of nothing but backslashes, which the blank lines after it use
up. -/
def Collapses : Text → List Text → Prop
  | s, [] => ∀ char ∈ s, char = '\\'
  | s, line :: rest =>
      s = [] ∨ (∀ char ∈ s, char = '\\') ∧ Collapses (s.dropLast ++ rstrip line)
        rest

/-- No blank line follows an expression that ends in a backslash when the last
one is taken off; the expression so far, if there is one, is without its last
backslash. -/
def Undoubled : Option Text → List Text → Prop
  | _, [] => True
  | none, line :: rest =>
      Undoubled (if (rstrip line).getLast? = some '\\' then
        some (rstrip line).dropLast else none) rest
  | some s, line :: rest =>
      if (rstrip line).getLast? = some '\\' then
        Undoubled (some (s ++ (rstrip line).dropLast)) rest
      else (rstrip line = [] → s.getLast? ≠ some '\\') ∧ Undoubled none rest

/-- `ConfHandler.handle` comes to some lines and begins an expression there. -/
inductive Begins (feeder : ℕ → Text → Except ε Unit) (lineno' : ℕ)
    (lines' : List Text) : ℕ → List Text → Prop
  | here : Begins feeder lineno' lines' lineno' lines'
  | blank {lineno : ℕ} {line : Text} {rest : List Text}
      (isBlank : strip line = [])
      (later : Begins feeder lineno' lines' (lineno + 1) rest) :
      Begins feeder lineno' lines' lineno (line :: rest)
  | comment {lineno : ℕ} {line : Text} {rest : List Text} {joined : Joined}
      (nonblank : strip line ≠ [])
      (joins : join (ε := ε) (lineno + 1) line (rstrip line) rest (lineno + 1) =
        .ok joined)
      (isComment : joined.s.head? = some '#')
      (later : Begins feeder lineno' lines' joined.lineno joined.rest) :
      Begins feeder lineno' lines' lineno (line :: rest)
  | fed {lineno : ℕ} {line : Text} {rest : List Text} {joined : Joined}
      {fine : Unit} (nonblank : strip line ≠ [])
      (joins : join (ε := ε) (lineno + 1) line (rstrip line) rest (lineno + 1) =
        .ok joined)
      (notComment : joined.s.head? ≠ some '#')
      (accepted : feeder joined.lineno joined.s = .ok fine)
      (later : Begins feeder lineno' lines' joined.lineno joined.rest) :
      Begins feeder lineno' lines' lineno (line :: rest)

variable {s : Text} {rest : List Text}

theorem Collapses.eq_backslash (collapses : Collapses s rest) :
    ∀ char ∈ s, char = '\\' := by
  cases rest with
  | nil => exact collapses
  | cons line rest =>
      rcases collapses with isNil | ⟨all, _⟩
      · simp [isNil]
      · exact all

theorem collapses_step (incomplete : s.getLast? = some '\\') :
    Collapses s rest ↔ Collapses (s.dropLast ++ rstrip (rest.headD []))
      rest.tail := by
  obtain ⟨front, rfl⟩ := List.getLast?_eq_some_iff.mp incomplete
  rw [List.dropLast_concat]
  cases rest with
  | nil =>
      change (∀ char ∈ front ++ ['\\'], char = '\\') ↔ ∀ char ∈ front ++ [],
        char = '\\'
      simp [or_imp]
  | cons line rest =>
      rw [Collapses, List.dropLast_concat]
      constructor
      · intro collapses
        rcases collapses with isNil | ⟨_, later⟩
        · exact absurd isNil (by simp)
        · exact later
      · intro later
        refine .inr ⟨?_, later⟩
        intro char member
        rcases List.mem_append.mp member with inFront | isLast
        · exact later.eq_backslash char (List.mem_append_left _ inFront)
        · exact List.mem_singleton.mp isLast

theorem join_indexError {origlineno lineno : ℕ} {origline s : Text} :
    join (ε := ε) origlineno origline s rest lineno = .error .indexError ↔
      Collapses s rest := by
  induction origline, s, rest, lineno using join.induct with
  | case1 origline rest lineno =>
      refine iff_of_true join_nil ?_
      cases rest with
      | nil => exact fun char member => absurd member List.not_mem_nil
      | cons line rest => exact .inl rfl
  | case2 origline s rest lineno nonempty complete =>
      rw [join_of_getLast? nonempty complete]
      refine iff_of_false (by simp) ?_
      intro collapses
      have isLast := List.getLast?_eq_some_getLast nonempty
      rw [collapses.eq_backslash _ (List.getLast_mem nonempty)] at isLast
      exact complete isLast
  | case3 origline s rest lineno nonempty incomplete line s2 confusing =>
      rw [join, if_neg nonempty, if_neg incomplete, if_pos confusing]
      refine iff_of_false (by simp) ?_
      intro collapses
      have isHash :=
        collapses.eq_backslash '#' (List.mem_of_mem_head? confusing.2)
      cases isHash
  | case4 origline s rest lineno nonempty incomplete line s2 clear induction =>
      rw [join, if_neg nonempty, if_neg incomplete, if_neg clear, induction,
        collapses_step (not_not.mp incomplete)]

variable {feeder : ℕ → Text → Except ε Unit}

/-- An `IndexError` comes from an expression that collapses. -/
theorem confHandle_indexError {lineno : ℕ} {passed : List (ℕ × Text)}
    {lines : List Text} :
    confHandle feeder lineno passed lines = .error .indexError ↔
      ∃ lineno' line rest,
      Begins feeder lineno' (line :: rest) lineno lines ∧ strip line ≠ [] ∧
        Collapses (rstrip line) rest := by
  constructor
  · intro crashes
    induction lineno, passed, lines using confHandle.induct feeder with
    | case1 lineno passed =>
        rw [confHandle] at crashes
        cases crashes
    | case2 lineno passed line rest isBlank induction =>
        rw [confHandle_blank isBlank] at crashes
        obtain ⟨lineno', line', rest', begins, found⟩ := induction crashes
        exact ⟨lineno', line', rest', .blank isBlank begins, found⟩
    | case3 lineno passed line rest nonblank error failed =>
        rw [confHandle_error nonblank failed] at crashes
        cases crashes
        exact ⟨lineno, line, rest, .here, nonblank, join_indexError.mp failed⟩
    | case4 lineno passed line rest nonblank joined joins isComment induction =>
        rw [confHandle_comment nonblank joins isComment] at crashes
        obtain ⟨lineno', line', rest', begins, found⟩ := induction crashes
        exact ⟨lineno', line', rest', .comment nonblank joins isComment begins,
          found⟩
    | case5 lineno passed line rest nonblank joined joins notComment error
        rejected =>
        rw [confHandle_rejected nonblank joins notComment rejected] at crashes
        cases crashes
    | case6 lineno passed line rest nonblank joined joins notComment fine
        accepted induction =>
        rw [confHandle_fed nonblank joins notComment accepted] at crashes
        obtain ⟨lineno', line', rest', begins, found⟩ := induction crashes
        exact ⟨lineno', line', rest', .fed nonblank joins notComment accepted
          begins, found⟩
  · intro found
    obtain ⟨lineno', line', rest', begins, nonblank', collapses⟩ := found
    induction begins generalizing passed with
    | here => exact confHandle_error nonblank' (join_indexError.mpr collapses)
    | blank isBlank later induction => rw [confHandle_blank isBlank, induction]
    | comment nonblank joins isComment later induction =>
        rw [confHandle_comment nonblank joins isComment, induction]
    | fed nonblank joins notComment accepted later induction =>
        rw [confHandle_fed nonblank joins notComment accepted, induction]

/-- No line that `ConfHandler` passes on ends in a backslash. -/
theorem getLast?_of_mem_confHandle {lineno : ℕ}
    {passed result : List (ℕ × Text)} {lines : List Text}
    (before : ∀ entry ∈ passed, entry.2.getLast? ≠ some '\\')
    (handled : confHandle feeder lineno passed lines = .ok result) :
    ∀ entry ∈ result, entry.2.getLast? ≠ some '\\' := by
  induction lineno, passed, lines using confHandle.induct feeder with
  | case1 lineno passed =>
      rw [confHandle] at handled
      cases handled
      exact before
  | case2 lineno passed line rest isBlank induction =>
      rw [confHandle_blank isBlank] at handled
      exact induction before handled
  | case3 lineno passed line rest nonblank error failed =>
      rw [confHandle_error nonblank failed] at handled
      cases handled
  | case4 lineno passed line rest nonblank joined joins isComment induction =>
      rw [confHandle_comment nonblank joins isComment] at handled
      exact induction before handled
  | case5 lineno passed line rest nonblank joined joins notComment error
      rejected =>
      rw [confHandle_rejected nonblank joins notComment rejected] at handled
      cases handled
  | case6 lineno passed line rest nonblank joined joins notComment fine accepted
      induction =>
      rw [confHandle_fed nonblank joins notComment accepted] at handled
      apply induction _ handled
      intro entry member
      rcases List.mem_append.mp member with earlier | isLast
      · exact before entry earlier
      · rw [List.mem_singleton.mp isLast]
        exact (join_spec joins).2.1

theorem strip_eq_nil_iff {text : Text} :
    strip text = [] ↔ rstrip text = [] := by
  rw [strip, stripOf_eq_nil, rstrip, List.rdropWhile_eq_nil_iff]

/-- What `BBHandler.feeder` does with a line that it accepts. -/
inductive Fed (otherSyntax : Text → Bool) (feeder : ℕ → Text → Except ε Unit)
    (state : BBState) (lineno : ℕ) (s : Text) : BBState → Prop
  | incomplete {front : Text} (isLine : s = front ++ ['\\']) :
      Fed otherSyntax feeder state lineno s { state with
        residue := state.residue ++ [front] }
  | skipped (complete : s.getLast? ≠ some '\\')
      (nothing : state.residue.flatten ++ s = [] ∨
        (state.residue.flatten ++ s).head? = some '#') :
      Fed otherSyntax feeder state lineno s { state with residue := [] }
  | passed (complete : s.getLast? ≠ some '\\') {fine : Unit}
      (nonempty : state.residue.flatten ++ s ≠ [])
      (notComment : (state.residue.flatten ++ s).head? ≠ some '#')
      (accepted : feeder lineno (state.residue.flatten ++ s) = .ok fine) :
      Fed otherSyntax feeder state lineno s
        ⟨[], state.passed ++ [(lineno, state.residue.flatten ++ s)]⟩

theorem firstChar_ok {residue : List Text} {first : Option Char}
    (isFirst : firstChar (ε := ε) residue = .ok first)
    (inside : ¬ (s.head? = some '#' ∧ first ≠ none ∧ first ≠ some '#'))
    (confusing : ¬ (first = some '#' ∧ s.head? ≠ some '#')) :
    residue = [] ∨ ∃ char rest more, residue = (char :: rest) :: more ∧
      (char = '#' ↔ s.head? = some '#') := by
  cases residue with
  | nil => exact .inl rfl
  | cons front more =>
      cases front with
      | nil => cases isFirst
      | cons char rest =>
          cases isFirst
          refine .inr ⟨char, rest, more, rfl, ?_, ?_⟩
          · intro isHash
            by_contra other
            exact confusing ⟨congrArg some isHash, other⟩
          · intro isHash
            by_contra other
            exact inside ⟨isHash, by simp, by simpa using other⟩

theorem bbFeeder_cases {otherSyntax : Text → Bool} {state next : BBState}
    {lineno : ℕ} (ran : bbFeeder otherSyntax feeder state lineno s = .ok next) :
    Fed otherSyntax feeder state lineno s next ∧
      (state.residue = [] ∨ ∃ char rest more,
        state.residue = (char :: rest) :: more ∧
        (char = '#' ↔ s.head? = some '#')) := by
  rw [bbFeeder] at ran
  split at ran
  · cases ran
  · rename_i first isFirst
    dsimp only at ran
    split_ifs at ran with inside confusing incomplete nothing other
    · refine ⟨?_, firstChar_ok isFirst inside confusing⟩
      cases ran
      obtain ⟨front, rfl⟩ := List.getLast?_eq_some_iff.mp incomplete
      rw [List.dropLast_concat]
      exact .incomplete rfl
    · refine ⟨?_, firstChar_ok isFirst inside confusing⟩
      cases ran
      exact .skipped incomplete nothing
    · refine ⟨?_, firstChar_ok isFirst inside confusing⟩
      rw [not_or] at nothing
      split at ran
      · cases ran
      · rename_i fine accepted
        cases ran
        exact .passed incomplete nothing.1 nothing.2 accepted

theorem getLast?_append_ne {s last : Text} {char : Char}
    (complete : last.getLast? ≠ some char)
    (alone : last = [] → s.getLast? ≠ some char) :
    (s ++ last).getLast? ≠ some char := by
  by_cases nothing : last = []
  · rw [nothing, List.append_nil]
    exact alone nothing
  · rwa [List.getLast?_append_of_ne_nil _ nothing]

section Agreement

variable {otherSyntax : Text → Bool} {feeder bbFeed : ℕ → Text → Except ε Unit}

/-- `BBHandler` reads an expression to its end, and `ConfHandler` reads the
same. -/
theorem join_of_getStatements {state : BBState} {origlineno lineno : ℕ}
    {origline s : Text} {rest : List Text} {result : List (ℕ × Text)}
    (accepted : getStatements otherSyntax bbFeed state lineno rest = .ok result)
    (isResidue : state.residue.flatten = s) (begun : state.residue ≠ [])
    (undoubled : Undoubled (some s) rest) :
    ∃ joined, join (ε := ε) origlineno origline (s ++ ['\\']) rest lineno =
      .ok joined ∧ Undoubled none joined.rest ∧
      getStatements otherSyntax bbFeed
        ⟨[], if joined.s.head? = some '#' then state.passed
          else state.passed ++ [(joined.lineno, joined.s)]⟩ joined.lineno
            joined.rest =
        .ok result := by
  induction rest generalizing state lineno origline s with
  | nil =>
      rw [getStatements, if_neg begun] at accepted
      cases accepted
  | cons line rest induction =>
      rw [getStatements] at accepted
      split at accepted
      · cases accepted
      · rename_i next ran
        obtain ⟨fed, first⟩ := bbFeeder_cases ran
        rcases first with isNil | ⟨char, front, more, isCons, sameHash⟩
        · exact absurd isNil begun
        · have isHead : s.head? = some char := by
            rw [← isResidue, isCons]
            rfl
          have nonempty : s ≠ [] := by
            intro isNil
            rw [isNil] at isHead
            cases isHead
          have clear :
              ¬ ((rstrip line).head? ≠ some '#' ∧
                (s ++ ['\\']).head? = some '#') := by
            intro ⟨notHash, isHash⟩
            rw [List.head?_append_of_ne_nil _ nonempty, isHead] at isHash
            exact notHash (sameHash.mp (Option.some.inj isHash))
          rw [join_append_backslash, List.headD_cons, List.tail_cons,
            if_neg clear]
          rw [Undoubled] at undoubled
          cases fed with
          | incomplete isLine =>
              rename_i last
              rw [isLine, if_pos (by simp), List.dropLast_concat] at undoubled
              rw [isLine, ← List.append_assoc]
              exact @induction ⟨state.residue ++ [last], state.passed⟩
                (lineno + 1)
                (origline ++ line) (s ++ last) accepted (by simp [isResidue])
                (by simp) undoubled
          | skipped complete nothing =>
              rw [if_neg complete] at undoubled
              rw [isResidue] at nothing
              have isComment : (s ++ rstrip line).head? = some '#' :=
                nothing.resolve_left (by simp [nonempty])
              refine ⟨_, join_of_getLast? (by simp [nonempty]) ?_, undoubled.2,
                ?_⟩
              · exact getLast?_append_ne complete undoubled.1
              · rw [if_pos isComment]
                exact accepted
          | passed complete filled notComment fine =>
              rw [if_neg complete] at undoubled
              rw [isResidue] at notComment accepted
              refine ⟨_, join_of_getLast? (by simp [nonempty]) ?_, undoubled.2,
                ?_⟩
              · exact getLast?_append_ne complete undoubled.1
              · rw [if_neg notComment]
                exact accepted

variable {lineno : ℕ} {passed result : List (ℕ × Text)}

/-- `BBHandler` reads an expression as `ConfHandler` does. -/
theorem joined_of_getStatements {line : Text}
    {rest : List Text} (nonblank : strip line ≠ [])
    (undoubled : Undoubled none (line :: rest))
    (accepted : getStatements otherSyntax bbFeed ⟨[], passed⟩ lineno
      (line :: rest) = .ok result) :
    ∃ joined,
      join (ε := ε) (lineno + 1) line (rstrip line) rest (lineno + 1) =
        .ok joined ∧
      Undoubled none joined.rest ∧
      getStatements otherSyntax bbFeed
        ⟨[], if joined.s.head? = some '#' then passed
          else passed ++ [(joined.lineno, joined.s)]⟩ joined.lineno
            joined.rest = .ok result := by
  rw [Ne, strip_eq_nil_iff] at nonblank
  rw [Undoubled] at undoubled
  rw [getStatements] at accepted
  split at accepted
  · cases accepted
  · rename_i next ran
    obtain ⟨fed, _⟩ := bbFeeder_cases ran
    cases fed with
    | incomplete isLine =>
        rename_i front
        rw [isLine, if_pos (by simp), List.dropLast_concat] at undoubled
        rw [isLine]
        exact @join_of_getStatements ε otherSyntax bbFeed ⟨[front], passed⟩ _ _
          _ front rest result accepted (by simp) (by simp) undoubled
    | skipped complete nothing =>
        rw [if_neg complete] at undoubled
        have isComment : (rstrip line).head? = some '#' :=
          nothing.resolve_left nonblank
        refine ⟨_, join_of_getLast? nonblank complete, undoubled, ?_⟩
        rw [if_pos isComment]
        exact accepted
    | passed complete nonempty notComment fine =>
        rw [if_neg complete] at undoubled
        have notHash : (rstrip line).head? ≠ some '#' := notComment
        refine ⟨_, join_of_getLast? nonblank complete, undoubled, ?_⟩
        rw [if_neg notHash]
        exact accepted

theorem getStatements_blank {line : Text} {rest : List Text}
    (isBlank : strip line = [])
    (accepted : getStatements otherSyntax bbFeed ⟨[], passed⟩ lineno
      (line :: rest) = .ok result) :
    getStatements otherSyntax bbFeed ⟨[], passed⟩ (lineno + 1) rest =
      .ok result := by
  rw [strip_eq_nil_iff] at isBlank
  rw [getStatements, isBlank] at accepted
  exact accepted

/-- Without a doubled backslash before a blank line both readers pass on the
same lines, with the same numbers. -/
theorem passed_eq {passed result result' : List (ℕ × Text)} {lines : List Text}
    (undoubled : Undoubled none lines)
    (handled : confHandle feeder lineno passed lines = .ok result)
    (accepted : getStatements otherSyntax bbFeed ⟨[], passed⟩ lineno lines =
      .ok result') :
    result = result' := by
  induction lineno, passed, lines using confHandle.induct feeder with
  | case1 lineno passed =>
      rw [confHandle] at handled
      rw [getStatements, if_pos rfl] at accepted
      cases handled
      cases accepted
      rfl
  | case2 lineno passed line rest isBlank induction =>
      rw [confHandle_blank isBlank] at handled
      rw [Undoubled, strip_eq_nil_iff.mp isBlank, if_neg (by simp)] at undoubled
      exact induction undoubled handled (getStatements_blank isBlank accepted)
  | case3 lineno passed line rest nonblank error failed =>
      rw [confHandle_error nonblank failed] at handled
      cases handled
  | case4 lineno passed line rest nonblank joined joins isComment induction =>
      rw [confHandle_comment nonblank joins isComment] at handled
      obtain ⟨same, joins', undoubled', later⟩ :=
        joined_of_getStatements nonblank undoubled accepted
      rw [joins] at joins'
      cases joins'
      rw [if_pos isComment] at later
      exact induction undoubled' handled later
  | case5 lineno passed line rest nonblank joined joins notComment error
      rejected =>
      rw [confHandle_rejected nonblank joins notComment rejected] at handled
      cases handled
  | case6 lineno passed line rest nonblank joined joins notComment fine fed
      induction =>
      rw [confHandle_fed nonblank joins notComment fed] at handled
      obtain ⟨same, joins', undoubled', later⟩ :=
        joined_of_getStatements nonblank undoubled accepted
      rw [joins] at joins'
      cases joins'
      rw [if_neg notComment] at later
      exact induction undoubled' handled later

/-- The expression that `BBHandler` keeps, if there is one. -/
def pendingText (residue : List Text) : Option Text :=
  if residue = [] then none else some residue.flatten

/-- At a doubled backslash before a blank line `BBHandler` passes on a line that
ends in a backslash. -/
theorem undoubled_of_getStatements {state : BBState} {lines : List Text}
    {result : List (ℕ × Text)}
    (accepted : getStatements otherSyntax bbFeed state lineno lines =
      .ok result) :
    (∀ entry ∈ state.passed, entry ∈ result) ∧
      ((∀ entry ∈ result, entry.2.getLast? ≠ some '\\') →
        Undoubled (pendingText state.residue) lines) := by
  induction lines generalizing state lineno with
  | nil =>
      rw [getStatements] at accepted
      split_ifs at accepted
      cases accepted
      refine ⟨fun entry => id, fun _ => ?_⟩
      rw [Undoubled]
      trivial
  | cons line rest induction =>
      rw [getStatements] at accepted
      split at accepted
      · cases accepted
      · rename_i next ran
        obtain ⟨fed, first⟩ := bbFeeder_cases ran
        obtain ⟨kept, later⟩ := induction accepted
        cases fed with
        | incomplete isLine =>
            rename_i front
            refine ⟨kept, fun ends => ?_⟩
            have undoubled := later ends
            by_cases begun : state.residue = []
            · rw [pendingText, if_pos begun, Undoubled, isLine,
                if_pos (by simp), List.dropLast_concat]
              simpa [pendingText, begun] using undoubled
            · rw [pendingText, if_neg begun, Undoubled, isLine,
                if_pos (by simp), List.dropLast_concat]
              simpa [pendingText] using undoubled
        | skipped complete nothing =>
            refine ⟨kept, fun ends => ?_⟩
            have undoubled : Undoubled none rest := later ends
            by_cases begun : state.residue = []
            · rw [pendingText, if_pos begun, Undoubled, if_neg complete]
              exact undoubled
            · rw [pendingText, if_neg begun, Undoubled, if_neg complete]
              refine ⟨fun isBlank => ?_, undoubled⟩
              rcases first with isNil | ⟨char, front, more, isCons, sameHash⟩
              · exact absurd isNil begun
              · rw [isCons, isBlank] at nothing
                rw [isBlank] at sameHash
                simp at nothing sameHash
                exact absurd nothing sameHash
        | passed complete nonempty notComment fine =>
            refine ⟨fun entry member =>
              kept entry (List.mem_append_left _ member), fun ends => ?_⟩
            have undoubled : Undoubled none rest := later ends
            by_cases begun : state.residue = []
            · rw [pendingText, if_pos begun, Undoubled, if_neg complete]
              exact undoubled
            · rw [pendingText, if_neg begun, Undoubled, if_neg complete]
              refine ⟨fun isBlank => ?_, undoubled⟩
              have isLast :=
                ends _ (kept _
                  (List.mem_append_right _ (List.mem_singleton.mpr rfl)))
              rw [isBlank, List.append_nil] at isLast
              exact isLast

end Agreement

/-- `ConfHandler.handle` ends without an `IndexError`, and if both readers
accept the text they pass on the same lines. -/
def ReadersAgree (otherSyntax : Text → Bool)
    (feeder bbFeed : ℕ → Text → Except ε Unit) (text : Text) : Prop :=
  confHandle feeder 0 [] (readlines text) ≠ .error .indexError ∧
    ∀ passed passed', confHandle feeder 0 [] (readlines text) = .ok passed →
      getStatements otherSyntax bbFeed ⟨[], []⟩ 0 (readlines text) =
        .ok passed' →
      passed.map Prod.snd = passed'.map Prod.snd

/-- The readers agree unless the lines of an expression collapse or, in a text
that both accept, a blank line follows a doubled backslash. -/
theorem readersAgree_iff (otherSyntax : Text → Bool)
    (feeder bbFeed : ℕ → Text → Except ε Unit)
    (text : Text) : ReadersAgree otherSyntax feeder bbFeed text ↔
      (¬ ∃ lineno line rest, Begins feeder lineno (line :: rest) 0
        (readlines text) ∧ strip line ≠ [] ∧ Collapses (rstrip line) rest) ∧
      ((∃ passed, confHandle feeder 0 [] (readlines text) = .ok passed) →
        (∃ passed, getStatements otherSyntax bbFeed ⟨[], []⟩ 0
          (readlines text) = .ok passed) →
        Undoubled none (readlines text)) := by
  rw [ReadersAgree, Ne, confHandle_indexError]
  apply and_congr_right
  intro _
  constructor
  · intro same ⟨passed, handled⟩ ⟨passed', accepted⟩
    apply (undoubled_of_getStatements accepted).2
    intro entry member
    have inSecond : entry.2 ∈ passed'.map Prod.snd := List.mem_map_of_mem member
    rw [← same passed passed' handled accepted] at inSecond
    obtain ⟨other, isPassed, sameText⟩ := List.mem_map.mp inSecond
    rw [← sameText]
    exact getLast?_of_mem_confHandle (by simp) handled other isPassed
  · intro undoubled passed passed' handled accepted
    rw [passed_eq (undoubled ⟨passed, handled⟩ ⟨passed', accepted⟩) handled
      accepted]

namespace Backslash

/-- A backslash, and a blank line after it. -/
def text : Text :=
  "\\\n\n".toList

theorem handle_crashes : ¬ ReadersAgree (fun _ => false) (fun _ _ => .ok ())
    (fun _ _ => (.ok () : Except Unit Unit)) text := by
  intro agree
  apply agree.1
  have lines : readlines text = ["\\\n".toList, "\n".toList] := by decide
  rw [lines]
  apply confHandle_error (by decide)
  have front : rstrip "\\\n".toList = [] ++ ['\\'] := by decide
  rw [front, join_append_backslash, if_neg (by decide)]
  exact join_nil

end Backslash

end Nvbmc.Parse
