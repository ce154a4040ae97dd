import Mathlib.Order.Iterate
import Nvbmc.PRServ.Server

/-!
# Requests with an upstream server never go down

`handleGetPr` is one request to a server whose upstream server stays as it is
meanwhile.  A request without history for a known checksum must return at least
every value of the package, here and upstream.  The code compares the
checksum's value with the greatest local and the greatest upstream value; it
fails when there is no upstream value, and it goes down when one of the values
it compares is a prefix of the other.
-/

namespace Nvbmc.PRServ

open Nvbmc.Library

namespace PRTable

variable (ordering upstreamOrdering : RowOrder) (table upstream : PRTable)

/-- A handler goes on with the upstream server's answer. -/
def advance : Outcome → Outcome
  | .waits waiting =>
      table.resume ordering waiting (upstream.ask upstreamOrdering waiting)
  | .done value after => .done value after
  | .failed => .failed

/-- `handle_get_pr`; it waits four times at most. -/
def handleGetPr (request : Request) : Outcome :=
  (advance ordering upstreamOrdering table upstream)^[4]
    (table.beginGetPr ordering true request)

/-- The value that is compared with the upstream maximum. -/
def bump (own localMax : Revision) : Revision :=
  if revisionSmaller own localMax then localMax.increase else own

def noHistoryValue (own localMax upstreamMax : Revision)
    (knownUpstream : Bool) : Revision :=
  if revisionSmaller (bump own localMax) upstreamMax then
    if knownUpstream then upstreamMax else upstreamMax.dotZero
  else bump own localMax

structure Compared (own localMax upstreamMax : Revision) : Prop where
  withLocal : ProperPrefix own localMax → revisionSmaller own upstreamMax
  withUpstream : ¬ ProperPrefix (bump own localMax) upstreamMax

def SearchesRight (package : Package) : Prop :=
  ∀ value, table.findPackageMaxValue ordering package = some value →
    IsGreatest (table.stored package) value

def Repeated (request : Request) : Prop :=
  request.history = false ∧
    (table.storedFor request.package request.checksum).Nonempty

/-- What a request must do. -/
def AnswersWell (request : Request) (outcome : Outcome) : Prop :=
  ∃ value after, outcome = .done value after ∧ (table.Repeated request →
    value ∈ upperBounds (table.stored request.package) ∧
      value ∈ upperBounds (upstream.stored request.package))

def Searched (request : Request) : Prop :=
  table.Repeated request → table.SearchesRight ordering request.package ∧
    upstream.SearchesRight upstreamOrdering request.package

/-- The condition on a request: without history, a known checksum needs an
upstream value, searches that find the greatest values and comparisons that are
not misled. -/
structure Comparable (request : Request) : Prop where
  searched : Searched ordering upstreamOrdering table upstream request
  knownUpstream : table.Repeated request →
    (upstream.stored request.package).Nonempty
  compared : table.Repeated request → ∀ own localMax upstreamMax,
    table.findMaxValue ordering request.package request.checksum = some own →
    table.findPackageMaxValue ordering request.package = some localMax →
    upstream.findPackageMaxValue upstreamOrdering request.package =
      some upstreamMax →
    Compared own localMax upstreamMax

variable {ordering upstreamOrdering table upstream}
  {own localMax upstreamMax : Revision} {locals upstreams : Set Revision}

/-- With greatest local and upstream values, the value returned is at least
all of them exactly when the comparisons are not misled. -/
theorem noHistoryValue_bounds_iff (ownMember : own ∈ locals)
    (localGreatest : IsGreatest locals localMax)
    (upstreamGreatest : IsGreatest upstreams upstreamMax)
    (knownUpstream : Bool) :
    (noHistoryValue own localMax upstreamMax knownUpstream ∈
        upperBounds locals ∧
      noHistoryValue own localMax upstreamMax knownUpstream ∈
        upperBounds upstreams) ↔
      Compared own localMax upstreamMax := by
  rw [← isLUB_le_iff localGreatest.isLUB, ← isLUB_le_iff upstreamGreatest.isLUB]
  have ownLe : own ≤ localMax := localGreatest.2 ownMember
  rw [noHistoryValue]
  by_cases behindLocal : revisionSmaller own localMax
  · -- the value is bumped above the local maximum
    have bumped : bump own localMax = localMax.increase := if_pos behindLocal
    have noPrefix := (revisionSmaller_iff.mp behindLocal).2
    have above : localMax < bump own localMax := bumped ▸ localMax.lt_increase
    split_ifs with behindUpstream isKnown
    · have less := (revisionSmaller_iff.mp behindUpstream)
      exact iff_of_true ⟨(above.trans less.1).le, le_rfl⟩
        ⟨fun isPrefix => absurd isPrefix noPrefix, less.2⟩
    · have less := (revisionSmaller_iff.mp behindUpstream)
      exact iff_of_true ⟨((above.trans less.1).trans upstreamMax.lt_dotZero).le,
          upstreamMax.lt_dotZero.le⟩
        ⟨fun isPrefix => absurd isPrefix noPrefix, less.2⟩
    · constructor
      · rintro ⟨_, reaches⟩
        exact ⟨fun isPrefix => absurd isPrefix noPrefix,
          fun isPrefix => absurd isPrefix.lt reaches.not_gt⟩
      · intro compared
        refine ⟨above.le, not_lt.mp fun less => behindUpstream ?_⟩
        exact revisionSmaller_iff.mpr ⟨less, compared.withUpstream⟩
  · -- the value is the local maximum or one of its prefixes
    have kept : bump own localMax = own := if_neg behindLocal
    have isPrefixOf : own < localMax → ProperPrefix own localMax := by
      intro less
      by_contra noPrefix
      exact behindLocal (revisionSmaller_iff.mpr ⟨less, noPrefix⟩)
    by_cases behindUpstream : revisionSmaller own upstreamMax
    · obtain ⟨less, noPrefix⟩ := revisionSmaller_iff.mp behindUpstream
      have localBelow : localMax < upstreamMax := by
        rcases ownLe.eq_or_lt with same | below
        · exact same ▸ less
        · exact (isPrefixOf below).lt_of_lt less noPrefix
      have compared : Compared own localMax upstreamMax :=
        ⟨fun _ => behindUpstream, kept.symm ▸ noPrefix⟩
      rw [kept, if_pos behindUpstream]
      split_ifs
      · exact iff_of_true ⟨localBelow.le, le_rfl⟩ compared
      · exact iff_of_true ⟨(localBelow.trans upstreamMax.lt_dotZero).le,
          upstreamMax.lt_dotZero.le⟩ compared
    · rw [kept, if_neg behindUpstream]
      constructor
      · rintro ⟨reachesLocal, reachesUpstream⟩
        refine ⟨fun isPrefix => absurd isPrefix.lt reachesLocal.not_gt, ?_⟩
        rw [kept]
        exact fun isPrefix => absurd isPrefix.lt reachesUpstream.not_gt
      · rintro ⟨withLocal, withUpstream⟩
        rw [kept] at withUpstream
        constructor
        · exact not_lt.mp fun less =>
            behindUpstream (withLocal (isPrefixOf less))
        · refine not_lt.mp fun less => behindUpstream ?_
          exact revisionSmaller_iff.mpr ⟨less, withUpstream⟩

variable {request : Request} {package : Package}

theorem testPackage_eq_true
    (known : table.testPackage ordering package = true) :
    (table.stored package).Nonempty := by
  rw [testPackage] at known
  obtain ⟨value, isHead⟩ := Option.isSome_iff_exists.mp known
  exact ⟨value, mem_select_package.mp (List.mem_of_head? isHead)⟩

theorem iterate_advance_done (steps : ℕ) (value : Revision) (after : PRTable) :
    (advance ordering upstreamOrdering table upstream)^[steps]
      (.done value after) = .done value after :=
  Function.iterate_fixed rfl steps

theorem iterate_advance_failed (steps : ℕ) :
    (advance ordering upstreamOrdering table upstream)^[steps] .failed =
      .failed :=
  Function.iterate_fixed rfl steps

theorem advance_begin_known {value : Revision}
    (isFound : table.findValue ordering request.package request.checksum
      request.history = some value) :
    advance ordering upstreamOrdering table upstream
      (table.beginGetPr ordering true request) =
        if request.history then table.getValueDone ordering request
        else table.noHistory ordering request value
          (upstream.findPackageMaxValue upstreamOrdering request.package) := by
  rw [beginGetPr, if_pos rfl, isFound]
  rfl

theorem advance_begin_new
    (isNew : table.findValue ordering request.package request.checksum
      request.history = none) :
    advance ordering upstreamOrdering table upstream
      (table.beginGetPr ordering true request) =
        .waits (.testPackage request) := by
  rw [beginGetPr, if_pos rfl, isNew]
  rfl

theorem iterate_advance_testPackage :
    ∃ value after, (advance ordering upstreamOrdering table upstream)^[3]
      (.waits (.testPackage request)) = .done value after := by
  rw [Function.iterate_succ_apply, advance, ask]
  cases isKnown : upstream.testPackage upstreamOrdering request.package with
  | false => exact ⟨_, _, rfl⟩
  | true =>
      have stored := testPackage_eq_true isKnown
      change ∃ value after,
        (advance ordering upstreamOrdering table upstream)^[2]
        (.waits (.testNew request)) = .done value after
      rw [Function.iterate_succ_apply, advance, ask]
      cases upstream.findValue upstreamOrdering request.package
          request.checksum false with
      | some value => exact ⟨_, _, rfl⟩
      | none =>
          change ∃ value after, advance ordering upstreamOrdering table upstream
            (.waits (.maxNew request)) = .done value after
          rw [advance, ask]
          cases isMax : upstream.findPackageMaxValue upstreamOrdering
              request.package with
          | some value => exact ⟨_, _, rfl⟩
          | none =>
              rw [findPackageMaxValue_eq_none.mp isMax] at stored
              exact absurd stored Set.not_nonempty_empty

theorem handleGetPr_done (notKnown : request.history = false →
      table.findMaxValue ordering request.package request.checksum = none) :
    ∃ value after, handleGetPr ordering upstreamOrdering table upstream
      request = .done value after := by
  rw [handleGetPr, Function.iterate_succ_apply]
  cases isFound : table.findValue ordering request.package request.checksum
      request.history with
  | some value =>
      have historical : request.history = true := by
        by_contra noHistory
        have none := notKnown (by simpa using noHistory)
        simp [findValue, noHistory, none] at isFound
      rw [advance_begin_known isFound, if_pos historical, getValueDone,
        iterate_advance_done]
      exact ⟨_, _, rfl⟩
  | none =>
      rw [advance_begin_new isFound]
      exact iterate_advance_testPackage

/-- A request for a known checksum without history ends when the package is
known upstream. -/
theorem handleGetPr_known (noHistory : request.history = false)
    (isOwn : table.findMaxValue ordering request.package request.checksum =
      some own) (isLocal : table.findPackageMaxValue ordering request.package =
      some localMax) (isUpstream : upstream.findPackageMaxValue upstreamOrdering
      request.package = some upstreamMax) :
    ∃ knownUpstream after,
      handleGetPr ordering upstreamOrdering table upstream request =
        .done (noHistoryValue own localMax upstreamMax knownUpstream)
          after := by
  have isFound : table.findValue ordering request.package request.checksum
      request.history = some own := by
    simpa [findValue, noHistory] using isOwn
  rw [handleGetPr, Function.iterate_succ_apply, advance_begin_known isFound,
    if_neg (by simp [noHistory]), isUpstream, PRTable.noHistory, isLocal]
  have knownDone_done : ∀ value, ∃ after,
      table.knownDone ordering request own value = .done value after := by
    intro value
    rw [knownDone]
    split_ifs
    · exact ⟨_, rfl⟩
    · exact ⟨_, rfl⟩
  change ∃ knownUpstream after,
    (advance ordering upstreamOrdering table upstream)^[3]
      (if revisionSmaller (bump own localMax) upstreamMax then
        .waits (.testKnown request own upstreamMax)
      else table.knownDone ordering request own (bump own localMax)) = _
  by_cases behindUpstream : revisionSmaller (bump own localMax) upstreamMax
  · simp only [if_pos behindUpstream, noHistoryValue]
    rw [Function.iterate_succ_apply, advance, ask]
    cases upstream.findValue upstreamOrdering request.package
        request.checksum false with
    | none =>
        obtain ⟨after, done⟩ := knownDone_done upstreamMax.dotZero
        refine ⟨false, after, ?_⟩
        rw [resume, done, iterate_advance_done]
        rfl
    | some value =>
        obtain ⟨after, done⟩ := knownDone_done upstreamMax
        refine ⟨true, after, ?_⟩
        rw [resume, done, iterate_advance_done]
        rfl
  · obtain ⟨after, done⟩ := knownDone_done (bump own localMax)
    refine ⟨false, after, ?_⟩
    rw [if_neg behindUpstream, done, iterate_advance_done, noHistoryValue,
      if_neg behindUpstream]

theorem handleGetPr_failed (noHistory : request.history = false)
    (isOwn : table.findMaxValue ordering request.package request.checksum =
      some own) (noUpstream : upstream.findPackageMaxValue upstreamOrdering
      request.package = none) :
    handleGetPr ordering upstreamOrdering table upstream request = .failed := by
  have isFound : table.findValue ordering request.package request.checksum
      request.history = some own := by
    simpa [findValue, noHistory] using isOwn
  rw [handleGetPr, Function.iterate_succ_apply, advance_begin_known isFound,
    if_neg (by simp [noHistory]), noUpstream, PRTable.noHistory,
    iterate_advance_failed]

theorem stored_nonempty_iff :
    (table.stored package).Nonempty ↔
      ∃ value, table.findPackageMaxValue ordering package = some value := by
  rw [← Option.isSome_iff_exists, ← Option.ne_none_iff_isSome, Ne,
    findPackageMaxValue_eq_none, Set.nonempty_iff_ne_empty]

theorem findMaxValue_eq_none {checksum : Text} :
    table.findMaxValue ordering package checksum = none ↔
      table.storedFor package checksum = ∅ :=
  @findValue_eq_none ordering table package checksum false

/-- With a known package and right searches the request is answered well
exactly when its comparisons are not misled. -/
theorem answersWell_iff_compared (noHistory : request.history = false)
    (isOwn : table.findMaxValue ordering request.package request.checksum =
      some own) (isLocal : table.findPackageMaxValue ordering request.package =
      some localMax) (isUpstream : upstream.findPackageMaxValue upstreamOrdering
      request.package = some upstreamMax)
    (localGreatest : IsGreatest (table.stored request.package) localMax)
    (upstreamGreatest :
      IsGreatest (upstream.stored request.package) upstreamMax) :
    AnswersWell table upstream request
        (handleGetPr ordering upstreamOrdering table upstream request) ↔
      Compared own localMax upstreamMax := by
  have ownMember : own ∈ table.storedFor request.package request.checksum :=
    mem_selectChecksum.mp (extremum_mem isOwn)
  obtain ⟨knownUpstream, after, done⟩ :=
    handleGetPr_known noHistory isOwn isLocal isUpstream
  rw [← noHistoryValue_bounds_iff (storedFor_subset ownMember) localGreatest
    upstreamGreatest knownUpstream, done]
  constructor
  · rintro ⟨value, final, ended, bounds⟩
    cases ended
    exact bounds ⟨noHistory, own, ownMember⟩
  · exact fun bounds => ⟨_, _, rfl, fun _ => bounds⟩

/-- A request is answered well, and its searches find the greatest values,
exactly when it meets the condition. -/
theorem answers_well_iff (request : Request) :
    (AnswersWell table upstream request
        (handleGetPr ordering upstreamOrdering table upstream request) ∧
      Searched ordering upstreamOrdering table upstream request) ↔
      Comparable ordering upstreamOrdering table upstream request := by
  by_cases repeated : table.Repeated request
  · obtain ⟨noHistory, known⟩ := repeated
    obtain ⟨localMax, isLocal⟩ : ∃ value,
        table.findPackageMaxValue ordering request.package = some value :=
      stored_nonempty_iff.mp (known.mono storedFor_subset)
    obtain ⟨own, isOwn⟩ : ∃ own, table.findMaxValue ordering request.package
        request.checksum = some own := by
      rw [← Option.isSome_iff_exists, ← Option.ne_none_iff_isSome, Ne,
        findMaxValue_eq_none]
      exact known.ne_empty
    cases isUpstream : upstream.findPackageMaxValue upstreamOrdering
        request.package with
    | none =>
        have failed := handleGetPr_failed noHistory isOwn isUpstream
        apply iff_of_false
        · rintro ⟨⟨_, _, ended, _⟩, _⟩
          rw [failed] at ended
          cases ended
        · intro comparable
          obtain ⟨value, found⟩ :=
            stored_nonempty_iff.mp (comparable.knownUpstream ⟨noHistory, known⟩)
          rw [isUpstream] at found
          cases found
    | some upstreamMax =>
        constructor
        · rintro ⟨answers, searched⟩
          obtain ⟨localRight, upstreamRight⟩ := searched ⟨noHistory, known⟩
          have compared := (answersWell_iff_compared noHistory isOwn isLocal
            isUpstream (localRight _ isLocal)
            (upstreamRight _ isUpstream)).mp answers
          refine ⟨searched, fun _ => stored_nonempty_iff.mpr ⟨_, isUpstream⟩,
            ?_⟩
          intro _ otherOwn otherLocal otherUpstream found₁ found₂ found₃
          cases isOwn.symm.trans found₁
          cases isLocal.symm.trans found₂
          cases isUpstream.symm.trans found₃
          exact compared
        · intro comparable
          obtain ⟨localRight, upstreamRight⟩ :=
            comparable.searched ⟨noHistory, known⟩
          refine ⟨?_, comparable.searched⟩
          apply (answersWell_iff_compared noHistory isOwn isLocal isUpstream
            (localRight _ isLocal) (upstreamRight _ isUpstream)).mpr
          exact comparable.compared ⟨noHistory, known⟩ _ _ _ isOwn isLocal
            isUpstream
  · have notKnown : request.history = false → table.findMaxValue ordering
        request.package request.checksum = none := by
      intro noHistory
      rw [findMaxValue_eq_none]
      by_contra known
      exact repeated ⟨noHistory, Set.nonempty_iff_ne_empty.mpr known⟩
    obtain ⟨value, after, done⟩ : ∃ value after,
        handleGetPr ordering upstreamOrdering table upstream request =
          .done value after := handleGetPr_done notKnown
    apply iff_of_true
    · exact ⟨⟨value, after, done, fun isRepeated => absurd isRepeated repeated⟩,
        fun isRepeated => absurd isRepeated repeated⟩
    · exact ⟨fun isRepeated => absurd isRepeated repeated,
        fun isRepeated => absurd isRepeated repeated,
        fun isRepeated => absurd isRepeated repeated⟩

/-- A package that the upstream server does not know gets 0; the same request
once more fails. -/
theorem not_answers_well_local :
    handleGetPr .inserted .inserted (emptyTable false) (emptyTable false)
        ⟨examplePackage, "a".toList, false⟩ =
      .done .initial ⟨false, [⟨examplePackage, "a".toList, .initial⟩]⟩ ∧
    ¬ AnswersWell ⟨false, [⟨examplePackage, "a".toList, .initial⟩]⟩
      (emptyTable false) ⟨examplePackage, "a".toList, false⟩
      (handleGetPr .inserted .inserted
        ⟨false, [⟨examplePackage, "a".toList, .initial⟩]⟩ (emptyTable false)
        ⟨examplePackage, "a".toList, false⟩) := by
  refine ⟨rfl, ?_⟩
  have failed : handleGetPr .inserted .inserted
      ⟨false, [⟨examplePackage, "a".toList, .initial⟩]⟩ (emptyTable false)
      ⟨examplePackage, "a".toList, false⟩ = .failed := by
    rfl
  rw [failed]
  rintro ⟨value, after, ended, _⟩
  cases ended

end PRTable

end Nvbmc.PRServ
