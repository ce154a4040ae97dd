import Nvbmc.MctpVdm.Access

/-!
# Cached and fresh boot status

A ghost state keeps the latest real query of each endpoint.  The file of an
endpoint is always the entry of that query, but the exit code is tested only
when it is read from the file.
-/

namespace Nvbmc.MctpVdm

open Nvbmc.Library

/-- A real query, with the exit code and the output of the tool. -/
structure Query where
  time : ℕ
  rc : ℕ
  output : Text

def Call.query (call : Call) : Query :=
  ⟨call.monotonicTime, call.rc, call.output⟩

structure Status where
  cache : Dict Text Text
  latest : Dict Text Query

def Status.initial : Status :=
  ⟨[], []⟩

/-- One call. -/
def Status.step (cacheStaleAge : ℕ) (status : Status) (call : Call) : Status :=
  let (outcome, cache) := mctpAccess cacheStaleAge status.cache call
  { cache
    latest := if outcome.isQueried then status.latest.set call.devEid call.query
      else status.latest }

def Status.run (cacheStaleAge : ℕ) (calls : List Call) : Status :=
  calls.foldl (Status.step cacheStaleAge) .initial

def process (call : Call) (query : Query) : Result :=
  if query.rc ≠ 0 then (query.rc, none)
  else parseOutput call.special call.prettyCmd (substituted query.output)

/-- There is no entry, or it is older than the limit. -/
def NeedsQuery (cacheStaleAge : ℕ) (latest : Option Query) (call : Call) :
    Prop :=
  ∀ query, latest = some query → query.time + cacheStaleAge < call.monotonicTime

/-- The call gives what the latest query gives, and it made that query exactly
if one was needed. -/
structure Agrees (cacheStaleAge : ℕ) (status : Status) (call : Call) :
    Prop where
  asked : (mctpAccess cacheStaleAge status.cache call).1.isQueried = true ↔
    NeedsQuery cacheStaleAge (status.latest.get? call.devEid) call
  answered : ∃ query,
    (status.step cacheStaleAge call).latest.get? call.devEid = some query ∧
    (mctpAccess cacheStaleAge status.cache call).1.result = process call query ∧
    ∀ bits data, commandBits call.special call.prettyCmd = some bits →
      query.rc = 0 →
      Answers (echoed call.special (substituted query.output)) data →
      (mctpAccess cacheStaleAge status.cache call).1.result =
        (0, some (bitsBetween (bitMin bits) (bitMax bits) (number data) : ℤ))

/-- A query that succeeds, or fails as an output without a successful answer
does. -/
def Call.Harmless (call : Call) : Prop :=
  call.rc = 0 ∨
    call.rc = 1 ∧ ¬ ∃ data,
    Answers (echoed call.special (substituted call.output)) data

/-- A query is harmless where one is needed, and the entry was not made at time
zero where none is needed. -/
def Regular (cacheStaleAge : ℕ) (latest : Option Query) (call : Call) : Prop :=
  (NeedsQuery cacheStaleAge latest call → call.Harmless) ∧
    ∀ query, latest = some query → ¬ NeedsQuery cacheStaleAge latest call →
      query.time ≠ 0

def AgreesThroughout (cacheStaleAge : ℕ) (calls : List Call) : Prop :=
  ∀ earlier call later, calls = earlier ++ call :: later →
    Agrees cacheStaleAge (Status.run cacheStaleAge earlier) call

def Query.file (query : Query) : Text :=
  entryText query.time query.rc (substituted query.output)

def Status.Recorded (status : Status) : Prop :=
  ∀ devEid, status.cache.get? devEid =
    (status.latest.get? devEid).map Query.file

section Step

variable {cacheStaleAge : ℕ} {status : Status} {call : Call}

theorem mctpAccess_of_none (isNone : status.cache.get? call.devEid = none) :
    mctpAccess cacheStaleAge status.cache call =
      (⟨true, parseOutput call.special call.prettyCmd
        (substituted call.output)⟩,
        status.cache.set call.devEid call.query.file) := by
  rw [mctpAccess, isNone]
  exact if_pos (.inr (if_neg (not_not.mpr rfl)))

theorem mctpAccess_of_some {query : Query}
    (isSome : status.cache.get? call.devEid = some query.file) :
    mctpAccess cacheStaleAge status.cache call =
      if query.time + cacheStaleAge < call.monotonicTime ∨ query.time = 0 then
        (⟨true, parseOutput call.special call.prettyCmd
          (substituted call.output)⟩,
          status.cache.set call.devEid call.query.file)
      else (⟨false, process call query⟩, status.cache) := by
  have clean := clean_substituted query.output
  have nonempty :=
    entryText_ne_nil query.time query.rc (substituted query.output)
  have isOlder : (call.monotonicTime : ℤ) - query.time > cacheStaleAge ↔
      query.time + cacheStaleAge < call.monotonicTime := by
    omega
  rw [mctpAccess, isSome]
  simp only [Option.getD_some, Query.file, if_pos nonempty,
    firstLine_entryText _ _ clean,
    secondLine_entryText _ _ clean, laterLines_entryText _ _ clean,
    numeral_toDigits, isOlder]
  split_ifs with isStale isFailure
  · rfl
  · rw [process, if_pos isFailure]
  · rw [process, if_neg isFailure]

theorem Status.Recorded.step (recorded : status.Recorded) (call : Call) :
    (status.step cacheStaleAge call).Recorded := by
  have filled : Status.Recorded ⟨status.cache.set call.devEid call.query.file,
      status.latest.set call.devEid call.query⟩ := by
    intro devEid
    by_cases same : devEid = call.devEid
    · rw [same, Dict.get?_set_self, Dict.get?_set_self, Option.map_some]
    · rw [Dict.get?_set_of_ne _ _ same, Dict.get?_set_of_ne _ _ same]
      exact recorded devEid
  have isFile := recorded call.devEid
  rw [Status.step]
  cases isLatest : status.latest.get? call.devEid with
  | none =>
      rw [isLatest, Option.map_none] at isFile
      rw [mctpAccess_of_none isFile]
      exact filled
  | some query =>
      rw [isLatest, Option.map_some] at isFile
      rw [mctpAccess_of_some isFile]
      by_cases isStale : query.time + cacheStaleAge < call.monotonicTime ∨
        query.time = 0
      · rw [if_pos isStale]
        exact filled
      · rw [if_neg isStale]
        exact recorded

end Step

theorem recorded_run (cacheStaleAge : ℕ) (calls : List Call) :
    (Status.run cacheStaleAge calls).Recorded := by
  induction calls using List.reverseRecOn with
  | nil => exact fun _ => rfl
  | append_singleton calls call induction =>
      rw [Status.run, List.foldl_append]
      exact Status.Recorded.step induction call

section Agreement

variable {cacheStaleAge : ℕ} {status : Status} {call : Call}

theorem parseOutput_of_answers {special : Text → Text}
    {prettyCmd bits output : Text} {data : List Byte}
    (isBits : commandBits special prettyCmd = some bits)
    (answers : Answers (echoed special output) data) :
    parseOutput special prettyCmd output =
      (0, some (bitsBetween (bitMin bits) (bitMax bits) (number data) :
        ℤ)) := by
  have spec := responseData_spec (echoed special output)
  obtain ⟨ordered, small⟩ := commandBits_bounds isBits
  rw [parseOutput]
  cases isData : responseData (echoed special output) with
  | none =>
      rw [isData] at spec
      exact absurd ⟨data, answers⟩ spec
  | some digits =>
      rw [isData] at spec
      obtain ⟨other, answers', isNumber⟩ := spec
      simp only [commandValue, isBits]
      rw [isNumber, answers'.unique answers, toInt_shift_and_mask ordered small]

theorem parseOutput_code (special : Text → Text) (prettyCmd output : Text) :
    (∃ data, Answers (echoed special output) data) ∧
      (parseOutput special prettyCmd output).1 = 0 ∨
    (¬ ∃ data, Answers (echoed special output) data) ∧
      parseOutput special prettyCmd output = (1, none) := by
  have spec := responseData_spec (echoed special output)
  rw [parseOutput]
  cases isData : responseData (echoed special output) with
  | none =>
      rw [isData] at spec
      exact .inr ⟨spec, rfl⟩
  | some digits =>
      rw [isData] at spec
      obtain ⟨data, answers, _⟩ := spec
      exact .inl ⟨⟨data, answers⟩, rfl⟩

theorem parseOutput_eq_process_iff (call : Call) :
    parseOutput call.special call.prettyCmd (substituted call.output) =
      process call call.query ↔ call.Harmless := by
  have isProcess : process call call.query = if call.rc ≠ 0 then (call.rc, none)
      else parseOutput call.special call.prettyCmd (substituted call.output) :=
        rfl
  rw [isProcess, Call.Harmless]
  by_cases succeeds : call.rc = 0
  · simp [succeeds]
  · rw [if_pos succeeds]
    rcases parseOutput_code call.special call.prettyCmd
      (substituted call.output) with
      ⟨answers, isZero⟩ | ⟨noAnswer, isOne⟩
    · refine iff_of_false ?_ ?_
      · intro same
        rw [same] at isZero
        exact succeeds isZero
      · intro harmless
        rcases harmless with isRc | ⟨_, noAnswer⟩
        · exact succeeds isRc
        · exact noAnswer answers
    · rw [isOne]
      simp [succeeds, noAnswer, eq_comm]

theorem process_of_answers {query : Query} {bits : Text} {data : List Byte}
    (isBits : commandBits call.special call.prettyCmd = some bits)
    (succeeds : query.rc = 0)
    (answers : Answers (echoed call.special (substituted query.output)) data) :
    process call query =
      (0, some (bitsBetween (bitMin bits) (bitMax bits) (number data) :
        ℤ)) := by
  rw [process, if_neg (not_not.mpr succeeds)]
  exact parseOutput_of_answers isBits answers

theorem agrees_of_fresh (isFresh : mctpAccess cacheStaleAge status.cache call =
      (⟨true, parseOutput call.special call.prettyCmd
        (substituted call.output)⟩,
        status.cache.set call.devEid call.query.file)) :
    Agrees cacheStaleAge status call ↔
      NeedsQuery cacheStaleAge (status.latest.get? call.devEid) call ∧
        call.Harmless := by
  have isLatest : (status.step cacheStaleAge call).latest.get? call.devEid =
      some call.query := by
    rw [Status.step, isFresh]
    exact Dict.get?_set_self _ _ _
  constructor
  · intro ⟨asked, query, isQuery, isResult, _⟩
    rw [isLatest] at isQuery
    cases isQuery
    rw [isFresh] at asked isResult
    dsimp only at asked isResult
    exact ⟨asked.mp rfl, (parseOutput_eq_process_iff call).mp isResult⟩
  · intro ⟨needed, harmless⟩
    have isProcess := (parseOutput_eq_process_iff call).mpr harmless
    refine ⟨?_, call.query, isLatest, ?_, ?_⟩
    · rw [isFresh]
      exact iff_of_true rfl needed
    · rw [isFresh]
      dsimp only
      exact isProcess
    · intro bits data isBits succeeds answers
      have isBitsOf :=
        @process_of_answers call call.query bits data isBits succeeds answers
      rw [isFresh, ← isBitsOf]
      dsimp only
      exact isProcess

theorem agrees_of_cached {query : Query}
    (isLatest : status.latest.get? call.devEid = some query)
    (isCached : mctpAccess cacheStaleAge status.cache call =
      (⟨false, process call query⟩, status.cache))
    (notNeeded : ¬ NeedsQuery cacheStaleAge (status.latest.get? call.devEid)
      call) :
    Agrees cacheStaleAge status call := by
  refine ⟨?_, query, ?_, ?_, ?_⟩
  · rw [isCached]
    exact iff_of_false Bool.false_ne_true notNeeded
  · rw [Status.step, isCached]
    exact isLatest
  · rw [isCached]
  · intro bits data isBits succeeds answers
    rw [isCached]
    exact process_of_answers isBits succeeds answers

theorem agrees_iff (recorded : status.Recorded) :
    Agrees cacheStaleAge status call ↔
      Regular cacheStaleAge (status.latest.get? call.devEid) call := by
  have isFile := recorded call.devEid
  cases isLatest : status.latest.get? call.devEid with
  | none =>
      rw [isLatest, Option.map_none] at isFile
      have needed : NeedsQuery cacheStaleAge none call := by
        intro query impossible
        cases impossible
      rw [agrees_of_fresh (mctpAccess_of_none isFile), isLatest, Regular]
      constructor
      · intro ⟨_, harmless⟩
        exact ⟨fun _ => harmless, fun _ impossible => by cases impossible⟩
      · intro ⟨harmless, _⟩
        exact ⟨needed, harmless needed⟩
  | some query =>
      rw [isLatest, Option.map_some] at isFile
      have isNeeded : NeedsQuery cacheStaleAge (some query) call ↔
          query.time + cacheStaleAge < call.monotonicTime := by
        simp [NeedsQuery]
      have access := @mctpAccess_of_some cacheStaleAge status call query isFile
      rw [Regular, isNeeded]
      by_cases isStale : query.time + cacheStaleAge < call.monotonicTime ∨
        query.time = 0
      · rw [if_pos isStale] at access
        rw [agrees_of_fresh access, isLatest, isNeeded]
        constructor
        · intro ⟨needed, harmless⟩
          exact ⟨fun _ => harmless, fun _ _ notNeeded =>
            absurd needed notNeeded⟩
        · intro ⟨harmless, notZero⟩
          have needed : query.time + cacheStaleAge < call.monotonicTime := by
            by_contra notNeeded
            rcases isStale with isOld | isZero
            · exact notNeeded isOld
            · exact notZero query rfl notNeeded isZero
          exact ⟨needed, harmless needed⟩
      · rw [if_neg isStale] at access
        have isFresh := not_or.mp isStale
        refine iff_of_true ?_ ⟨fun needed => absurd needed isFresh.1, ?_⟩
        · apply agrees_of_cached isLatest access
          rw [isLatest, isNeeded]
          exact isFresh.1
        · intro other isOther _
          cases isOther
          exact isFresh.2

end Agreement

/-- The calls of a run agree with the latest queries exactly if each real query
is harmless and no entry that is used was made at time zero. -/
theorem agreesThroughout_iff (cacheStaleAge : ℕ) (calls : List Call) :
    AgreesThroughout cacheStaleAge calls ↔
      ∀ earlier call later, calls = earlier ++ call :: later →
        Regular cacheStaleAge
          ((Status.run cacheStaleAge earlier).latest.get? call.devEid)
            call := by
  constructor
  · intro agrees earlier call later split
    exact (agrees_iff (recorded_run cacheStaleAge earlier)).mp
      (agrees _ _ _ split)
  · intro regular earlier call later split
    exact (agrees_iff (recorded_run cacheStaleAge earlier)).mpr
      (regular _ _ _ split)

namespace TimedOut

/-- `timeout` ended the tool. -/
def call : Call where
  devEid := "13".toList
  prettyCmd := "AP0_ACTIVE_SLOT".toList
  special := id
  monotonicTime := 100
  rc := 124
  output := []
  isEndpoint := by decide
  isBootStatus := by decide

theorem code_lost : ¬ AgreesThroughout 180 [call] := by
  intro agrees
  obtain ⟨_, query, isQuery, isResult, _⟩ := agrees [] call [] rfl
  have isLatest : ((Status.run 180 []).step 180 call).latest.get? call.devEid =
      some call.query := rfl
  rw [isLatest] at isQuery
  cases isQuery
  have isCode := congrArg Prod.fst isResult
  have isOne : (mctpAccess 180 (Status.run 180 []).cache call).1.result.1 =
      1 := by decide
  have is124 : (process call call.query).1 = 124 := by decide
  rw [isOne, is124] at isCode
  omega

end TimedOut

end Nvbmc.MctpVdm
