import Mathlib.Data.List.Nodup
import Nvbmc.Library.Runs
import Nvbmc.HashServ.Groups

/-!
# A unihash once given stays the answer

No statement that inserts a unihash changes a row, so that the table keeps what
it has given.  An answer that is read from the table is right as long as no row
comes between its reading and its sending; an answer of the upstream server is
sent as it came, whatever the table says by then.  `State.Undisturbed` asks of
every step that it brings no answer and no row of this kind.
-/

namespace Nvbmc.HashServ

open Nvbmc.Library

/-- The task and the answer that the handler is going to send. -/
def Stage.decided : Stage → Option (Task × Option Text)
  | .reply task unihash => some (task, unihash)
  | .queueBackfill task unihash => some (task, some unihash)
  | .insertAnswer task answer => some (task, some answer.unihash)
  | .insertFullUnihash task answer | .insertFullOuthash task answer =>
      some (task, some answer.unihash)
  | _ => none

/-- The unihash in an answer; `get-stream` takes an empty one for none. -/
def Answer.found : Answer → Option Text
  | .unihash (some []) => none
  | .unihash answer => answer
  | .taskhash answer => answer.map (·.unihash)
  | .full answer => answer.map (·.unihash)

/-- The task of `get_unihash` with all columns. -/
def Stage.full : Stage → Option Task
  | .lookupFull task => some task
  | _ => none

/-- The task the upstream server is asked about, and whether the handler also
answers when the server has no row: `None["method"]` raises. -/
def Stage.asks : Stage → Option (Task × Bool)
  | .askTaskhash task => some (task, false)
  | .askFull task | .askStream task => some (task, true)
  | _ => none

def Action.serves : Action → Bool
  | .gcMark _ _ | .gcSweep _ | .remove _ => false
  | _ => true

namespace Database

variable (db : Database)

def UniqueTasks : Prop :=
  (db.unihashes.map fun row => (row.method, row.taskhash)).Nodup

/-- The answer is the table's where the table has one. -/
def Agrees (decided : Option (Task × Option Text)) : Prop :=
  ∀ answer ∈ decided, ∀ unihash ∈ db.unihash answer.1,
    answer.2 = some unihash

variable {db}

theorem unihash_eq_some (unique : db.UniqueTasks) {task : Task}
    {unihash : Text} : db.unihash task = some unihash ↔ ∃ row ∈ db.unihashes,
      row.method = task.method ∧ row.taskhash = task.taskhash ∧
        row.unihash = unihash := by
  simp only [Database.unihash, getEquivalent, Option.map_eq_some_iff]
  constructor
  · rintro ⟨row, found, same⟩
    have keys := List.find?_some found
    simp only [decide_eq_true_eq] at keys
    exact ⟨row, List.mem_of_find?_eq_some found, keys.1, keys.2, same⟩
  · rintro ⟨row, member, method, taskhash, same⟩
    refine ⟨row, ?_, same⟩
    cases found : db.findUnihash task.method task.taskhash with
    | none =>
        have absent := List.find?_eq_none.mp found row member
        simp [method, taskhash] at absent
    | some other =>
        have keys := List.find?_some found
        simp only [decide_eq_true_eq] at keys
        have equal : other = row := List.inj_on_of_nodup_map unique
          (List.mem_of_find?_eq_some found) member
          (by rw [keys.1, keys.2, method, taskhash])
        rw [equal]

theorem UniqueTasks.addUnihash (unique : db.UniqueTasks) (task : Task)
    (unihash : Text) : (db.addUnihash task unihash).UniqueTasks := by
  rw [Database.addUnihash, insertUnihash]
  split
  · exact unique
  · rename_i absent
    simp only [UniqueTasks, List.map_append, List.map_cons, List.map_nil]
    refine List.nodup_append.mpr ⟨unique, List.nodup_singleton _, ?_⟩
    intro key member other isNew same
    obtain ⟨row, rowMember, rfl⟩ := List.mem_map.mp member
    have absentRow := List.find?_eq_none.mp absent row rowMember
    obtain ⟨method, taskhash⟩ := Prod.mk.inj
      (same.trans (List.mem_singleton.mp isNew))
    simp [method, taskhash] at absentRow

theorem UniqueTasks.markRows (unique : db.UniqueTasks) (mark : Text)
    (condition : Condition) : (db.markRows mark condition).UniqueTasks := by
  have keys : (fun row : UnihashRow => (row.method, row.taskhash)) ∘ (fun row =>
      if condition.unihashRow row then { row with gcMark := mark } else row) =
      fun row => (row.method, row.taskhash) := by
    funext row
    simp only [Function.comp_apply]
    split <;> rfl
  rwa [UniqueTasks, Database.markRows, List.map_map, keys]

theorem mem_addUnihash {row : UnihashRow} (member : row ∈ db.unihashes)
    (task : Task) (unihash : Text) :
    row ∈ (db.addUnihash task unihash).unihashes := by
  rw [addUnihash, insertUnihash]
  split
  · exact member
  · exact List.mem_append_left _ member

theorem unihash_of_full {task : Task} {unihash : Text}
    (found : db.getUnihashByTaskhashFull task.method task.taskhash =
      some unihash) : db.unihash task = some unihash := by
  obtain ⟨⟨row, _⟩, best, rfl⟩ := Option.map_eq_some_iff.mp found
  obtain ⟨listed, among, joined⟩ := List.mem_filterMap.mp (extremum_mem best)
  obtain ⟨_, known, pair⟩ := Option.map_eq_some_iff.mp joined
  cases pair
  obtain ⟨-, keys⟩ := List.mem_filter.mp among
  simp only [decide_eq_true_eq] at keys
  rwa [Database.unihash, ← keys.1, ← keys.2]

section Agreement

variable {decided : Option (Task × Option Text)} {task : Task}
  {unihash : Text} {found : Option Text}

theorem agrees_none : db.Agrees none := nofun

theorem agrees_known (known : db.unihash task = some unihash) :
    db.Agrees (some (task, some unihash)) := by
  intro answer isAnswer other otherKnown
  cases isAnswer
  exact known.symm.trans otherKnown

theorem agrees_absent (absent : db.unihash task = none) :
    db.Agrees (some (task, found)) := by
  intro answer isAnswer other otherKnown
  cases isAnswer
  cases absent.symm.trans otherKnown

theorem Agrees.mono (agrees : db.Agrees decided) {after : Database}
    (fewer : ∀ task unihash, after.unihash task = some unihash →
      db.unihash task = some unihash) : after.Agrees decided :=
  fun answer isAnswer unihash known =>
    agrees answer isAnswer unihash (fewer _ _ known)

theorem Agrees.addUnihash (agrees : db.Agrees decided)
    (fits : db.unihash task = none → ∀ answer ∈ decided, answer.1 = task →
      answer.2 = some unihash) :
    (db.addUnihash task unihash).Agrees decided := by
  intro answer isAnswer other known
  by_cases same : answer.1 = task
  · rw [Option.mem_def, same, unihash_addUnihash_self] at known
    cases old : db.unihash task with
    | some present =>
        rw [old] at known
        exact agrees answer isAnswer other (by rw [same, old]; exact known)
    | none =>
        rw [old] at known
        rw [fits old answer isAnswer same]
        exact known
  · rw [Option.mem_def, unihash_addUnihash_of_ne _ same] at known
    exact agrees answer isAnswer other known

end Agreement

end Database

namespace State

variable (state : State)

/-- A new row has the unihash of the answers about its task that are on their
way. -/
def MayGive (given : Option (Task × Text)) : Prop :=
  ∀ row ∈ given, state.db.unihash row.1 = none →
    ∀ stage ∈ state.handlers, ∀ answer ∈ stage.decided, answer.1 = row.1 →
      answer.2 = some row.2

/-- Without an upstream server a row with all columns is only asked for when
there is one, or no unihash either. -/
def MayRun (stage : Stage) : Prop :=
  state.MayGive stage.gives ∧
    ∀ task ∈ stage.full, state.hasUpstream = false →
      state.db.unihash task ≠ none → ∃ row ∈ state.db.outhashes, row.task = task

/-- What the upstream server answers about a task is the table's unihash where
the table has one by then. -/
def MayResume (stage : Stage) (answer : Answer) : Prop :=
  ∀ asked ∈ stage.asks, ∀ unihash ∈ state.db.unihash asked.1,
    answer.found.isSome ∨ asked.2 → answer.found = some unihash

/-- No row comes in the way of an answer. -/
def Undisturbed : Action → Prop
  | .run index => ∀ stage ∈ state.handlers[index]?, state.MayRun stage
  | .answer index answer =>
      ∀ stage ∈ state.handlers[index]?, state.MayResume stage answer
  | .insertBackfill => state.MayGive state.worker.gives
  | _ => True

instance instDecidableMayGive (given : Option (Task × Text)) :
    Decidable (state.MayGive given) :=
  inferInstanceAs (Decidable (∀ row ∈ given, state.db.unihash row.1 = none →
    ∀ stage ∈ state.handlers, ∀ answer ∈ stage.decided, answer.1 = row.1 →
      answer.2 = some row.2))

instance instDecidableMayRun (stage : Stage) : Decidable (state.MayRun stage) :=
  inferInstanceAs (Decidable (state.MayGive stage.gives ∧
    ∀ task ∈ stage.full, state.hasUpstream = false →
      state.db.unihash task ≠ none →
        ∃ row ∈ state.db.outhashes, row.task = task))

instance instDecidableMayResume (stage : Stage) (answer : Answer) :
    Decidable (state.MayResume stage answer) :=
  inferInstanceAs (Decidable (∀ asked ∈ stage.asks,
    ∀ unihash ∈ state.db.unihash asked.1,
      answer.found.isSome ∨ asked.2 → answer.found = some unihash))

instance instDecidableUndisturbed :
    (action : Action) → Decidable (state.Undisturbed action)
  | .run index => inferInstanceAs (Decidable (
      ∀ stage ∈ state.handlers[index]?, state.MayRun stage))
  | .answer index answer => inferInstanceAs (Decidable (
      ∀ stage ∈ state.handlers[index]?, state.MayResume stage answer))
  | .insertBackfill =>
      inferInstanceAs (Decidable (state.MayGive state.worker.gives))
  | .request _ | .fail _ | .takeBackfill | .answerBackfill _ | .gcMark _ _
  | .gcSweep _ | .remove _ => isTrue trivial

variable {state}

theorem run_agrees {stage next : Stage} {after : Database}
    (ran : stage.run state.hasUpstream state.db = some (after, next))
    (may : state.MayRun stage) (agrees : state.db.Agrees stage.decided) :
    after.Agrees next.decided := by
  cases stage with
  | insertOuthash data user created =>
      cases ran
      exact Database.agrees_none
  | findEquivalent data =>
      simp only [Stage.run] at ran
      split at ran <;> cases ran
      · exact Database.agrees_none
      · split <;> exact Database.agrees_none
  | insertEquivalent | insertReported | insertEquiv =>
      cases ran
      exact Database.agrees_none
  | lookup | lookupStream =>
      simp only [Stage.run] at ran
      split at ran <;> rename_i found <;> cases ran
      · exact Database.agrees_known found
      · split
        · exact Database.agrees_none
        · exact Database.agrees_absent found
  | insertAnswer | insertFullUnihash =>
      cases ran
      refine agrees.addUnihash fun _ decided isDecided _ => ?_
      cases isDecided
      rfl
  | lookupFull task =>
      simp only [Stage.run] at ran
      split at ran <;> rename_i found <;> cases ran
      · exact Database.agrees_known (Database.unihash_of_full found)
      · split
        · exact Database.agrees_none
        · rename_i noUpstream
          apply Database.agrees_absent
          by_contra known
          obtain ⟨row, member, rfl⟩ :=
            may.2 task rfl (by simpa using noUpstream) known
          obtain ⟨unihash, known⟩ := Option.ne_none_iff_exists'.mp known
          have listed : ∃ best, state.db.oldest (fun other =>
              other.method = row.task.method ∧
                other.taskhash = row.task.taskhash) = some best :=
            Database.oldest_of_joined member (decide_eq_true ⟨rfl, rfl⟩) known
          obtain ⟨best, isBest⟩ := listed
          rw [Database.getUnihashByTaskhashFull, isBest] at found
          cases found
  | insertFullOuthash task answer =>
      cases ran
      exact agrees.mono fun _ _ known => by
        rwa [Database.unihash_insertOuthash] at known
  | lookupEquiv task =>
      simp only [Stage.run] at ran
      split at ran <;> rename_i found <;> cases ran
      · exact Database.agrees_known found
      · exact Database.agrees_none
  | queueBackfill task unihash =>
      cases ran
      exact agrees
  | reply task unihash =>
      cases ran
      exact Database.agrees_none
  | askOuthash | askTaskhash | askFull | askStream | replied | failed =>
      cases ran

theorem resume_agrees {stage next : Stage} {answer : Answer}
    (resumed : stage.resume answer = some next)
    (may : state.MayResume stage answer) : state.db.Agrees next.decided := by
  have sent {asked : Task × Bool} (isAsked : stage.asks = some asked)
      (answers : answer.found.isSome ∨ asked.2) :
      state.db.Agrees (some (asked.1, answer.found)) := by
    rintro _ ⟨⟩ unihash known
    exact may asked isAsked unihash known answers
  cases stage with
  | askOuthash data =>
      cases answer <;> cases resumed
      exact Database.agrees_none
  | askTaskhash task =>
      cases answer with
      | taskhash answer =>
          cases answer with
          | none =>
              cases resumed
              exact Database.agrees_none
          | some data =>
              cases resumed
              exact sent rfl (.inl rfl)
      | unihash | full => cases resumed
  | askFull task =>
      cases answer with
      | full answer =>
          cases answer <;> cases resumed <;> exact sent rfl (.inr rfl)
      | unihash | taskhash => cases resumed
  | askStream task =>
      cases answer with
      | unihash answer =>
          obtain _ | _ | ⟨char, rest⟩ := answer <;> cases resumed <;>
            exact sent rfl (.inr rfl)
      | taskhash | full => cases resumed
  | _ => cases resumed

theorem eq_reply_of_run {hasUpstream : Bool} {stage : Stage}
    {db after : Database} {task : Task} {found : Option Text}
    (ran : stage.run hasUpstream db = some (after, .replied task found)) :
    stage = .reply task found := by
  cases stage <;> grind [Stage.run]

theorem not_resume_replied {stage : Stage} {answer : Answer} {task : Task}
    {found : Option Text} :
    stage.resume answer ≠ some (.replied task found) := by
  intro resumed
  unfold Stage.resume at resumed
  split at resumed <;> try split at resumed
  all_goals cases resumed

/-- The tasks of the database are unique, and it agrees with the answers on
their way. -/
structure Fits (state : State) (db : Database) : Prop where
  unique : db.UniqueTasks
  agrees : ∀ stage ∈ state.handlers, db.Agrees stage.decided

namespace Fits

variable {db after : Database} {next : State} {action : Action}

theorem addUnihash (fits : state.Fits state.db) {task : Task} {unihash : Text}
    (may : state.MayGive (some (task, unihash))) :
    state.Fits (state.db.addUnihash task unihash) where
  unique := fits.unique.addUnihash task unihash
  agrees := fun stage member => (fits.agrees stage member).addUnihash
    fun absent answer isAnswer same =>
      may _ rfl absent stage member answer isAnswer same

theorem markRows (fits : state.Fits db) (mark : Text) (condition : Condition) :
    state.Fits (db.markRows mark condition) where
  unique := fits.unique.markRows mark condition
  agrees := fun stage member => (fits.agrees stage member).mono
    fun _ _ known => by rwa [Database.unihash_markRows] at known

theorem fewer (fits : state.Fits db)
    (rows : after.unihashes.Sublist db.unihashes) : state.Fits after where
  unique := fits.unique.sublist (rows.map _)
  agrees := by
    intro stage member
    apply (fits.agrees stage member).mono
    intro task unihash known
    rw [Database.unihash_eq_some (fits.unique.sublist (rows.map _))] at known
    obtain ⟨row, rowMember, keys⟩ := known
    exact (Database.unihash_eq_some fits.unique).mpr
      ⟨row, rows.subset rowMember, keys⟩

theorem run (fits : state.Fits state.db) {stage later : Stage}
    (ran : stage.run state.hasUpstream state.db = some (after, later))
    (may : state.MayGive stage.gives) : state.Fits after := by
  obtain ⟨-, -, rfl⟩ | ⟨task, unihash, gives, -, rfl⟩ | ⟨row, -, -, rfl⟩ :=
    Stage.run_db ran
  · exact fits
  · rw [gives] at may
    exact fits.addUnihash may
  · apply fits.fewer
    rw [Database.unihashes_insertOuthash]

theorem stay (fits : state.Fits db)
    (handlers : next.handlers = state.handlers) :
    next.Fits db :=
  ⟨fits.unique, handlers ▸ fits.agrees⟩

theorem goOn (fits : state.Fits db) {index : ℕ} {later : Stage}
    (handlers : next.handlers = state.handlers.set index later)
    (agrees : db.Agrees later.decided) : next.Fits db := by
  refine ⟨fits.unique, fun stage member => ?_⟩
  rw [handlers] at member
  obtain old | rfl := List.mem_or_eq_of_mem_set member
  · exact fits.agrees stage old
  · exact agrees

theorem perform (fits : state.Fits state.db) (may : state.Undisturbed action)
    (performed : state.perform action = some next) : next.Fits next.db := by
  cases performs performed with
  | request request db handlers =>
      rw [db]
      refine ⟨fits.unique, fun stage member => ?_⟩
      rw [handlers] at member
      obtain old | new := List.mem_append.mp member
      · exact fits.agrees stage old
      · rw [List.mem_singleton.mp new]
        cases request <;> exact Database.agrees_none
  | run isStage ran handlers =>
      have mayRun := may _ isStage
      exact (fits.run ran mayRun.1).goOn handlers
        (run_agrees ran mayRun (fits.agrees _ (List.mem_of_getElem? isStage)))
  | answer isStage resumed db handlers =>
      rw [db]
      exact fits.goOn handlers (resume_agrees resumed (may _ isStage))
  | fail isStage db handlers =>
      rw [db]
      exact fits.goOn handlers Database.agrees_none
  | waits action_eq db handlers =>
      rw [db]
      exact fits.stay handlers
  | insertBackfill gives db handlers =>
      rw [db]
      exact (fits.addUnihash (gives ▸ may)).stay handlers
  | gcMark db handlers =>
      rw [db]
      exact (fits.markRows _ _).stay handlers
  | removes removes rows handlers => exact (fits.fewer rows).stay handlers

/-- A handler that has replied had done so before, or its answer is that of the
table. -/
theorem answered (fits : state.Fits state.db)
    (performed : state.perform action = some next) {index : ℕ} {task : Task}
    {found : Option Text}
    (done : next.handlers[index]? = some (.replied task found)) :
    state.handlers[index]? = some (.replied task found) ∨
      state.db.Agrees (some (task, found)) := by
  have among {other : ℕ} {later : Stage}
      (handlers : next.handlers = state.handlers.set other later)
      (sends : later = .replied task found →
        state.handlers[other]? = some (.reply task found)) :
      state.handlers[index]? = some (Stage.replied task found) ∨
        state.db.Agrees (some (task, found)) := by
    rw [handlers] at done
    by_cases same : other = index
    · subst same
      rw [List.getElem?_set_self'] at done
      obtain ⟨old, isOld, isStage⟩ := Option.map_eq_some_iff.mp done
      exact .inr (fits.agrees _ (List.mem_of_getElem? (sends isStage)))
    · rw [List.getElem?_set_ne same] at done
      exact .inl done
  cases performs performed with
  | request request db handlers =>
      rw [handlers, List.getElem?_append] at done
      split_ifs at done
      · exact .inl done
      · have isNew := List.mem_of_getElem? done
        cases request <;> cases List.mem_singleton.mp isNew
  | run isStage ran handlers =>
      apply among handlers
      rintro rfl
      rw [isStage, eq_reply_of_run ran]
  | answer isStage resumed db handlers =>
      apply among handlers
      rintro rfl
      exact absurd resumed not_resume_replied
  | fail isStage db handlers => exact among handlers nofun
  | waits action_eq db handlers => exact .inl (handlers ▸ done)
  | insertBackfill gives db handlers => exact .inl (handlers ▸ done)
  | gcMark db handlers => exact .inl (handlers ▸ done)
  | removes removes rows handlers => exact .inl (handlers ▸ done)

end Fits

theorem keeps_row {next : State} {action : Action} {row : UnihashRow}
    (performed : state.perform action = some next) (serves : action.serves)
    (member : row ∈ state.db.unihashes) : row ∈ next.db.unihashes := by
  obtain same | ⟨_, _, given⟩ | ⟨_, inserted⟩ | ⟨_, _, rfl, _⟩ | removes :=
    perform_db performed
  · rwa [same]
  · rw [given]
    exact Database.mem_addUnihash member _ _
  · rwa [inserted, Database.unihashes_insertOuthash]
  · cases serves
  · cases action with
    | gcSweep | remove => cases serves
    | _ => exact removes.elim

/-- A row and the answers about its task from then on. -/
structure Stable (row : UnihashRow) (middle final : State) : Prop where
  kept : row ∈ final.db.unihashes
  alone : final.db.UniqueTasks
  answered : ∀ (index : ℕ) (found : Option Text),
    final.handlers[index]? =
      some (Stage.replied ⟨row.method, row.taskhash⟩ found) →
    middle.handlers[index]? =
      some (Stage.replied ⟨row.method, row.taskhash⟩ found) ∨
      found = some row.unihash

/-- From the moment a task has a row, the row stays as it is, and every later
answer about the task has its unihash. -/
theorem rows_stable {start middle final : State} (started : Start start)
    (before : Reachable (· = start) Step Undisturbed middle)
    {row : UnihashRow} (member : row ∈ middle.db.unihashes)
    (later : Reachable (· = middle) Step
      (fun state action => state.Undisturbed action ∧ action.serves) final) :
    Stable row middle final := by
  have fits : middle.Fits middle.db := by
    refine @Reachable.invariant _ _ _ _ _ _ (fun state => state.Fits state.db)
      ?_ (fun _ _ _ fits may performed => fits.perform may performed) before
    intro state isStart
    rw [isStart]
    exact ⟨started.uniqueTasks, by simp [started.idle]⟩
  have stable : final.Fits final.db ∧ Stable row middle final := by
    refine @Reachable.invariant _ _ _ _ _ _
      (fun state => state.Fits state.db ∧ Stable row middle state) ?_ ?_ later
    · intro state isMiddle
      rw [isMiddle]
      exact ⟨fits, member, fits.unique, fun _ _ => .inl⟩
    · intro state action next ⟨fits, stable⟩ ⟨may, serves⟩ performed
      have after := fits.perform may performed
      refine ⟨after, keeps_row performed serves stable.kept, after.unique, ?_⟩
      intro index found done
      obtain earlier | agrees := fits.answered performed done
      · exact stable.answered index found earlier
      · right
        exact agrees _ rfl _ ((Database.unihash_eq_some fits.unique).mpr
          ⟨row, stable.kept, rfl, rfl, rfl⟩)
  exact stable.2

theorem uniqueTasks_perform {state next : State} {action : Action}
    (performed : state.perform action = some next)
    (unique : state.db.UniqueTasks) : next.db.UniqueTasks := by
  cases performs performed with
  | run isStage ran =>
      obtain ⟨-, -, db⟩ | ⟨_, _, -, -, db⟩ | ⟨row, -, -, db⟩ :=
        Stage.run_db ran
      · rwa [db]
      · exact db ▸ unique.addUnihash _ _
      · rwa [db, Database.UniqueTasks, Database.unihashes_insertOuthash]
  | insertBackfill _ db => exact db ▸ unique.addUnihash _ _
  | gcMark db => exact db ▸ unique.markRows _ _
  | removes _ rows => exact unique.sublist (rows.map _)
  | request _ db | answer _ _ db | fail _ db | waits _ db => rwa [db]

/-- However the handlers interleave and whatever is marked or removed, no task
has two rows; and until rows are removed, its unihash stays the table's. -/
theorem unihash_kept {middle final : State} {task : Task} {unihash : Text}
    (before : Reachable Start Step (fun _ _ => True) middle)
    (known : middle.db.unihash task = some unihash)
    (later : Reachable (· = middle) Step
      (fun _ action => ¬ action.removes) final) :
    final.db.UniqueTasks ∧ final.db.unihash task = some unihash := by
  have unique : middle.db.UniqueTasks := by
    refine @Reachable.invariant _ _ _ _ _ _ (fun state => state.db.UniqueTasks)
      (fun _ started => started.uniqueTasks) ?_ before
    exact fun _ _ _ unique _ performed => uniqueTasks_perform performed unique
  apply later.invariant
  · rintro _ rfl
    exact ⟨unique, known⟩
  · intro _ _ _ held stays performed
    exact ⟨uniqueTasks_perform performed held.1,
      unihash_stays performed stays held.2⟩

section Runs

def taskOf (taskhash : String) : Task :=
  ⟨"m".toList, taskhash.toList⟩

/-- Nothing is stored yet. -/
def fresh (hasUpstream : Bool) : State :=
  ⟨.empty, hasUpstream, [], [], .idle⟩

theorem start_fresh (hasUpstream : Bool) : Start (fresh hasUpstream) :=
  ⟨rfl, rfl, rfl, by simp [fresh, Database.empty]⟩

/-- The row that a first `report-equiv` of a task inserts. -/
def firstRow : UnihashRow :=
  ⟨1, "m".toList, "a".toList, "u".toList, []⟩

/-- The server after `report-equiv`, with the stages of the handlers. -/
def given (hasUpstream : Bool) (handlers : List Stage) : State :=
  ⟨⟨[firstRow], [], 2, none⟩, hasUpstream, handlers, [], .idle⟩

/-- A `get` after the row was inserted. -/
theorem rows_stable_in_turn :
    Stable firstRow (given false [.lookupEquiv (taskOf "a")])
      (given false [.lookupEquiv (taskOf "a"),
        .replied (taskOf "a") (some "u".toList)]) := by
  have before : follow perform Undisturbed
      [.request (.reportEquiv (taskOf "a") "u".toList), .run 0] (fresh false) =
      some (given false [.lookupEquiv (taskOf "a")]) := by rfl
  have later : follow perform
      (fun state action => state.Undisturbed action ∧ action.serves)
      [.request (.get (taskOf "a")), .run 1, .run 1]
      (given false [.lookupEquiv (taskOf "a")]) =
      some (given false [.lookupEquiv (taskOf "a"),
        .replied (taskOf "a") (some "u".toList)]) := by rfl
  exact rows_stable (start_fresh false)
    (.follow (fun _ _ _ performed => performed) _ (.start rfl) before)
    List.mem_cons_self
    (.follow (fun _ _ _ performed => performed) _ (.start rfl) later)

/-- The upstream server is asked before the row is there and answers after. -/
theorem not_rows_stable_overtaken :
    ¬ ∀ start middle final : State, Start start →
      Reachable (· = start) Step (fun _ action => action.serves) middle →
      ∀ row ∈ middle.db.unihashes,
      Reachable (· = middle) Step (fun _ action => action.serves) final →
      Stable row middle final := by
  intro claimed
  have before : follow perform (fun _ action => action.serves)
      [.request (.get (taskOf "a")), .run 0,
        .request (.reportEquiv (taskOf "a") "u".toList), .run 1] (fresh true) =
      some (given true [.askTaskhash (taskOf "a"),
        .lookupEquiv (taskOf "a")]) := by
    rfl
  have later : follow perform (fun _ action => action.serves)
      [.answer 0 (.taskhash (some ⟨taskOf "a", "other".toList⟩)), .run 0,
        .run 0]
      (given true [.askTaskhash (taskOf "a"), .lookupEquiv (taskOf "a")]) =
      some (given true [.replied (taskOf "a") (some "other".toList),
        .lookupEquiv (taskOf "a")]) := by
    rfl
  have stable := claimed _ _ _ (start_fresh true)
    (.follow (fun _ _ _ performed => performed) _ (.start rfl) before)
    firstRow List.mem_cons_self
    (.follow (fun _ _ _ performed => performed) _ (.start rfl) later)
  obtain earlier | same := stable.answered 0 _ rfl
  · cases earlier
  · revert same
    decide

theorem unihash_kept_asked :
    ∃ final, (given false []).perform (.request (.get (taskOf "a"))) =
        some final ∧ final.db.UniqueTasks ∧
      final.db.unihash (taskOf "a") = some "u".toList := by
  have before : Start (given false []) := ⟨rfl, rfl, rfl, by decide⟩
  have asked : Step (given false []) (.request (.get (taskOf "a"))) _ := rfl
  exact ⟨_, asked, unihash_kept (.start before) rfl
    (.step (.start rfl) id asked)⟩

end Runs

end State

end Nvbmc.HashServ
