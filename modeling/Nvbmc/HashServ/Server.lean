import Nvbmc.HashServ.Database

/-!
# The requests of a hash equivalence server

A handler of a connection and the backfill worker run until their next `await`,
a statement on the database or a question to the upstream server, and any other
of them may go on in between.  `Stage` is where a handler waits, with the values
it keeps.  An answer of the upstream server is part of the action, so that it
may be anything.
-/

namespace Nvbmc.HashServ

open Nvbmc.Library

structure Task where
  method : Text
  taskhash : Text
  deriving DecidableEq

def OuthashRow.task (row : OuthashRow) : Task :=
  ⟨row.method, row.taskhash⟩

/-- The data of a `report` message. -/
structure ReportData where
  task : Task
  outhash : Text
  unihash : Text
  info : OuthashInfo
  deriving DecidableEq

/-- The upstream server's answer to `get_taskhash`. -/
structure TaskhashData where
  task : Task
  unihash : Text
  deriving DecidableEq

/-- The upstream server's answer to `get_taskhash` with all columns. -/
structure FullData where
  row : OuthashRow
  unihash : Text
  deriving DecidableEq

def FullData.task (data : FullData) : Task :=
  data.row.task

namespace Database

variable (db : Database)

def unihash (task : Task) : Option Text :=
  db.getEquivalent task.method task.taskhash

def addUnihash (task : Task) (unihash : Text) : Database :=
  db.insertUnihash task.method task.taskhash unihash

variable {db}

theorem unihash_addUnihash_self (task : Task) (unihash : Text) :
    (db.addUnihash task unihash).unihash task =
      some ((db.unihash task).getD unihash) := by
  simp only [addUnihash, Database.unihash, insertUnihash, getEquivalent]
  cases found : db.findUnihash task.method task.taskhash with
  | some row => simp [found]
  | none =>
      simp only [findUnihash, List.find?_append] at found ⊢
      rw [found]
      simp

theorem unihash_addUnihash_of_ne {task other : Task} (unihash : Text)
    (different : other ≠ task) :
    (db.addUnihash task unihash).unihash other = db.unihash other := by
  have apart :
      ¬ (task.method = other.method ∧ task.taskhash = other.taskhash) :=
    fun ⟨methods, taskhashes⟩ => different (by
      cases task
      cases other
      simp_all)
  simp only [addUnihash, Database.unihash, insertUnihash, getEquivalent]
  cases found : db.findUnihash task.method task.taskhash with
  | some row => rfl
  | none => simp [findUnihash, List.find?_append, apart]

@[simp] theorem outhashes_addUnihash (task : Task) (unihash : Text) :
    (db.addUnihash task unihash).outhashes = db.outhashes := by
  simp only [addUnihash, insertUnihash]
  split <;> rfl

@[simp] theorem unihash_markRows (mark : Text) (condition : Condition)
    (task : Task) :
    (db.markRows mark condition).unihash task = db.unihash task := by
  simp only [Database.unihash, getEquivalent, findUnihash, markRows,
    List.find?_map, Option.map_map]
  have keys : (fun row : UnihashRow => decide (row.method = task.method ∧
      row.taskhash = task.taskhash)) ∘ (fun row =>
        if condition.unihashRow row then { row with gcMark := mark } else row) =
      fun row => decide (row.method = task.method ∧
        row.taskhash = task.taskhash) := by
    funext row
    simp only [Function.comp_apply]
    split <;> rfl
  rw [keys]
  congr 1
  funext row
  simp only [Function.comp_apply]
  split <;> rfl

@[simp] theorem unihash_insertOuthash (row : OuthashRow) (task : Task) :
    (db.insertOuthash row).unihash task = db.unihash task := by
  rw [insertOuthash]
  split <;> rfl

@[simp] theorem unihashes_insertOuthash (row : OuthashRow) :
    (db.insertOuthash row).unihashes = db.unihashes := by
  rw [insertOuthash]
  split <;> rfl

theorem unihash_addUnihash_of_some {task other : Task} {unihash old : Text}
    (known : db.unihash other = some old) :
    (db.addUnihash task unihash).unihash other = some old := by
  by_cases same : other = task
  · subst same
    rw [unihash_addUnihash_self, known]
    rfl
  · rwa [unihash_addUnihash_of_ne unihash same]

theorem unihash_addUnihash_ne_none {task : Task} {unihash : Text} :
    (db.addUnihash task unihash).unihash task ≠ none := by
  rw [unihash_addUnihash_self]
  exact Option.some_ne_none _

end Database

/-- The row a report inserts; the name of a logged in user replaces the
owner. -/
def ReportData.row (data : ReportData) (user : Option Text) (created : Text) :
    OuthashRow where
  method := data.task.method
  taskhash := data.task.taskhash
  outhash := data.outhash
  created := some created
  info := { data.info with owner := user <|> data.info.owner }

inductive Request where
  /-- `report`, by a client with report permission, with the time it came. -/
  | report (data : ReportData) (user : Option Text) (created : Text)
  | reportEquiv (task : Task) (unihash : Text)
  | get (task : Task)
  /-- `get` with `all`. -/
  | getAll (task : Task)
  /-- One line of `get-stream`. -/
  | getStream (task : Task)

inductive Stage where
  /-- `handle_report` before `insert_outhash`. -/
  | insertOuthash (data : ReportData) (user : Option Text) (created : Text)
  | findEquivalent (data : ReportData)
  | askOuthash (data : ReportData)
  /-- Before `insert_unihash` with the unihash of an equivalent task. -/
  | insertEquivalent (data : ReportData) (unihash : Text)
  /-- Before `insert_unihash` with another unihash, the client's or the
  upstream server's. -/
  | insertReported (data : ReportData) (unihash : Text)
  /-- `get_unihash`; a report proposes a unihash for the case of none. -/
  | lookup (task : Task) (proposed : Option Text)
  | askTaskhash (task : Task)
  | insertAnswer (task : Task) (answer : TaskhashData)
  /-- `get_unihash` with all columns. -/
  | lookupFull (task : Task)
  | askFull (task : Task)
  | insertFullUnihash (task : Task) (answer : FullData)
  | insertFullOuthash (task : Task) (answer : FullData)
  /-- `handle_equivreport`. -/
  | insertEquiv (task : Task) (unihash : Text)
  | lookupEquiv (task : Task)
  /-- The handler of `handle_get_stream`. -/
  | lookupStream (task : Task)
  | askStream (task : Task)
  | queueBackfill (task : Task) (unihash : Text)
  /-- Before the answer about the task is sent. -/
  | reply (task : Task) (unihash : Option Text)
  | replied (task : Task) (unihash : Option Text)
  /-- An exception ended the connection. -/
  | failed
  deriving DecidableEq

def Request.begin : Request → Stage
  | .report data user created => .insertOuthash data user created
  | .reportEquiv task unihash => .insertEquiv task unihash
  | .get task => .lookup task none
  | .getAll task => .lookupFull task
  | .getStream task => .lookupStream task

/-- A statement on the database and what follows it up to the next `await`. -/
def Stage.run (hasUpstream : Bool) (db : Database) :
    Stage → Option (Database × Stage)
  | .insertOuthash data user created =>
      some (db.insertOuthash (data.row user created), .findEquivalent data)
  | .findEquivalent data =>
      match db.getEquivalentForOuthash data.task.method data.outhash
        data.task.taskhash with
      | some unihash => some (db, .insertEquivalent data unihash)
      | none => some (db, if hasUpstream then .askOuthash data
          else .insertReported data data.unihash)
  | .insertEquivalent data unihash | .insertReported data unihash =>
      some (db.addUnihash data.task unihash,
        .lookup data.task (some data.unihash))
  | .lookup task proposed =>
      match db.unihash task with
      | some unihash => some (db, .reply task (some unihash))
      | none => some (db, if hasUpstream then .askTaskhash task
          else .reply task proposed)
  | .insertAnswer task answer =>
      some (db.addUnihash answer.task answer.unihash,
        .reply task (some answer.unihash))
  | .lookupFull task =>
      match db.getUnihashByTaskhashFull task.method task.taskhash with
      | some unihash => some (db, .reply task (some unihash))
      | none => some (db, if hasUpstream then .askFull task
          else .reply task none)
  | .insertFullUnihash task answer =>
      some (db.addUnihash answer.task answer.unihash,
        .insertFullOuthash task answer)
  | .insertFullOuthash task answer =>
      some (db.insertOuthash answer.row, .reply task (some answer.unihash))
  | .insertEquiv task unihash =>
      some (db.addUnihash task unihash, .lookupEquiv task)
  | .lookupEquiv task =>
      match db.unihash task with
      | some unihash => some (db, .reply task (some unihash))
      | none => some (db, .failed)
  | .lookupStream task =>
      match db.unihash task with
      | some unihash => some (db, .reply task (some unihash))
      | none => some (db, if hasUpstream then .askStream task
          else .reply task none)
  | .queueBackfill task unihash => some (db, .reply task (some unihash))
  | .reply task unihash => some (db, .replied task unihash)
  | _ => none

/-- The arguments of the stage's `insert_unihash`. -/
def Stage.gives : Stage → Option (Task × Text)
  | .insertEquivalent data unihash | .insertReported data unihash =>
      some (data.task, unihash)
  | .insertAnswer _ answer => some (answer.task, answer.unihash)
  | .insertFullUnihash _ answer => some (answer.task, answer.unihash)
  | .insertEquiv task unihash => some (task, unihash)
  | _ => none

/-- The argument of the stage's `insert_outhash`. -/
def Stage.inserts : Stage → Option OuthashRow
  | .insertOuthash data user created => some (data.row user created)
  | .insertFullOuthash _ answer => some answer.row
  | _ => none

theorem Stage.run_db {hasUpstream : Bool} {db after : Database}
    {stage next : Stage}
    (performed : stage.run hasUpstream db = some (after, next)) :
    (stage.gives = none ∧ stage.inserts = none ∧ after = db) ∨
    (∃ task unihash, stage.gives = some (task, unihash) ∧
      stage.inserts = none ∧ after = db.addUnihash task unihash) ∨
    (∃ row, stage.gives = none ∧ stage.inserts = some row ∧
      after = db.insertOuthash row) := by
  cases stage <;> simp only [Stage.run] at performed <;>
    try split at performed
  all_goals cases performed <;> simp [Stage.gives, Stage.inserts]

def Stage.queued : Stage → List Task
  | .queueBackfill task _ => [task]
  | _ => []

def Stage.ended : Stage → Bool
  | .replied _ _ | .failed => true
  | _ => false

inductive Answer where
  /-- The unihash of `get_outhash` or of `get_unihash`. -/
  | unihash (unihash : Option Text)
  | taskhash (answer : Option TaskhashData)
  | full (answer : Option FullData)

def Stage.resume : Stage → Answer → Option Stage
  | .askOuthash data, .unihash answer =>
      some (.insertReported data (answer.getD data.unihash))
  | .askTaskhash task, .taskhash (some answer) =>
      some (.insertAnswer task answer)
  -- `None["method"]`
  | .askTaskhash _, .taskhash none => some .failed
  | .askFull task, .full (some answer) => some (.insertFullUnihash task answer)
  | .askFull task, .full none => some (.reply task none)
  | .askStream task, .unihash answer =>
      match answer with
      | none | some [] => some (.reply task none)
      | some unihash => some (.queueBackfill task unihash)
  | _, _ => none

/-- `backfill_worker_task`. -/
inductive Worker where
  | idle
  | asking
  | inserting (answer : TaskhashData)

/-- The arguments of the worker's `insert_unihash`. -/
def Worker.gives : Worker → Option (Task × Text)
  | .inserting answer => some (answer.task, answer.unihash)
  | _ => none

structure State where
  db : Database
  hasUpstream : Bool
  /-- The stage of every request, in the order they came. -/
  handlers : List Stage
  queue : List Task
  worker : Worker

inductive Action where
  | request (request : Request)
  | run (index : ℕ)
  | answer (index : ℕ) (answer : Answer)
  /-- An `await` of the handler raises. -/
  | fail (index : ℕ)
  | takeBackfill
  | answerBackfill (answer : Option TaskhashData)
  | insertBackfill
  | gcMark (mark : Text) (condition : Condition)
  | gcSweep (mark : Text)
  | remove (condition : Condition)

def Action.removes : Action → Prop
  | .gcSweep _ | .remove _ => True
  | _ => False

namespace State

def perform (state : State) : Action → Option State
  | .request request =>
      some { state with handlers := state.handlers ++ [request.begin] }
  | .run index => do
      let stage ← state.handlers[index]?
      let (db, next) ← stage.run state.hasUpstream state.db
      some { state with
        db := db
        handlers := state.handlers.set index next
        queue := state.queue ++ stage.queued }
  | .answer index answer => do
      let stage ← state.handlers[index]?
      let next ← stage.resume answer
      some { state with handlers := state.handlers.set index next }
  | .fail index => do
      let stage ← state.handlers[index]?
      if stage.ended then none
      else some { state with handlers := state.handlers.set index .failed }
  | .takeBackfill =>
      match state.worker, state.queue with
      | .idle, _ :: queue =>
          some { state with queue := queue, worker := .asking }
      | _, _ => none
  | .answerBackfill answer =>
      match state.worker with
      | .asking =>
          let worker : Worker :=
            match answer with
            | none => .idle
            | some answer => .inserting answer
          some { state with worker := worker }
      | _ => none
  | .insertBackfill =>
      match state.worker with
      | .inserting answer =>
          some { state with
            db := state.db.addUnihash answer.task answer.unihash
            worker := .idle }
      | _ => none
  | .gcMark mark condition =>
      some { state with db := state.db.markRows mark condition }
  | .gcSweep mark =>
      some { state with db := (state.db.handleGcSweep mark).getD state.db }
  | .remove condition => some { state with db := state.db.remove condition }

def Step (state : State) (action : Action) (next : State) : Prop :=
  state.perform action = some next

/-- What an action does: one handler at most goes on. -/
inductive Performs (state next : State) : Action → Prop where
  | request (request : Request) (db : next.db = state.db)
      (handlers : next.handlers = state.handlers ++ [request.begin]) :
      Performs state next (.request request)
  | run {index : ℕ} {stage later : Stage}
      (isStage : state.handlers[index]? = some stage)
      (ran : stage.run state.hasUpstream state.db = some (next.db, later))
      (handlers : next.handlers = state.handlers.set index later) :
      Performs state next (.run index)
  | answer {index : ℕ} {answer : Answer} {stage later : Stage}
      (isStage : state.handlers[index]? = some stage)
      (resumed : stage.resume answer = some later) (db : next.db = state.db)
      (handlers : next.handlers = state.handlers.set index later) :
      Performs state next (.answer index answer)
  | fail {index : ℕ} {stage : Stage}
      (isStage : state.handlers[index]? = some stage) (db : next.db = state.db)
      (handlers : next.handlers = state.handlers.set index .failed) :
      Performs state next (.fail index)
  | waits {action : Action}
      (action_eq : action = .takeBackfill ∨ ∃ answer,
        action = .answerBackfill answer)
      (db : next.db = state.db) (handlers : next.handlers = state.handlers) :
      Performs state next action
  | insertBackfill {task : Task} {unihash : Text}
      (gives : state.worker.gives = some (task, unihash))
      (db : next.db = state.db.addUnihash task unihash)
      (handlers : next.handlers = state.handlers) :
      Performs state next .insertBackfill
  | gcMark {mark : Text} {condition : Condition}
      (db : next.db = state.db.markRows mark condition)
      (handlers : next.handlers = state.handlers) :
      Performs state next (.gcMark mark condition)
  | removes {action : Action} (removes : action.removes)
      (rows : next.db.unihashes.Sublist state.db.unihashes)
      (handlers : next.handlers = state.handlers) :
      Performs state next action

variable {state next : State} {action : Action}

theorem performs (performed : state.perform action = some next) :
    Performs state next action := by
  cases action with
  | request request =>
      cases performed
      exact .request request rfl rfl
  | run index =>
      simp only [perform, Option.bind_eq_bind, Option.bind_eq_some_iff,
        Option.some.injEq] at performed
      obtain ⟨stage, isStage, ⟨after, later⟩, ran, rfl⟩ := performed
      exact .run isStage ran rfl
  | answer index answer =>
      simp only [perform, Option.bind_eq_bind, Option.bind_eq_some_iff,
        Option.some.injEq] at performed
      obtain ⟨stage, isStage, later, resumed, rfl⟩ := performed
      exact .answer isStage resumed rfl rfl
  | fail index =>
      simp only [perform, Option.bind_eq_bind, Option.bind_eq_some_iff]
        at performed
      obtain ⟨stage, isStage, performed⟩ := performed
      split_ifs at performed
      cases performed
      exact .fail isStage rfl rfl
  | takeBackfill =>
      simp only [perform] at performed
      split at performed <;> cases performed
      exact .waits (.inl rfl) rfl rfl
  | answerBackfill answer =>
      simp only [perform] at performed
      split at performed <;> cases performed
      exact .waits (.inr ⟨answer, rfl⟩) rfl rfl
  | insertBackfill =>
      simp only [perform] at performed
      split at performed
      · rename_i answer inserting
        cases performed
        exact .insertBackfill (congrArg Worker.gives inserting) rfl rfl
      · cases performed
  | gcMark mark condition =>
      cases performed
      exact .gcMark rfl rfl
  | gcSweep mark =>
      cases performed
      refine .removes trivial ?_ rfl
      simp only [Database.handleGcSweep]
      split
      · exact List.Sublist.refl _
      · rename_i current marked
        split_ifs
        · exact List.Sublist.refl _
        · simp only [Option.getD_some, Database.sweep, marked]
          exact List.filter_sublist
  | remove condition =>
      cases performed
      exact .removes trivial List.filter_sublist rfl

theorem perform_db (performed : state.perform action = some next) :
    next.db = state.db ∨
    (∃ task unihash, next.db = state.db.addUnihash task unihash) ∨
    (∃ row, next.db = state.db.insertOuthash row) ∨
    (∃ mark condition, action = .gcMark mark condition ∧
      next.db = state.db.markRows mark condition) ∨
    action.removes := by
  cases performs performed with
  | run isStage ran =>
      obtain ⟨-, -, db⟩ | ⟨task, unihash, -, -, db⟩ | ⟨row, -, -, db⟩ :=
        Stage.run_db ran
      · exact .inl db
      · exact .inr (.inl ⟨task, unihash, db⟩)
      · exact .inr (.inr (.inl ⟨row, db⟩))
  | insertBackfill gives db => exact .inr (.inl ⟨_, _, db⟩)
  | gcMark db => exact .inr (.inr (.inr (.inl ⟨_, _, rfl, db⟩)))
  | removes removes => exact .inr (.inr (.inr (.inr removes)))
  | request request db => exact .inl db
  | answer isStage resumed db => exact .inl db
  | fail isStage db => exact .inl db
  | waits action_eq db => exact .inl db

theorem unihash_stays (performed : state.perform action = some next)
    (stays : ¬ action.removes) {task : Task} {unihash : Text}
    (known : state.db.unihash task = some unihash) :
    next.db.unihash task = some unihash := by
  obtain same | ⟨_, _, given⟩ | ⟨_, inserted⟩ | ⟨_, _, -, marked⟩ | removes :=
    perform_db performed
  · rwa [same]
  · rw [given]
    exact Database.unihash_addUnihash_of_some known
  · rwa [inserted, Database.unihash_insertOuthash]
  · rwa [marked, Database.unihash_markRows]
  · exact absurd removes stays

/-- The rows of the database may be any, but its keys are unique. -/
structure Start (state : State) : Prop where
  idle : state.handlers = []
  empty : state.queue = []
  waiting : state.worker = .idle
  uniqueTasks : (state.db.unihashes.map fun row =>
    (row.method, row.taskhash)).Nodup

end State

end Nvbmc.HashServ
