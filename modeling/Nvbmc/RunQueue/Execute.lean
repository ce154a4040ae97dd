import Nvbmc.Library.Runs
import Nvbmc.RunQueue.Migrations

/-!
# Executing the run queue

`execute` first looks for a setscene task to decide or to start and then asks
the scheduler for a real task.  Exit codes and unihash updates of the workers
arrive between the calls, in any order; `Step` interleaves them with
`execute`, `finish` and `finish_now`.
-/

namespace Nvbmc.RunQueue

/-- A part of `execute` that has raised an exception, has returned, or goes on
with a result. -/
inductive Flow (Tid : Type) (β : Type) where
  | raised
  | returned (s : RunQueueExecute Tid)
  | goOn (s : RunQueueExecute Tid) (result : β)

/-- What can happen to the run queue next. -/
inductive Action (Tid : Type) where
  | execute
  | waitpid (task : Tid) (status : ℤ)
  | taskUniHashUpdate (task : Tid) (unihash : Str)
  | finish
  | finishNow
deriving DecidableEq, Repr

def Action.Migrates {Tid : Type} : Action Tid → Prop
  | .taskUniHashUpdate _ _ => True
  | _ => False

instance {Tid : Type} (action : Action Tid) : Decidable action.Migrates :=
  match action with
  | .taskUniHashUpdate _ _ => .isTrue trivial
  | .execute => .isFalse id
  | .waitpid _ _ => .isFalse id
  | .finish => .isFalse id
  | .finishNow => .isFalse id

namespace Prepared

variable {Tid : Type} [LinearOrder Tid] (rq : Prepared Tid)

/-- One reverse dependency of a completed task. -/
def setbuildableRevdep (s : RunQueueExecute Tid) (revdep : Tid) :
    RunQueueExecute Tid :=
  if revdep ∈ s.runqRunning ∨ revdep ∈ s.runqBuildable then s
  else if rq.depends revdep ⊆ s.runqComplete then s.setbuildable revdep
  else s

/-- One deferred task behind a completed one: the first is checked again, the
others are deferred after it. -/
def releaseDeferred (task : Tid) (acc : RunQueueExecute Tid × Option Tid)
    (t : Tid) : RunQueueExecute Tid × Option Tid :=
  if acc.1.sqDeferred.get? t = some task then
    match acc.2 with
    | none =>
        (rq.updateScenequeueData [t]
          { acc.1 with sqDeferred := acc.1.sqDeferred.del t }, some t)
    | some found =>
        ({ acc.1 with sqDeferred := acc.1.sqDeferred.set t found }, some found)
  else acc

/-- `task_completeoutright`. -/
def taskCompleteoutright (task : Tid) (s : RunQueueExecute Tid) :
    RunQueueExecute Tid :=
  let s := (rq.revdeps task).foldl rq.setbuildableRevdep
    { s with runqComplete := s.runqComplete.insert task }
  ((sorted s.sqDeferred.keys).foldl (rq.releaseDeferred task) (s, none)).1

/-- `task_complete`. -/
def taskComplete (task : Tid) (s : RunQueueExecute Tid) :
    RunQueueExecute Tid :=
  let s := rq.taskCompleteoutright task
    ({ s with stats := s.stats.taskCompleted }.fire (.taskCompleted task))
  { s with runqTasksrun := s.runqTasksrun.insert task }

/-- `task_fail`. -/
def taskFail (task : Tid) (exitcode : ExitCode) (s : RunQueueExecute Tid) :
    RunQueueExecute Tid :=
  let s := { s with
    stats := s.stats.taskFailed
    failedTids := s.failedTids ++ [task] }.fire (.taskFailed task exitcode)
  if rq.halt then { s with state := .cleanUp } else s

/-- `task_skip`. -/
def taskSkip (task : Tid) (reason : SkipReason) (s : RunQueueExecute Tid) :
    RunQueueExecute Tid :=
  let s := { s with runqRunning := s.runqRunning.insert task }.setbuildable task
  let s := rq.taskCompleteoutright task (s.fire (.taskSkipped task reason))
  { s with stats := s.stats.taskSkipped.taskCompleted }

/-- `runqueue_process_waitpid`. -/
def runqueueProcessWaitpid (task : Tid) (status : ℤ)
    (s : RunQueueExecute Tid) : RunQueueExecute Tid :=
  let s := { s with
    workers := s.workers.erase task
    buildStamps := s.buildStamps.del task }
  if task ∈ s.sqLive then
    let s := if status ≠ 0 then rq.sqTaskFail task status s
      else rq.sqTaskComplete task s
    let sqLive := discard s.sqLive task
    { s with
      sqLive := sqLive
      stats := s.stats.updateActiveSetscene sqLive.length }
  else if status ≠ 0 then rq.taskFail task (.status status) s
  else rq.taskComplete task s

/-- How many running tasks have the given name, when it has a limit. -/
def skipBuildable (s : RunQueueExecute Tid) (taskname : Str) : ℕ :=
  ((s.runqRunning.filter (· ∉ s.runqComplete)).filter
    (rq.taskname · = taskname)).length

/-- The task name has reached its `number_threads`. -/
def exceedsThreads (s : RunQueueExecute Tid) (tid : Tid) : Bool :=
  match rq.numberThreads (rq.taskname tid) with
  | none => false
  | some limit =>
      let running := rq.skipBuildable s (rq.taskname tid)
      running ≠ 0 ∧ limit ≤ running

def schedStamp (tid : Tid) : Str :=
  rq.stampfileMcfn rq.initialUnihash false false tid

/-- Some running task has this stamp. -/
def stampInUse (s : RunQueueExecute Tid) (stamp : Str) : Bool :=
  s.buildStamps.any (·.2 = stamp)

/-- One candidate of the priority loop. -/
def betterTask (s : RunQueueExecute Tid) (best : Option Tid) (tid : Tid) :
    Option Tid :=
  if best.any (rq.revPrioMap · ≤ rq.revPrioMap tid) then best
  else if rq.exceedsThreads s tid then best
  else if stampInUse s (rq.schedStamp tid) then best
  else some tid

/-- The candidates of `next_buildable_task`. -/
def candidates (s : RunQueueExecute Tid) : List Tid :=
  s.schedBuildable.filter fun tid =>
    tid ∉ s.runqRunning ∧ tid ∉ s.holdoffTasks ∧
      (tid ∈ s.tasksCovered ∨ tid ∈ s.tasksNotcovered)

/-- `next_buildable_task`. -/
def nextBuildableTask (s : RunQueueExecute Tid) :
    Option Tid × RunQueueExecute Tid :=
  let s := { s with
    schedBuildable := s.schedBuildable.filter (· ∉ s.runqRunning) }
  let buildable := candidates s
  if buildable = [] then (none, s)
  else if s.stats.active ≠ 0 ∧ rq.world.exceedsMaxPressure s.consults then
    (none, s.consulted)
  else
    match buildable with
    | [tid] =>
        if rq.exceedsThreads s tid then (none, s.consulted)
        else if stampInUse s (rq.schedStamp tid) then (none, s.consulted)
        else (some tid, s.consulted)
    | _ => (buildable.foldl (rq.betterTask s) none, s.consulted)

/-- `sched.next`. -/
def schedNext (s : RunQueueExecute Tid) : Option Tid × RunQueueExecute Tid :=
  if rq.canStartTask s then rq.nextBuildableTask s else (none, s)

/-- The first test of the setscene loop. -/
def sceneCandidate (s : RunQueueExecute Tid) (nexttask : Tid) : Bool :=
  nexttask ∈ s.sqBuildable ∧ nexttask ∉ s.sqRunning ∧
    stampInUse s (s.stamps nexttask) = false ∧
    nexttask ∉ s.sqHarddepDeferred

def stillDeferred (s : RunQueueExecute Tid) (nexttask : Tid) : Bool :=
  (s.sqDeferred.get? nexttask).any (· ∉ s.runqComplete)

/-- The test for a setscene task nothing needs, up to `target_tids`. -/
def notNeeded (s : RunQueueExecute Tid) (nexttask : Tid) :
    Bool × RunQueueExecute Tid :=
  if nexttask ∉ rq.sqdata.unskippable ∧ rq.sqdata.sqRevdeps nexttask ≠ [] ∧
      nexttask ∉ s.sqNeededHarddeps ∧
      rq.sqdata.sqRevdeps nexttask ⊆ s.scenequeueCovered then
    rq.checkDependencies s nexttask (rq.sqdata.sqRevdeps nexttask)
  else (false, s)

def skipNotNeeded (nexttask : Tid) (s : RunQueueExecute Tid) :
    RunQueueExecute Tid :=
  let s := rq.sqTaskSkip nexttask .notNeeded s
  { s with
    scenequeueNotneeded := s.scenequeueNotneeded.insert nexttask
    sqDeferred := s.sqDeferred.del nexttask }

/-- The hard dependencies of a task that have to be enabled. -/
def newHarddeps (s : RunQueueExecute Tid) (nexttask : Tid) : List Tid :=
  (rq.sqdata.sqHarddepsRev nexttask).filter (· ∉ s.sqNeededHarddeps)

/-- A task is put behind its hard dependencies. -/
def deferHarddeps (nexttask : Tid) (s : RunQueueExecute Tid) :
    RunQueueExecute Tid :=
  { s with
    sqBuildable := rq.newHarddeps s nexttask ∪ s.sqBuildable
    sqNeededHarddeps := rq.newHarddeps s nexttask ∪ s.sqNeededHarddeps
    sqHarddepDeferred := s.sqHarddepDeferred.insert nexttask }

/-- The end of the setscene loop body: the task is failed or picked. -/
def pickScene (nexttask : Tid) (s : RunQueueExecute Tid) :
    Flow Tid (Option Tid) :=
  let deferred := s.sqDeferred.contains nexttask
  let s := { s with sqDeferred := s.sqDeferred.del nexttask }
  let (valid, s) :=
    if deferred then rq.validateHashes s [nexttask] else ([nexttask], s)
  if valid = [] then .returned (rq.sqTaskFailoutright nexttask s)
  else if nexttask ∈ s.outrightfail then
    .returned (rq.sqTaskFailoutright nexttask s)
  else .goOn s (some nexttask)

/-- The setscene loop: `.goOn` with the task it has picked. -/
def sceneLoop : ℕ → RunQueueExecute Tid → Flow Tid (Option Tid)
  | 0, s => .goOn s none
  | loops + 1, s =>
      match rq.runqSetsceneTids[
          s.setsceneTidsGenerator % rq.runqSetsceneTids.length]? with
      | none => .goOn s none
      | some nexttask =>
          let s := { s with
            setsceneTidsGenerator := s.setsceneTidsGenerator + 1 }
          if sceneCandidate s nexttask = false then sceneLoop loops s
          else if stillDeferred s nexttask then sceneLoop loops s
          else
            let (unneeded, s) := rq.notNeeded s nexttask
            if unneeded ∧ nexttask ∉ rq.targetTids then
              .returned (rq.skipNotNeeded nexttask s)
            else if ¬ rq.sqdata.sqHarddepsRev nexttask ⊆
                s.scenequeueCovered ++ s.scenequeueNotcovered then
              if rq.newHarddeps s nexttask = [] then
                sceneLoop loops (rq.deferHarddeps nexttask s)
              else .returned (rq.deferHarddeps nexttask s)
            else rq.pickScene nexttask s

/-- `start_fakeworker` for a task that needs one, if that can be started. -/
def fakeworkerFor (setscene : Bool) (task : Tid) (s : RunQueueExecute Tid) :
    Bool × RunQueueExecute Tid :=
  let exempt := rq.dryRun || (!setscene && rq.setsceneEnforce)
  if rq.fakeroot setscene task && !exempt && rq.mc task ∉ s.fakeworker then
    if rq.world.startFakeworker s.consults then
      (true, { s.consulted with
        fakeworker := s.fakeworker.insert (rq.mc task) })
    else (false, s.consulted)
  else (true, s)

/-- The task is sent to a worker. -/
def sendRuntask (setscene : Bool) (task : Tid) (s : RunQueueExecute Tid) :
    RunQueueExecute Tid :=
  { s with
    workers := task :: s.workers
    buildStamps := s.buildStamps.set task
      (rq.stampfileMcfn s.stampfileHash false setscene task) }

/-- A setscene task is sent to a worker. -/
def sceneStarted (task : Tid) (s : RunQueueExecute Tid) :
    RunQueueExecute Tid :=
  let s := rq.sendRuntask true task s
  let sqLive := s.sqLive.insert task
  { s with
    sqRunning := s.sqRunning.insert task
    sqLive := sqLive
    stats := s.stats.updateActiveSetscene sqLive.length }

/-- A picked setscene task is decided by its stamps or started. -/
def startScene (task : Tid) (s : RunQueueExecute Tid) : Flow Tid Unit :=
  let (underlying, s) := rq.checkStamp s task false true
  if underlying then .returned (rq.sqTaskFailoutright task s)
  else if rq.force ∧ task ∈ rq.targetTids then
    .returned (rq.sqTaskFailoutright task s)
  else
    let (current, s) := rq.checkStamp s task true false
    if current then .returned (rq.sqTaskSkip task .stampCurrent s)
    else if rq.skipsetscene then .returned (rq.sqTaskFailoutright task s)
    else
      let (sendable, s) :=
        rq.fakeworkerFor true task (s.fire (.sceneTaskStarted task))
      if sendable = false then .raised
      else
        let s := rq.sceneStarted task s
        if rq.canStartTask s then .returned s else .goOn s ()

/-- `execute` up to `update_holdofftasks`. -/
def executeScene (s : RunQueueExecute Tid) : Flow Tid Unit :=
  if s.sqdone = false ∧ rq.canStartTask s then
    match rq.sceneLoop rq.runqSetsceneTids.length s with
    | .raised => .raised
    | .returned s => .returned s
    | .goOn s none => .goOn s ()
    | .goOn s (some task) => rq.startScene task s
  else .goOn s ()

/-- `execute` between `update_holdofftasks` and the scheduler. -/
def executeSceneDone (s : RunQueueExecute Tid) : Flow Tid Unit :=
  if s.sqLive = [] ∧ s.sqdone = false ∧ s.sqDeferred = [] ∧
      s.updatedTaskhashQueue = [] ∧ s.holdoffTasks = [] then
    let (err, s) := rq.summariseScenequeueErrors s
    if err then .returned { s with state := .failed }
    else if rq.setsceneonly then .returned { s with state := .complete }
    else if s.stats.total = 0 then
      .returned { s with sqdone := true, state := .complete }
    else .goOn { s with sqdone := true } ()
  else .goOn s ()

/-- `check_setscene_ignore_tasks`. -/
def checkSetsceneIgnoreTasks (task : Tid) (s : RunQueueExecute Tid) :
    Bool × RunQueueExecute Tid :=
  if task ∈ s.tasksCovered then (false, s)
  else
    let (current, s) := rq.checkStamp s task false false
    if current then (false, s)
    else if rq.noexec task then (false, s)
    else (!rq.checkSetsceneEnforceIgnoreTasks task, s)

/-- The scheduled task is refused by `check_setscene_ignore_tasks`. -/
def refused (task : Tid) (s : RunQueueExecute Tid) :
    Bool × RunQueueExecute Tid :=
  if rq.setsceneIgnoreTasks = none then (false, s)
  else rq.checkSetsceneIgnoreTasks task s

def markActive (task : Tid) (s : RunQueueExecute Tid) : RunQueueExecute Tid :=
  { s with
    runqRunning := s.runqRunning.insert task
    stats := s.stats.taskActive }

def taskStarted (task : Tid) (s : RunQueueExecute Tid) : RunQueueExecute Tid :=
  markActive task (rq.sendRuntask false task s)

def startTask (task : Tid) (s : RunQueueExecute Tid) : Flow Tid Unit :=
  let (isRefused, s) := rq.refused task s
  if isRefused then .returned (rq.taskFail task .setsceneIgnoreTasks s)
  else if task ∈ s.tasksCovered then .returned (rq.taskSkip task .covered s)
  else
    let (current, s) := rq.checkStamp s task false false
    if current then
      let s := rq.taskSkip task .existing s
      .returned { s with runqTasksrun := s.runqTasksrun.insert task }
    else if rq.noexec task then
      let s := s.fire (.taskStarted task true)
      .returned (rq.taskComplete task (markActive task s))
    else
      let (sendable, s) :=
        rq.fakeworkerFor false task (s.fire (.taskStarted task false))
      if sendable = false then
        .returned { s with state := .failed, stats := s.stats.taskFailed }
      else
        let s := rq.taskStarted task s
        if rq.canStartTask s then .returned s else .goOn s ()

/-- The sanity checks at the end of `execute`. -/
def sanityErrors (s : RunQueueExecute Tid) : Bool :=
  rq.runtaskentries.any fun task =>
    task ∉ s.runqBuildable ∨ task ∉ s.runqRunning ∨ task ∉ s.runqComplete

/-- The end of `execute`, when no task was started. -/
def executeIdle (s : RunQueueExecute Tid) : RunQueueExecute Tid :=
  if 0 < s.stats.active ∨ s.sqLive ≠ [] then s
  else
    match s.sqDeferred with
    | _ :: rest => { s with sqDeferred := rest }
    | [] =>
        if s.failedTids ≠ [] then { s with state := .failed }
        else
          let (err, s) := rq.summariseScenequeueErrors s
          if err || rq.sanityErrors s then { s with state := .failed }
          else { s with state := .complete }

/-- `execute` up to the scheduler, with the task it has chosen. -/
def executeNext (s : RunQueueExecute Tid) : Flow Tid (Option Tid) :=
  let s :=
    if s.updatedTaskhashQueue ≠ [] ∨ s.pendingMigrations ≠ [] then
      rq.processPossibleMigrations s
    else s
  match rq.executeScene s with
  | .raised => .raised
  | .returned s => .returned s
  | .goOn s () =>
      match rq.executeSceneDone (rq.updateHoldofftasks s) with
      | .raised => .raised
      | .returned s => .returned s
      | .goOn s () =>
          if rq.setsceneonly then .goOn s none
          else
            let (task, s) := rq.schedNext s
            .goOn s task

/-- `execute`, behind its first `read_workers`; `none` when it raises. -/
def execute (s : RunQueueExecute Tid) : Option (RunQueueExecute Tid) :=
  match rq.executeNext s with
  | .raised => none
  | .returned s => some s
  | .goOn s none => some (rq.executeIdle s)
  | .goOn s (some task) =>
      match rq.startTask task s with
      | .raised => none
      | .returned s => some s
      | .goOn s () => some (rq.executeIdle s)

/-- `finish`. -/
def finish (s : RunQueueExecute Tid) : RunQueueExecute Tid :=
  let s := { s with state := .cleanUp }
  if 0 < s.activeTotal then s.fire (.exitWait s.activeTotal)
  else if s.failedTids ≠ [] then { s with state := .failed }
  else { s with state := .complete }

/-- `finish_now`. -/
def finishNow (s : RunQueueExecute Tid) : RunQueueExecute Tid :=
  if s.failedTids ≠ [] then { s with state := .failed }
  else { s with state := .complete }

/-- The state `__init__` starts from. -/
def blank : RunQueueExecute Tid where
  state := .running
  stats :=
    { completed := 0, skipped := 0, failed := 0, active := 0
      setsceneActive := 0, setsceneCovered := 0, setsceneNotcovered := 0
      setsceneTotal := rq.runqSetsceneTids.length
      total := rq.runtaskentries.length }
  sqBuildable := rq.build.sqBuildable
  sqRunning := []
  sqLive := []
  updatedTaskhashQueue := []
  pendingMigrations := []
  runqBuildable := rq.build.setbuildable
  runqRunning := []
  runqComplete := []
  runqTasksrun := []
  buildStamps := []
  failedTids := []
  sqDeferred := rq.initialHashes.2
  sqNeededHarddeps := []
  sqHarddepDeferred := []
  stampcache := []
  holdoffTasks := []
  holdoffNeedUpdate := true
  sqdone := false
  scenequeueCovered := []
  tasksCovered := []
  tasksScenequeueDone := rq.build.tasksScenequeueDone
  scenequeueNotcovered := []
  tasksNotcovered := []
  scenequeueNotneeded := []
  schedBuildable := rq.build.setbuildable
  setsceneTidsGenerator := 0
  outrightfail := []
  valid := []
  noexec := []
  stamppresent := []
  stamps := rq.schedStamp
  hash := rq.initialHash
  unihash := rq.initialUnihash
  stampfileHash := rq.initialUnihash
  fakeworker := []
  consults := 0
  events := []
  workers := []

/-- `RunQueueExecute.__init__`. -/
def initialised : RunQueueExecute Tid :=
  rq.updateScenequeueData (rq.sceneKeys) rq.blank

/-- The state in which `RunQueue` calls `execute` for the first time. -/
def initial : RunQueueExecute Tid :=
  if rq.runqSetsceneTids = [] then
    { (rq.runtaskentries.filter (rq.depends · = [])).foldl
        RunQueueExecute.setbuildable rq.initialised with
      tasksNotcovered := rq.runtaskentries
      sqdone := true }
  else rq.initialised

/-- The worker of a real task may send a `taskUniHashUpdate`: `report_unihash`
goes on for setscene tasks only, if there are any. -/
def Reports (s : RunQueueExecute Tid) (task : Tid) : Prop :=
  task ∈ s.workers ∧ task ∈ s.runqRunning ∧
    (rq.runqSetsceneTids = [] ∨ task ∈ rq.runqSetsceneTids)

instance (s : RunQueueExecute Tid) (task : Tid) :
    Decidable (rq.Reports s task) :=
  inferInstanceAs (Decidable (_ ∧ _ ∧ _))

/-- One action, when it can happen. -/
inductive Step : RunQueueExecute Tid → Action Tid → RunQueueExecute Tid →
    Prop where
  | execute {s s' : RunQueueExecute Tid} : s.state = .running →
      rq.execute s = some s' → Step s .execute s'
  | waitpid {s : RunQueueExecute Tid} {task : Tid} {status : ℤ} :
      task ∈ s.workers →
      Step s (.waitpid task status) (rq.runqueueProcessWaitpid task status s)
  | taskUniHashUpdate {s : RunQueueExecute Tid} {task : Tid} {unihash : Str} :
      rq.Reports s task →
      Step s (.taskUniHashUpdate task unihash)
        { s with
          updatedTaskhashQueue := s.updatedTaskhashQueue ++ [(task, unihash)] }
  | finish {s : RunQueueExecute Tid} :
      s.state = .running ∨ s.state = .cleanUp → Step s .finish (finish s)
  | finishNow {s : RunQueueExecute Tid} : Step s .finishNow (finishNow s)

/-- The only state an action can lead to. -/
def perform (s : RunQueueExecute Tid) :
    Action Tid → Option (RunQueueExecute Tid)
  | .execute => if s.state = .running then rq.execute s else none
  | .waitpid task status =>
      if task ∈ s.workers then some (rq.runqueueProcessWaitpid task status s)
      else none
  | .taskUniHashUpdate task unihash =>
      if rq.Reports s task then some { s with
        updatedTaskhashQueue := s.updatedTaskhashQueue ++ [(task, unihash)] }
      else none
  | .finish =>
      if s.state = .running ∨ s.state = .cleanUp then some (finish s) else none
  | .finishNow => some (finishNow s)

theorem step_iff_perform (s : RunQueueExecute Tid) (action : Action Tid)
    (s' : RunQueueExecute Tid) :
    rq.Step s action s' ↔ rq.perform s action = some s' := by
  constructor
  · intro step
    cases step <;> simp_all [perform]
  · intro performed
    cases action with
    | execute =>
        simp only [perform, Option.ite_none_right_eq_some] at performed
        exact .execute performed.1 performed.2
    | waitpid task status =>
        simp only [perform, Option.ite_none_right_eq_some] at performed
        obtain ⟨sent, ⟨⟩⟩ := performed
        exact .waitpid sent
    | taskUniHashUpdate task unihash =>
        simp only [perform, Option.ite_none_right_eq_some] at performed
        obtain ⟨reports, ⟨⟩⟩ := performed
        exact .taskUniHashUpdate reports
    | finish =>
        simp only [perform, Option.ite_none_right_eq_some] at performed
        obtain ⟨running, ⟨⟩⟩ := performed
        exact .finish running
    | finishNow =>
        cases performed
        exact .finishNow

end Prepared

end Nvbmc.RunQueue
