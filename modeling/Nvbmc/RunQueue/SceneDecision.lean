import Nvbmc.RunQueue.ExecuteState
import Nvbmc.RunQueue.SceneQueueBuild

/-!
# Deciding setscene tasks

Every setscene task ends up in `scenequeue_covered` or in
`scenequeue_notcovered`.  The functions here record such a decision, pass it
on along hard dependencies and down the task graph, and recompute from all
decisions which tasks are covered.
-/

namespace Nvbmc.RunQueue

/-- A set up build whose scene queue has been built. -/
structure Prepared (Tid : Type) [LinearOrder Tid] extends Setup Tid where
  build : SceneQueueBuild Tid
  built : toRunQueueData.buildScenequeueData toRunQueueData.enoughFuel =
    .ok build

/-- The errors of `summarise_scenequeue_errors`. -/
inductive SceneQueueError (Tid : Type) where
  | deferredEntries
  | unprocessedTaskhashes
  | holdoffTasks
  | bothCoveredAndNotcovered (tid : Tid)
  | neverCoveredOrNot (tid : Tid)
  | sceneNeverBuildable (tid : Tid)
  | sceneNeverRunning (tid : Tid)
  | neverMoved (tid : Tid)
  | neverProcessed (tid : Tid)
  | neverBuildable (tid : Tid)
deriving DecidableEq, Repr

/-- Being in both sets is logged but does not make the result an error. -/
def SceneQueueError.isErr {Tid : Type} : SceneQueueError Tid → Bool
  | .bothCoveredAndNotcovered _ => false
  | _ => true

/-- The scene queue of a setup, when `build_scenequeue_data` returns. -/
def Setup.prepare {Tid : Type} [LinearOrder Tid] (setup : Setup Tid)
    (returns : (setup.buildScenequeueData setup.enoughFuel).isOk = true) :
    Prepared Tid :=
  match returned : setup.buildScenequeueData setup.enoughFuel with
  | .ok build => ⟨setup, build, returned⟩
  | .error fatal => by simp [returned, Except.isOk, Except.toBool] at returns

namespace Prepared

variable {Tid : Type} [LinearOrder Tid] (rq : Prepared Tid)

/-- The parts of `sqdata` that do not change. -/
def sqdata : SQData Tid :=
  rq.build.sqdata

/-- The body of the wave loop of `scenequeue_updatecounters`: one task is done
and its dependencies may be next. -/
def visitDone (acc : List Tid × List Tid) (tid : Tid) :
    List Tid × List Tid :=
  let done := acc.1.insert tid
  (done, (rq.depends tid).foldl
    (fun new dep =>
      if dep ∈ rq.runqSetsceneTids ∨ dep ∈ done then new
      else if rq.revdeps dep ⊆ done then new.insert dep
      else new) acc.2)

/-- The wave loop of `scenequeue_updatecounters`. -/
def markDone : ℕ → List Tid → List Tid → List Tid
  | 0, _, done => done
  | fuel + 1, next, done =>
      if next = [] then done
      else
        let (done, new) := (sorted next).foldl rq.visitDone (done, [])
        markDone fuel new done

/-- `scenequeue_updatecounters` behind its loop over hard dependencies. -/
def countDecision (task : Tid) (s : RunQueueExecute Tid) :
    RunQueueExecute Tid :=
  let decided := s.scenequeueCovered ++ s.scenequeueNotcovered
  { s with
    sqBuildable := (sorted (rq.sqdata.sqDeps task)).foldl
      (fun buildable dep =>
        if rq.sqdata.sqRevdeps dep ⊆ decided then buildable.insert dep
        else buildable) s.sqBuildable
    tasksScenequeueDone :=
      rq.markDone (rq.runtaskentries.length + 1) [task] s.tasksScenequeueDone
    sqHarddepDeferred :=
      if rq.sqdata.sqHarddeps task = [] then s.sqHarddepDeferred
      else s.sqHarddepDeferred.filter fun dep =>
        ¬ rq.sqdata.sqHarddepsRev dep ⊆ decided
    stats := s.stats.updateCovered s.scenequeueCovered.length
      s.scenequeueNotcovered.length
    holdoffNeedUpdate := true }

/-- The first lines of `sq_task_failoutright`. -/
def markFailoutright (task : Tid) (s : RunQueueExecute Tid) :
    RunQueueExecute Tid :=
  { s with
    sqRunning := s.sqRunning.insert task
    sqBuildable := s.sqBuildable.insert task
    scenequeueNotcovered := s.scenequeueNotcovered.insert task }

/-- One task that depends hard on a failed one; `failoutright` is the
recursive call. -/
def failHarddep (failoutright : Tid → RunQueueExecute Tid →
    RunQueueExecute Tid) (s : RunQueueExecute Tid) (dep : Tid) :
    RunQueueExecute Tid :=
  if s.Decided dep then s
  else
    let ((noexec, stamppresent), s) := rq.checkSetsceneStamps s dep
    if noexec || stamppresent then s else failoutright dep s

/-- `scenequeue_updatecounters`; the recursion through `sq_task_failoutright`
decides one more task each time. -/
def scenequeueUpdatecounters : ℕ → Tid → Bool → RunQueueExecute Tid →
    RunQueueExecute Tid
  | 0, _, _, s => s
  | fuel + 1, task, fail, s =>
      rq.countDecision task <|
        if fail then
          (sorted (rq.sqdata.sqHarddeps task)).foldl
            (rq.failHarddep fun dep s =>
              scenequeueUpdatecounters fuel dep true
                (markFailoutright dep s)) s
        else s

/-- No more tasks can be decided than there are setscene tasks. -/
def decisionFuel : ℕ :=
  rq.runqSetsceneTids.length + 1

/-- `sq_task_completeoutright`. -/
def sqTaskCompleteoutright (task : Tid) (s : RunQueueExecute Tid) :
    RunQueueExecute Tid :=
  rq.scenequeueUpdatecounters rq.decisionFuel task false
    { s with scenequeueCovered := s.scenequeueCovered.insert task }

/-- `sq_check_taskfail`. -/
def sqCheckTaskfail (task : Tid) (s : RunQueueExecute Tid) :
    RunQueueExecute Tid :=
  if rq.setsceneIgnoreTasks ≠ none ∧
      rq.checkSetsceneEnforceIgnoreTasks task = false then
    { s with state := .cleanUp }
  else s

/-- `sq_task_complete`. -/
def sqTaskComplete (task : Tid) (s : RunQueueExecute Tid) :
    RunQueueExecute Tid :=
  rq.sqTaskCompleteoutright task (s.fire (.sceneTaskCompleted task))

/-- `sq_task_fail`. -/
def sqTaskFail (task : Tid) (result : ℤ) (s : RunQueueExecute Tid) :
    RunQueueExecute Tid :=
  let s := s.fire (.sceneTaskFailed task result)
  rq.sqCheckTaskfail task <|
    rq.scenequeueUpdatecounters rq.decisionFuel task true
      { s with scenequeueNotcovered := s.scenequeueNotcovered.insert task }

/-- `sq_task_failoutright`. -/
def sqTaskFailoutright (task : Tid) (s : RunQueueExecute Tid) :
    RunQueueExecute Tid :=
  rq.scenequeueUpdatecounters rq.decisionFuel task true
    (markFailoutright task s)

/-- `sq_task_skip`, with the reason its caller logs. -/
def sqTaskSkip (task : Tid) (reason : SceneSkipReason)
    (s : RunQueueExecute Tid) : RunQueueExecute Tid :=
  rq.sqTaskCompleteoutright task
    { s.fire (.sceneTaskSkipped task reason) with
      sqRunning := s.sqRunning.insert task
      sqBuildable := s.sqBuildable.insert task }

/-- `notcovered` in `update_holdofftasks`, before its intersection with
`tasks_scenequeue_done`. -/
def rawNotcovered (s : RunQueueExecute Tid) : List Tid :=
  s.scenequeueNotcovered ++ rq.sqdata.cantskip ++
    s.scenequeueNotcovered.flatMap rq.sqdata.sqCoveredTasks ++
    rq.sqdata.unskippable.filter (· ∉ rq.runqSetsceneTids)

/-- `notcovered` in `update_holdofftasks`. -/
def notcovered (s : RunQueueExecute Tid) : List Tid :=
  (rq.rawNotcovered s).filter (· ∈ s.tasksScenequeueDone)

/-- `covered` in `update_holdofftasks`. -/
def covered (s : RunQueueExecute Tid) : List Tid :=
  (s.scenequeueCovered ++
      s.scenequeueCovered.flatMap rq.sqdata.sqCoveredTasks).filter
    fun tid => tid ∉ rq.notcovered s ∧ tid ∈ s.tasksScenequeueDone

def undecided (s : RunQueueExecute Tid) : List Tid :=
  rq.runqSetsceneTids.filter (¬ s.Decided ·)

/-- `holdoff_tasks` in `update_holdofftasks`. -/
def holdoff (s : RunQueueExecute Tid) : List Tid :=
  rq.undecided s ++
    ((rq.undecided s).flatMap rq.sqdata.sqCoveredTasks).filter
      (· ∉ s.runqComplete)

/-- The loop of `update_holdofftasks` that marks tasks buildable. -/
def setbuildableReady (s : RunQueueExecute Tid) (tid : Tid) :
    RunQueueExecute Tid :=
  if rq.depends tid ⊆ s.runqComplete then s.setbuildable tid else s

/-- `update_holdofftasks`. -/
def updateHoldofftasks (s : RunQueueExecute Tid) : RunQueueExecute Tid :=
  if s.holdoffNeedUpdate then
    { (rq.notcovered s ++ rq.covered s).foldl rq.setbuildableReady s with
      tasksCovered := rq.covered s
      tasksNotcovered := rq.notcovered s
      holdoffTasks := rq.holdoff s
      holdoffNeedUpdate := false }
  else s

/-- The errors about one setscene task. -/
def sceneErrors (s : RunQueueExecute Tid) (tid : Tid) :
    List (SceneQueueError Tid) :=
  (if s.Decided tid then [] else [.neverCoveredOrNot tid]) ++
    (if tid ∈ s.sqBuildable then [] else [.sceneNeverBuildable tid]) ++
    if tid ∈ s.sqRunning then [] else [.sceneNeverRunning tid]

def taskErrors (s : RunQueueExecute Tid) (tid : Tid) :
    List (SceneQueueError Tid) :=
  (if tid ∈ s.tasksCovered ∨ tid ∈ s.tasksNotcovered then []
    else [.neverMoved tid]) ++
    (if tid ∈ s.tasksScenequeueDone then [] else [.neverProcessed tid]) ++
    if rq.depends tid = [] ∧ tid ∉ s.runqBuildable then [.neverBuildable tid]
    else []

/-- The errors `summarise_scenequeue_errors` logs. -/
def sceneQueueErrors (s : RunQueueExecute Tid) : List (SceneQueueError Tid) :=
  (if s.sqDeferred = [] then [] else [.deferredEntries]) ++
    (if s.updatedTaskhashQueue = [] then [] else [.unprocessedTaskhashes]) ++
    (if s.holdoffTasks = [] then [] else [.holdoffTasks]) ++
    (s.scenequeueCovered.filter (· ∈ s.scenequeueNotcovered)).map
      .bothCoveredAndNotcovered ++
    rq.runqSetsceneTids.flatMap (sceneErrors s) ++
    rq.runtaskentries.flatMap (rq.taskErrors s)

/-- `summarise_scenequeue_errors`. -/
def summariseScenequeueErrors (s : RunQueueExecute Tid) :
    Bool × RunQueueExecute Tid :=
  ((rq.sceneQueueErrors s).any SceneQueueError.isErr,
    if s.sqdone then s else s.fire .sceneQueueComplete)

/-- The first loop of `update_scenequeue_data`, for one task. -/
def updateStamps (acc : RunQueueExecute Tid × List Tid) (tid : Tid) :
    RunQueueExecute Tid × List Tid :=
  let s := { acc.1 with
    stamppresent := discard acc.1.stamppresent tid
    valid := discard acc.1.valid tid
    outrightfail := discard acc.1.outrightfail tid }
  let ((noexec, stamppresent), s) := rq.checkSetsceneStamps s tid
  if noexec then
    (rq.sqTaskSkip tid .noexec { s with noexec := s.noexec.insert tid }, acc.2)
  else if stamppresent then
    (rq.sqTaskSkip tid .validStamp
      { s with stamppresent := s.stamppresent.insert tid }, acc.2)
  else (s, acc.2.insert tid)

/-- The last loop of `update_scenequeue_data`, for one task. -/
def updateOutrightfail (s : RunQueueExecute Tid) (tid : Tid) :
    RunQueueExecute Tid :=
  if tid ∈ s.stamppresent ∨ tid ∈ s.valid ∨ tid ∈ s.noexec ∨ s.Decided tid ∨
      s.sqDeferred.contains tid then s
  else { s with outrightfail := s.outrightfail.insert tid }

/-- `update_scenequeue_data`. -/
def updateScenequeueData (tids : List Tid) (s : RunQueueExecute Tid) :
    RunQueueExecute Tid :=
  let (s, tocheck) := (sorted tids).foldl rq.updateStamps (s, [])
  let (valid, s) := rq.validateHashes s tocheck
  tids.foldl updateOutrightfail { s with valid := valid ∪ s.valid }

end Prepared

end Nvbmc.RunQueue
