import Mathlib.Data.List.Lex
import Mathlib.Data.Char
import Nvbmc.Library.Text
import Nvbmc.RunQueue.SceneQueueData

/-!
# The state of `RunQueueExecute`

`Setup` is what stays fixed during a build: the task graph, the configuration
and the task metadata the run queue reads.  `World` answers what only the
outside world knows; it is asked with a running number, so that two questions
may be answered differently.  The state record also keeps the events that were
fired and the tasks the workers are running.
-/

namespace Nvbmc.RunQueue

open Nvbmc.Library

abbrev Str := List Char

/-- What the run queue asks the outside world. -/
structure World (Tid : Type) where
  /-- The modification time of a file, `none` when it cannot be accessed. -/
  mtime : ℕ → Str → Option ℕ
  /-- `BB_HASHCHECK_FUNCTION` on tasks with their hash and unihash. -/
  hashvalidate : Option (ℕ → List (Tid × Str × Str) → List Tid)
  /-- `BB_SETSCENE_DEPVALID` on a task, its dependencies and the tasks that
  were not needed. -/
  depvalidate : Option (ℕ → Tid → List Tid → List Tid → Bool)
  exceedsMaxPressure : ℕ → Bool
  startFakeworker : ℕ → Bool
  getTaskhash : ℕ → Tid → Str
  getUnihashes : ℕ → Tid → Str

/-- What stays fixed during a build.  The `Bool` before a task selects its
setscene variant. -/
structure Setup (Tid : Type) extends RunQueueData Tid where
  numberTasks : ℕ
  /-- Anything else is fatal in `__init__`. -/
  numberTasks_pos : 0 < numberTasks
  force : Bool
  skipsetscene : Bool
  setsceneonly : Bool
  dryRun : Bool
  /-- `taskData[''].halt`. -/
  halt : Bool
  setsceneEnforce : Bool
  setsceneIgnoreTasks : Option (List Str)
  fnmatch : Str → Str → Bool
  mc : Tid → Str
  fn : Tid → Str
  taskname : Tid → Str
  pn : Tid → Str
  stampbase : Tid → Str
  stampExtrainfo : Tid → Str
  noexec : Tid → Bool
  nostamp : Bool → Tid → Bool
  fakeroot : Bool → Tid → Bool
  numberThreads : Str → Option ℤ
  /-- `rev_prio_map` of the scheduler. -/
  revPrioMap : Tid → ℕ
  initialHash : Tid → Str
  initialUnihash : Tid → Str
  world : World Tid

/-- A world without files, packages or checks. -/
def World.bare (Tid : Type) : World Tid where
  mtime := fun _ _ => none
  hashvalidate := none
  depvalidate := none
  exceedsMaxPressure := fun _ => false
  startFakeworker := fun _ => true
  getTaskhash := fun _ _ => []
  getUnihashes := fun _ _ => []

/-- A build without options whose recipes and hashes are told apart by a
name. -/
def Setup.plain {Tid : Type} (rqdata : RunQueueData Tid) (world : World Tid)
    (name : Tid → Str) : Setup Tid where
  toRunQueueData := rqdata
  numberTasks := 2
  numberTasks_pos := Nat.two_pos
  force := false
  skipsetscene := false
  setsceneonly := false
  dryRun := false
  halt := false
  setsceneEnforce := false
  setsceneIgnoreTasks := none
  fnmatch := fun _ _ => false
  mc := fun _ => []
  fn := name
  taskname := fun _ => "do_build".toList
  pn := name
  stampbase := name
  stampExtrainfo := fun _ => []
  noexec := fun _ => false
  nostamp := fun _ _ => false
  fakeroot := fun _ _ => false
  numberThreads := fun _ => none
  revPrioMap := fun _ => 0
  initialHash := name
  initialUnihash := name
  world := world

/-- The stages of `RunQueue` once `RunQueueExecute` exists. -/
inductive RunQueueState where
  | running
  | failed
  | cleanUp
  | complete
deriving DecidableEq, Repr

/-- `RunQueueStats`. -/
structure RunQueueStats where
  completed : ℕ
  skipped : ℕ
  failed : ℕ
  active : ℤ
  setsceneActive : ℕ
  setsceneCovered : ℕ
  setsceneNotcovered : ℕ
  setsceneTotal : ℕ
  total : ℕ
deriving DecidableEq, Repr

namespace RunQueueStats

def taskFailed (stats : RunQueueStats) : RunQueueStats :=
  { stats with active := stats.active - 1, failed := stats.failed + 1 }

def taskCompleted (stats : RunQueueStats) : RunQueueStats :=
  { stats with active := stats.active - 1, completed := stats.completed + 1 }

def taskSkipped (stats : RunQueueStats) : RunQueueStats :=
  { stats with active := stats.active + 1, skipped := stats.skipped + 1 }

def taskActive (stats : RunQueueStats) : RunQueueStats :=
  { stats with active := stats.active + 1 }

def updateCovered (stats : RunQueueStats) (covered notcovered : ℕ) :
    RunQueueStats :=
  { stats with setsceneCovered := covered, setsceneNotcovered := notcovered }

def updateActiveSetscene (stats : RunQueueStats) (active : ℕ) :
    RunQueueStats :=
  { stats with setsceneActive := active }

end RunQueueStats

/-- The `reason` of `task_skip`. -/
inductive SkipReason where
  | covered
  | existing
deriving DecidableEq, Repr

/-- Why `sq_task_skip` was called, as its callers log it. -/
inductive SceneSkipReason where
  | noexec
  | validStamp
  | stampCurrent
  | notNeeded
deriving DecidableEq, Repr

/-- The `exitcode` of `task_fail`. -/
inductive ExitCode where
  | status (code : ℤ)
  | setsceneIgnoreTasks
deriving DecidableEq, Repr

/-- The events of the run queue, the log lines of skipped setscene tasks and
the calls that regenerate hashes. -/
inductive Event (Tid : Type) where
  | taskStarted (task : Tid) (noexec : Bool)
  | taskCompleted (task : Tid)
  | taskFailed (task : Tid) (exitcode : ExitCode)
  | taskSkipped (task : Tid) (reason : SkipReason)
  | sceneTaskStarted (task : Tid)
  | sceneTaskCompleted (task : Tid)
  | sceneTaskFailed (task : Tid) (status : ℤ)
  | sceneTaskSkipped (task : Tid) (reason : SceneSkipReason)
  | sceneQueueComplete
  | exitWait (remain : ℤ)
  | getTaskhash (task : Tid)
  | rehashed (task : Tid)
deriving DecidableEq, Repr

/-- `RunQueueExecute` with the parts of `sqdata`, of the scheduler and of the
signature generator that change during the build. -/
structure RunQueueExecute (Tid : Type) where
  state : RunQueueState
  stats : RunQueueStats
  sqBuildable : List Tid
  sqRunning : List Tid
  sqLive : List Tid
  updatedTaskhashQueue : List (Tid × Str)
  pendingMigrations : List Tid
  runqBuildable : List Tid
  runqRunning : List Tid
  runqComplete : List Tid
  runqTasksrun : List Tid
  buildStamps : Dict Tid Str
  failedTids : List Tid
  sqDeferred : Dict Tid Tid
  sqNeededHarddeps : List Tid
  sqHarddepDeferred : List Tid
  stampcache : Dict Tid Bool
  holdoffTasks : List Tid
  holdoffNeedUpdate : Bool
  sqdone : Bool
  scenequeueCovered : List Tid
  tasksCovered : List Tid
  tasksScenequeueDone : List Tid
  scenequeueNotcovered : List Tid
  tasksNotcovered : List Tid
  scenequeueNotneeded : List Tid
  /-- `sched.buildable`. -/
  schedBuildable : List Tid
  /-- How often `setscene_tids_generator` was advanced. -/
  setsceneTidsGenerator : ℕ
  outrightfail : List Tid
  valid : List Tid
  noexec : List Tid
  stamppresent : List Tid
  stamps : Tid → Str
  hash : Tid → Str
  unihash : Tid → Str
  /-- `siggen.get_stampfile_hash`. -/
  stampfileHash : Tid → Str
  fakeworker : List Str
  /-- How many questions the world has answered. -/
  consults : ℕ
  events : List (Event Tid)
  /-- The tasks sent to a worker whose exit code was not read yet. -/
  workers : List Tid

namespace RunQueueExecute

variable {Tid : Type}

/-- `bb.event.fire`, or a log line. -/
def fire (s : RunQueueExecute Tid) (event : Event Tid) : RunQueueExecute Tid :=
  { s with events := event :: s.events }

/-- One question to the world has been answered. -/
def consulted (s : RunQueueExecute Tid) : RunQueueExecute Tid :=
  { s with consults := s.consults + 1 }

variable [LinearOrder Tid]

def setbuildable (s : RunQueueExecute Tid) (task : Tid) :
    RunQueueExecute Tid :=
  { s with
    runqBuildable := s.runqBuildable.insert task
    schedBuildable := s.schedBuildable.insert task }

/-- The setscene task is in `scenequeue_covered` or `scenequeue_notcovered`. -/
def Decided (s : RunQueueExecute Tid) (task : Tid) : Prop :=
  task ∈ s.scenequeueCovered ∨ task ∈ s.scenequeueNotcovered

instance (s : RunQueueExecute Tid) (task : Tid) : Decidable (s.Decided task) :=
  inferInstanceAs (Decidable (_ ∨ _))

/-- `active` as `can_start_task` and `finish` compute it. -/
def activeTotal (s : RunQueueExecute Tid) : ℤ :=
  s.stats.active + s.sqLive.length

end RunQueueExecute

/-- A Python set without one element. -/
def discard {Tid : Type} [DecidableEq Tid] (tids : List Tid) (tid : Tid) :
    List Tid :=
  tids.filter (· ≠ tid)

@[simp] theorem mem_discard {Tid : Type} [DecidableEq Tid] {tids : List Tid}
    {tid other : Tid} : other ∈ discard tids tid ↔ other ∈ tids ∧
      other ≠ tid := by
  simp [discard]

namespace Setup

variable {Tid : Type} [LinearOrder Tid] (setup : Setup Tid)

/-- `stampfile_mcfn` of a signature generator with hashes in its stamps. -/
def stampfileMcfn (stampfileHash : Tid → Str) (extrainfo setscene : Bool)
    (tid : Tid) : Str :=
  (setup.stampbase tid ++ ".".toList ++ setup.taskname tid ++
      (if setscene then "_setscene".toList else []) ++ ".".toList ++
      stampfileHash tid ++ ".".toList ++
      if extrainfo then setup.stampExtrainfo tid else []).rdropWhile
    (· == '.')

/-- `pending_hash_index`. -/
def pendingHashIndex (unihash : Tid → Str) (tid : Tid) : Str :=
  setup.pn tid ++ ":".toList ++ "taskname".toList ++ unihash tid

/-- `check_setscene_enforce_ignore_tasks`. -/
def checkSetsceneEnforceIgnoreTasks (tid : Tid) : Bool :=
  match setup.setsceneIgnoreTasks with
  | none => true
  | some ignoreTasks =>
      ignoreTasks.any fun pattern =>
        setup.fnmatch (setup.pn tid ++ ":".toList ++ setup.taskname tid) pattern

/-- `can_start_task`. -/
def canStartTask (s : RunQueueExecute Tid) : Bool :=
  s.activeTotal < setup.numberTasks

/-- A time stamp as a condition: missing files and time zero are false. -/
def present (time : Option ℕ) : Bool :=
  time.getD 0 ≠ 0

/-- One dependency in the loop of `check_stamp_task`; `recheck` is the
recursive call. -/
def checkStampDep (mtime : Str → Option ℕ) (stampfileHash : Tid → Str)
    (recheck : Tid → Dict Tid Bool → Bool × Dict Tid Bool) (tid : Tid)
    (t1 : ℕ) (recurse : Bool) (acc : Bool × Dict Tid Bool) (dep : Tid) :
    Bool × Dict Tid Bool :=
  if acc.1 = false then acc
  else
    let t2 := mtime (setup.stampfileMcfn stampfileHash true false dep)
    let t3 := mtime (setup.stampfileMcfn stampfileHash true true dep)
    if present t3 && !present t2 then acc
    else if present t3 && decide (t2.getD 0 < t3.getD 0) then acc
    else if setup.fn tid = setup.fn dep then
      if !present t2 then (false, acc.2)
      else if t1 < t2.getD 0 then (false, acc.2)
      else if recurse then
        match acc.2.get? dep with
        | some cached => (cached, acc.2)
        | none =>
            let (iscurrent, cache) := recheck dep acc.2
            (iscurrent, cache.set dep iscurrent)
      else acc
    else acc

/-- `check_stamp_task`; every recursive call goes down one dependency. -/
def checkStampTask (mtime : Str → Option ℕ) (stampfileHash : Tid → Str) :
    ℕ → Tid → Bool → Bool → Dict Tid Bool → Bool × Dict Tid Bool
  | 0, _, _, _, cache => (false, cache)
  | fuel + 1, tid, setscene, recurse, cache =>
      match mtime (setup.stampfileMcfn stampfileHash true setscene tid) with
      | none => (false, cache)
      | some t1 =>
          if setup.nostamp setscene tid then (false, cache)
          else if setscene then (true, cache)
          else
            let (iscurrent, cache) :=
              (setup.depends tid).foldl
                (setup.checkStampDep mtime stampfileHash
                  (fun dep cache => checkStampTask mtime stampfileHash fuel dep
                    false true cache) tid t1 recurse) (true, cache)
            (iscurrent, if recurse then cache.set tid iscurrent else cache)

/-- The length of a dependency chain is bounded by the number of tasks. -/
def stampFuel : ℕ :=
  setup.runtaskentries.length + 1

/-- `rq.check_stamp_task(tid, taskname, recurse, cache=self.stampcache)`. -/
def checkStamp (s : RunQueueExecute Tid) (tid : Tid)
    (setscene recurse : Bool) : Bool × RunQueueExecute Tid :=
  let (iscurrent, stampcache) :=
    setup.checkStampTask (setup.world.mtime s.consults) s.stampfileHash
      setup.stampFuel tid setscene recurse s.stampcache
  (iscurrent, { s.consulted with stampcache := stampcache })

/-- `check_setscene_stamps`: no execution needed, or a stamp present. -/
def checkSetsceneStamps (s : RunQueueExecute Tid) (tid : Tid) :
    (Bool × Bool) × RunQueueExecute Tid :=
  if setup.noexec tid then ((true, false), s)
  else
    let (setsceneCurrent, s) := setup.checkStamp s tid true false
    if setsceneCurrent then ((false, true), s)
    else
      let (normalCurrent, s) := setup.checkStamp s tid false true
      ((false, normalCurrent), s)

/-- `validate_hashes`. -/
def validateHashes (s : RunQueueExecute Tid) (tocheck : List Tid) :
    List Tid × RunQueueExecute Tid :=
  match setup.world.hashvalidate with
  | none => ([], s)
  | some hashvalidate =>
      (hashvalidate s.consults
        (tocheck.map fun tid => (tid, s.hash tid, s.unihash tid)), s.consulted)

/-- `check_dependencies`. -/
def checkDependencies (s : RunQueueExecute Tid) (task : Tid)
    (taskdeps : List Tid) : Bool × RunQueueExecute Tid :=
  match setup.world.depvalidate with
  | none => (false, s)
  | some depvalidate =>
      (depvalidate s.consults task (taskdeps.insert task)
        s.scenequeueNotneeded, s.consulted)

end Setup

end Nvbmc.RunQueue
