import Nvbmc.Library.Numerals
import Nvbmc.RunQueue.PrioMap

/-!
# The next task

A scheduler keeps the tasks that are buildable and chooses the next one of them
by its priority map.  The map of the basic scheduler has one entry, the view of
all task ids, where the other two have an entry for each task.
-/

namespace Nvbmc.RunQueue

open Nvbmc.Library

/-- What the schedulers read of `rqdata` and the configuration. -/
structure SchedulerData (Tid : Type) where
  runtaskentries : List Tid
  weight : Tid → ℕ
  rsplit : Tid → Text × Text
  stampfile : Tid → Text
  /-- `getVarFlag(taskname, "number_threads")`. -/
  numberThreads : Text → Option Text
  nodup : runtaskentries.Nodup

/-- What the schedulers read of the run queue. -/
structure QueueState (Tid : Type) where
  runqBuildable : List Tid
  runqRunning : List Tid
  runqComplete : List Tid
  holdoffTasks : List Tid
  tasksCovered : List Tid
  tasksNotcovered : List Tid
  buildStamps : Dict Tid Text
  statsActive : ℕ
  exceedsMaxPressure : Bool

inductive SchedulerName where
  | basic
  | speed
  | completion
deriving DecidableEq

inductive PrioEntry (Tid : Type) where
  | task (tid : Tid)
  /-- `runtaskentries.keys()`. -/
  | keys (tids : List Tid)
deriving DecidableEq

structure Scheduler (Tid : Type) where
  prioMap : List (PrioEntry Tid)
  buildable : List Tid
  skipMaxthread : Dict Text (Option Text)
  stamps : Dict Tid Text
  revPrioMap : Dict Tid ℕ

section Choice

variable {Tid : Type} [DecidableEq Tid] (rqdata : SchedulerData Tid)

/-- `taskname_from_tid`. -/
def SchedulerData.taskname (tid : Tid) : Text :=
  (rqdata.rsplit tid).2

/-- The `prio_map` of a scheduler. -/
def SchedulerData.prioMap : SchedulerName → Option (List (PrioEntry Tid))
  | .basic => some [.keys rqdata.runtaskentries]
  | .speed =>
      some ((speedPrioMap rqdata.runtaskentries rqdata.weight).map .task)
  | .completion => do
      let prioMap ← completionPrioMap rqdata.rsplit rqdata.runtaskentries
        rqdata.weight
      pure (prioMap.map .task)

/-- `__init__`. -/
def Scheduler.init (name : SchedulerName) (rq : QueueState Tid) :
    Option (Scheduler Tid) := do
  let prioMap ← rqdata.prioMap name
  pure
    { prioMap := prioMap
      buildable := rqdata.runtaskentries.filter (· ∈ rq.runqBuildable)
      skipMaxthread := []
      stamps := rqdata.runtaskentries.map fun tid => (tid, rqdata.stampfile tid)
      revPrioMap := [] }

namespace Scheduler

/-- `newbuildable`. -/
def newbuildable (sched : Scheduler Tid) (task : Tid) : Scheduler Tid :=
  { sched with
    buildable :=
      if task ∈ sched.buildable then sched.buildable
      else sched.buildable ++ [task] }

/-- `removebuildable`, which raises a `KeyError` for a task that is not there.
-/
def removebuildable (sched : Scheduler Tid) (task : Tid) :
    Option (Scheduler Tid) :=
  if task ∈ sched.buildable then
    some { sched with buildable := sched.buildable.erase task }
  else none

/-- The value of a number_threads flag that is set; an empty one counts as
unset. -/
def threadsFlag (skipMaxthread : Dict Text (Option Text)) (taskname : Text) :
    Option Text :=
  match skipMaxthread.get? taskname with
  | some (some (char :: flag)) => some (char :: flag)
  | _ => none

/-- A round of the loop over the running tasks: the flags that are looked up are
kept, and the tasks of a name with a limit are counted. -/
def countRunning (state : Dict Text (Option Text) × Dict Text ℕ)
    (running : Tid) : Dict Text (Option Text) × Dict Text ℕ :=
  let rtaskname := rqdata.taskname running
  let skipMaxthread :=
    if rtaskname ∈ state.1.keys then state.1
    else state.1.set rtaskname (rqdata.numberThreads rtaskname)
  if threadsFlag skipMaxthread rtaskname = none then (skipMaxthread, state.2)
  else (skipMaxthread,
    state.2.set rtaskname ((state.2.get? rtaskname).getD 0 + 1))

/-- `taskname in skip_buildable and skip_buildable[taskname] >= int(...)`. -/
def isFull (skipMaxthread : Dict Text (Option Text))
    (skipBuildable : Dict Text ℕ) (taskname : Text) : Option Bool :=
  match skipBuildable.get? taskname with
  | none => some false
  | some count => do
      let flag ← threadsFlag skipMaxthread taskname
      let limit ← int? flag
      pure (decide (limit ≤ (count : ℤ)))

/-- `self.rev_prio_map`, which is made when it is needed first.  A task that is
not in the priority map raises a `ValueError`. -/
def revPrio (sched : Scheduler Tid) : Option (Dict Tid ℕ) :=
  if sched.revPrioMap = [] then
    rqdata.runtaskentries.foldlM
      (fun revPrioMap tid =>
        if .task tid ∈ sched.prioMap then
          some (revPrioMap.set tid (sched.prioMap.idxOf (.task tid)))
        else none)
      []
  else some sched.revPrioMap

/-- A round of the loop over the candidates. -/
def pick (sched : Scheduler Tid) (rq : QueueState Tid)
    (skipBuildable : Dict Text ℕ)
    (best : Option (Tid × ℕ)) (tid : Tid) : Option (Option (Tid × ℕ)) := do
  let prio ← sched.revPrioMap.get? tid
  if ∀ former ∈ best, prio < former.2 then do
    let full ← isFull sched.skipMaxthread skipBuildable (rqdata.taskname tid)
    if full = true then pure best
    else do
      let stamp ← sched.stamps.get? tid
      pure (if stamp ∈ rq.buildStamps.map Prod.snd then best
            else some (tid, prio))
  else some best

/-- The general loop. -/
def pickBest (sched : Scheduler Tid) (rq : QueueState Tid)
    (skipBuildable : Dict Text ℕ)
    (candidates : List Tid) : Option (Option Tid × Scheduler Tid) := do
  let revPrioMap ← sched.revPrio rqdata
  let sched := { sched with revPrioMap := revPrioMap }
  let best ← candidates.foldlM (sched.pick rqdata rq skipBuildable) none
  pure (best.map Prod.fst, sched)

/-- The case of one candidate. -/
def pickSingle (sched : Scheduler Tid) (rq : QueueState Tid)
    (skipBuildable : Dict Text ℕ)
    (tid : Tid) : Option (Option Tid × Scheduler Tid) := do
  let full ← isFull sched.skipMaxthread skipBuildable (rqdata.taskname tid)
  if full = true then pure (none, sched)
  else do
    let stamp ← sched.stamps.get? tid
    if stamp ∉ rq.buildStamps.map Prod.snd then pure (some tid, sched)
    -- the candidate has been taken out of the set
    else sched.pickBest rqdata rq skipBuildable []

def forgetRunning (sched : Scheduler Tid) (rq : QueueState Tid) :
    Scheduler Tid :=
  { sched with buildable := sched.buildable.filter (· ∉ rq.runqRunning) }

/-- The tasks that are not held off and that the setscene queue has decided
about. -/
def candidates (sched : Scheduler Tid) (rq : QueueState Tid) : List Tid :=
  (sched.forgetRunning rq).buildable.filter fun tid =>
    tid ∉ rq.holdoffTasks ∧ (tid ∈ rq.tasksCovered ∨ tid ∈ rq.tasksNotcovered)

/-- The flags and the counts of the running tasks. -/
def limits (sched : Scheduler Tid) (rq : QueueState Tid) :
    Dict Text (Option Text) × Dict Text ℕ :=
  (rq.runqRunning.filter (· ∉ rq.runqComplete)).foldl (countRunning rqdata)
    (sched.skipMaxthread, [])

def counted (sched : Scheduler Tid) (rq : QueueState Tid) : Scheduler Tid :=
  { sched.forgetRunning rq with skipMaxthread := (sched.limits rqdata rq).1 }

/-- `next_buildable_task`; no result is an exception. -/
def nextBuildableTask (sched : Scheduler Tid) (rq : QueueState Tid) :
    Option (Option Tid × Scheduler Tid) :=
  match sched.candidates rq with
  | [] => some (none, sched.forgetRunning rq)
  | tid :: rest =>
      if rq.statsActive ≠ 0 ∧ rq.exceedsMaxPressure = true then
        some (none, sched.forgetRunning rq)
      else
        match rest with
        | [] =>
            (sched.counted rqdata rq).pickSingle rqdata rq
              (sched.limits rqdata rq).2 tid
        | _ :: _ =>
            (sched.counted rqdata rq).pickBest rqdata rq
              (sched.limits rqdata rq).2 (tid :: rest)

end Scheduler

end Choice

end Nvbmc.RunQueue
