import Nvbmc.RunQueue.SceneDecision

/-!
# Rehashing and migrations

`process_possible_migrations` takes the unihash updates the workers have sent,
regenerates the hashes of everything that depends on them and puts setscene
tasks whose hash has changed back into the scene queue.
-/

namespace Nvbmc.RunQueue

open Nvbmc.Library

namespace Prepared

variable {Tid : Type} [LinearOrder Tid] (rq : Prepared Tid)

/-- One task whose unihash is replaced. -/
def setUnihash (unihash : Str) (acc : RunQueueExecute Tid × List Tid)
    (hashtid : Tid) : RunQueueExecute Tid × List Tid :=
  ({ acc.1 with
      unihash := Function.update acc.1.unihash hashtid unihash
      stampfileHash := Function.update acc.1.stampfileHash hashtid unihash },
    acc.2.insert hashtid)

/-- One entry of `updated_taskhash_queue`. -/
def takeUpdate (acc : RunQueueExecute Tid × List Tid) (entry : Tid × Str) :
    RunQueueExecute Tid × List Tid :=
  let s := acc.1
  if entry.1 ∈ s.runqRunning ∧ entry.1 ∉ s.runqComplete then acc
  else
    let s := { s with
      updatedTaskhashQueue := s.updatedTaskhashQueue.erase entry }
    if entry.2 = s.unihash entry.1 then (s, acc.2)
    else
      (entry.1 :: (s.sqDeferred.filter (·.2 = entry.1)).map Prod.fst).foldl
        (setUnihash entry.2) (s, acc.2)

/-- Everything that depends on the changed tasks. -/
def dependents : ℕ → List Tid → List Tid → List Tid
  | 0, _, total => total
  | fuel + 1, next, total =>
      if next = [] then total
      else
        let total := next ∪ total
        dependents fuel
          ((next.flatMap rq.revdeps).dedup.filter (· ∉ total)) total

/-- The loop state of the rehash loop. -/
structure Rehash (Tid : Type) where
  s : RunQueueExecute Tid
  total : List Tid
  next : List Tid
  changed : List Tid

def readyTasks (last : Option Tid) (total : List Tid)
    (acc : RunQueueExecute Tid × List (Tid × Str)) (tid : Tid) :
    RunQueueExecute Tid × List (Tid × Str) :=
  -- the first test reads the variable an earlier loop has left behind
  if (∃ p ∈ last, rq.depends p ≠ []) ∧
      ∃ dep ∈ rq.depends tid, dep ∈ total then acc
  else
    let hash := rq.world.getTaskhash acc.1.consults tid
    ((acc.1.consulted).fire (.getTaskhash tid), acc.2 ++ [(tid, hash)])

/-- One ready task takes its new hashes. -/
def rehashTask (unihashes : Tid → Str) (acc : Rehash Tid)
    (ready : Tid × Str) : Rehash Tid :=
  let tid := ready.1
  let newuni := unihashes tid
  let s : RunQueueExecute Tid := { acc.s.fire (.rehashed tid) with
    stampfileHash := Function.update acc.s.stampfileHash tid newuni }
  let remapped := decide (newuni = s.unihash tid ∨
    tid ∈ s.scenequeueCovered ∨ tid ∈ s.sqLive)
  let total := discard acc.total tid
  { s := if remapped then s
      else { s with
        hash := Function.update s.hash tid ready.2
        unihash := Function.update s.unihash tid newuni }
    total := total
    next := (rq.revdeps tid ∪ acc.next).filter (· ∈ total)
    changed := if remapped then acc.changed else acc.changed.insert tid }

def rehash (last : Option Tid) : ℕ → Rehash Tid → Rehash Tid
  | 0, acc => acc
  | fuel + 1, acc =>
      if acc.next = [] then acc
      else
        let (s, ready) := acc.next.foldl (rq.readyTasks last acc.total)
          (acc.s, [])
        let unihashes := rq.world.getUnihashes s.consults
        rehash last fuel <|
          ready.foldl (rq.rehashTask unihashes)
            { acc with s := s.consulted, next := [] }

/-- The loop state of the loop over `pending_migrations`. -/
structure Migration (Tid : Type) where
  s : RunQueueExecute Tid
  changed : Bool
  updateTasks : List Tid
  /-- The `return` in front of a halted build was taken. -/
  halted : Bool

/-- One task covered by a migrating one; `none` when it cannot run again. -/
def uncover (s : RunQueueExecute Tid) (done : List Tid) (dep : Tid) :
    Option (List Tid) :=
  if dep ∈ s.runqComplete ∧ dep ∉ s.runqTasksrun then none
  else if dep ∉ s.runqComplete ∧ dep ∉ rq.sqdata.unskippable then
    some (discard done dep)
  else some done

/-- The covered tasks of a migrating one: what is left of
`tasks_scenequeue_done`, and whether the loop was left early. -/
def uncoverAll (s : RunQueueExecute Tid) :
    List Tid → List Tid → List Tid × Bool
  | [], done => (done, false)
  | dep :: deps, done =>
      match rq.uncover s done dep with
      | none => (done, true)
      | some done => uncoverAll s deps done

/-- The sets a migrating task is taken out of. -/
def forget (tid : Tid) (s : RunQueueExecute Tid) : RunQueueExecute Tid :=
  { s with
    sqBuildable := discard s.sqBuildable tid
    sqRunning := discard s.sqRunning tid
    outrightfail := discard s.outrightfail tid
    scenequeueNotcovered := discard s.scenequeueNotcovered tid
    scenequeueCovered := discard s.scenequeueCovered tid
    scenequeueNotneeded := discard s.scenequeueNotneeded tid
    stamps := Function.update s.stamps tid
      (rq.stampfileMcfn s.stampfileHash false false tid)
    stampcache := s.stampcache.del tid
    buildStamps := s.buildStamps.del tid }

/-- One task of `pending_migrations`. -/
def migrate (acc : Migration Tid) (tid : Tid) : Migration Tid :=
  if acc.halted then acc
  else
    let s := acc.s
    let waiting := { s with
      pendingMigrations := discard s.pendingMigrations tid }
    if tid ∈ s.runqRunning ∨ tid ∈ s.sqLive then { acc with s := waiting }
    else if (rq.sqdata.sqCoveredTasks tid).any fun dep =>
        dep ∈ s.runqRunning ∧ dep ∉ s.runqComplete then acc
    else
      let (done, halted) := rq.uncoverAll s (rq.sqdata.sqCoveredTasks tid)
        (discard s.tasksScenequeueDone tid)
      let s := { waiting with tasksScenequeueDone := done }
      if halted then
        { s := { s with
            failedTids := s.failedTids ++ [tid]
            state := .cleanUp }
          changed := true
          updateTasks := acc.updateTasks
          halted := true }
      else
        { s := rq.forget tid s
          changed := true
          updateTasks := acc.updateTasks ++ [tid]
          halted := false }

/-- A hard dependency of the task is in `scenequeue_notcovered`. -/
def harddepfail (s : RunQueueExecute Tid) (tid : Tid) : Bool :=
  (rq.sqdata.sqHarddepsRev tid).any (· ∈ s.scenequeueNotcovered)

/-- One task of `update_tasks`. -/
def requeue (s : RunQueueExecute Tid) (tid : Tid) : RunQueueExecute Tid :=
  if (rq.harddepfail s tid = false ∧ rq.sqdata.sqRevdeps tid ⊆
        s.scenequeueCovered ++ s.scenequeueNotcovered) ∨
      rq.sqdata.sqRevdeps tid = [] then
    { s with sqBuildable := s.sqBuildable.insert tid }
  else s

/-- The tasks in the order of `for mc in sorted(multiconfigs)`. -/
def byMulticonfig (tids : List Tid) : List Tid :=
  ((rq.runqSetsceneTids.map rq.mc).dedup.insertionSort (· ≤ ·)).flatMap
    fun mc => (sorted tids).filter (rq.mc · = mc)

/-- One setscene task in the loop that fills `sqdata.hashes`; a later task with
the same hash waits for the first. -/
def addHash (acc : Dict Str Tid × Dict Tid Tid) (tid : Tid) :
    Dict Str Tid × Dict Tid Tid :=
  let h := rq.pendingHashIndex rq.initialUnihash tid
  match acc.1.get? h with
  | none => (acc.1.set h tid, acc.2)
  | some first => (acc.1, acc.2.set tid first)

/-- `sqdata.hashes` and the first `sq_deferred`. -/
def initialHashes : Dict Str Tid × Dict Tid Tid :=
  (rq.byMulticonfig rq.runqSetsceneTids).foldl rq.addHash ([], [])

/-- One migrated task that may have to wait for another one. -/
def redefer (s : RunQueueExecute Tid) (tid : Tid) : RunQueueExecute Tid :=
  match rq.initialHashes.1.get? (rq.pendingHashIndex s.unihash tid) with
  | none => s
  | some first =>
      if tid ≠ first then { s with sqDeferred := s.sqDeferred.set tid first }
      else s

/-- The tasks behind those whose unihash has changed. -/
def affected (toprocess : List Tid) : List Tid :=
  rq.dependents (rq.runtaskentries.length + 1)
    (toprocess.flatMap rq.revdeps).dedup []

/-- The rehash loop for the tasks whose unihash has changed. -/
def rehashFrom (s : RunQueueExecute Tid) (toprocess : List Tid) : Rehash Tid :=
  let total := rq.affected toprocess
  rq.rehash total.getLast? (total.length + 1)
    { s := s
      total := total
      next := total.filter fun p => ∀ dep ∈ rq.depends p, dep ∉ total
      changed := [] }

/-- The part of `process_possible_migrations` that regenerates hashes, with
the tasks whose hash has changed. -/
def rehashAll (s : RunQueueExecute Tid) : RunQueueExecute Tid × List Tid :=
  let (s, toprocess) := s.updatedTaskhashQueue.foldl takeUpdate (s, [])
  let done := rq.rehashFrom s toprocess
  (done.s, done.changed)

/-- The setscene tasks `update_tasks` are put back into the scene queue. -/
def requeueAll (tids : List Tid) (s : RunQueueExecute Tid) :
    RunQueueExecute Tid :=
  let failing := tids.filter (rq.harddepfail s)
  let s := tids.foldl rq.requeue s
  let s :=
    if tids = [] then s
    else
      rq.updateScenequeueData tids <|
        (rq.byMulticonfig tids).foldl rq.redefer { s with sqdone := false }
  failing.foldl (fun s tid => rq.sqTaskFailoutright tid s) s

/-- `process_possible_migrations` up to the end of the loop over
`pending_migrations`. -/
def migrateAll (s : RunQueueExecute Tid) : Migration Tid :=
  let (s, changed) := rq.rehashAll s
  let pendingMigrations :=
    changed.filter (· ∈ rq.runqSetsceneTids) ∪ s.pendingMigrations
  pendingMigrations.foldl rq.migrate
    { s := { s with pendingMigrations := pendingMigrations }
      changed := changed ≠ [], updateTasks := [], halted := false }

/-- The end of `process_possible_migrations`, when it does not halt. -/
def settle (migrated : Migration Tid) : RunQueueExecute Tid :=
  let s := rq.requeueAll migrated.updateTasks migrated.s
  if migrated.changed then
    { s with
      stats := s.stats.updateCovered s.scenequeueCovered.length
        s.scenequeueNotcovered.length
      sqNeededHarddeps := []
      sqHarddepDeferred := []
      holdoffNeedUpdate := true }
  else s

/-- `process_possible_migrations`. -/
def processPossibleMigrations (s : RunQueueExecute Tid) :
    RunQueueExecute Tid :=
  let migrated := rq.migrateAll s
  if migrated.halted then migrated.s else rq.settle migrated

end Prepared

end Nvbmc.RunQueue
