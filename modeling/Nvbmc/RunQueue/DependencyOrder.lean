import Nvbmc.RunQueue.ActiveTasks
import Nvbmc.RunQueue.MigrationCases
import Nvbmc.RunQueue.SceneComplete

/-!
# Tasks run in the order of their dependencies

A task becomes buildable in four places, and each of them has seen all of its
dependencies complete.  Nothing that happens to setscene tasks, a hash
migration included, touches the sets of real tasks; `RealKept` says so for
every such part of `execute`.
-/

namespace Nvbmc.RunQueue

open Nvbmc.Library

variable {Tid : Type}

/-- The real tasks whose start was announced, the latest first; a worker is
never sent another one. -/
def handedTasks : List (Event Tid) → List Tid
  | [] => []
  | .taskStarted task false :: earlier => task :: handedTasks earlier
  | _ :: earlier => handedTasks earlier

/-- The setscene tasks whose start was announced, the latest first. -/
def handedScenes : List (Event Tid) → List Tid
  | [] => []
  | .sceneTaskStarted task :: earlier => task :: handedScenes earlier
  | _ :: earlier => handedScenes earlier

/-- A step that leaves the real tasks alone and starts nothing. -/
structure RealKept (s s' : RunQueueExecute Tid) : Prop where
  running : s'.state = .running → s.state = .running
  runqBuildable : s'.runqBuildable = s.runqBuildable
  runqRunning : s'.runqRunning = s.runqRunning
  runqComplete : s'.runqComplete = s.runqComplete
  schedBuildable : s'.schedBuildable = s.schedBuildable
  holdoffTasks : s'.holdoffTasks = s.holdoffTasks
  handedTasks : handedTasks s'.events = handedTasks s.events
  handedScenes : handedScenes s'.events = handedScenes s.events

namespace RealKept

variable {s s' s'' : RunQueueExecute Tid}

theorem refl (s : RunQueueExecute Tid) : RealKept s s :=
  ⟨id, rfl, rfl, rfl, rfl, rfl, rfl, rfl⟩

theorem trans (first : RealKept s s') (second : RealKept s' s'') :
    RealKept s s'' where
  running := fun running => first.running (second.running running)
  runqBuildable := second.runqBuildable.trans first.runqBuildable
  runqRunning := second.runqRunning.trans first.runqRunning
  runqComplete := second.runqComplete.trans first.runqComplete
  schedBuildable := second.schedBuildable.trans first.schedBuildable
  holdoffTasks := second.holdoffTasks.trans first.holdoffTasks
  handedTasks := second.handedTasks.trans first.handedTasks
  handedScenes := second.handedScenes.trans first.handedScenes

end RealKept

namespace Prepared

variable [LinearOrder Tid] (rq : Prepared Tid)

variable {s s' : RunQueueExecute Tid}

omit [LinearOrder Tid] rq in
theorem Rechecked.realKept (rechecked : Rechecked s s') : RealKept s s' := by
  obtain ⟨_, _, _, _, _, _, _, rfl⟩ := rechecked
  exact ⟨id, rfl, rfl, rfl, rfl, rfl, rfl, rfl⟩

omit [LinearOrder Tid] rq in
theorem Browsed.realKept (passed : Browsed s s') : RealKept s s' := by
  obtain ⟨_, _, _, _, _, rfl⟩ := passed
  exact ⟨id, rfl, rfl, rfl, rfl, rfl, rfl, rfl⟩

theorem Passed.realKept {rq : Prepared Tid} {task : Tid}
    (passed : rq.Passed task s s') :
    RealKept s s' where
  running := fun running => passed.state ▸ running
  runqBuildable := passed.runqBuildable
  runqRunning := passed.runqRunning
  runqComplete := passed.runqComplete
  schedBuildable := passed.schedBuildable
  holdoffTasks := passed.holdoffTasks
  handedTasks := by rw [passed.events]
  handedScenes := by rw [passed.events]

variable (task : Tid)

theorem sqTaskCompleteoutright_realKept (s : RunQueueExecute Tid) :
    RealKept s (rq.sqTaskCompleteoutright task s) := by
  have marked : RealKept s { s with
      scenequeueCovered := s.scenequeueCovered.insert task } :=
    ⟨id, rfl, rfl, rfl, rfl, rfl, rfl, rfl⟩
  exact marked.trans (rq.updatecounters_passed task false _).1.realKept

theorem sqTaskFailoutright_realKept (s : RunQueueExecute Tid) :
    RealKept s (rq.sqTaskFailoutright task s) := by
  have marked : RealKept s (markFailoutright task s) :=
    ⟨id, rfl, rfl, rfl, rfl, rfl, rfl, rfl⟩
  exact marked.trans (rq.updatecounters_passed task true _).1.realKept

theorem sqTaskSkip_realKept (reason : SceneSkipReason)
    (s : RunQueueExecute Tid) : RealKept s (rq.sqTaskSkip task reason s) := by
  refine .trans ?_ (rq.sqTaskCompleteoutright_realKept task _)
  exact ⟨id, rfl, rfl, rfl, rfl, rfl, rfl, rfl⟩

theorem sqTaskComplete_realKept (s : RunQueueExecute Tid) :
    RealKept s (rq.sqTaskComplete task s) := by
  refine .trans ?_ (rq.sqTaskCompleteoutright_realKept task _)
  exact ⟨id, rfl, rfl, rfl, rfl, rfl, rfl, rfl⟩

theorem sqTaskFail_realKept (result : ℤ)
    (s : RunQueueExecute Tid) : RealKept s (rq.sqTaskFail task result s) := by
  have marked : RealKept s { s.fire (.sceneTaskFailed task result) with
      scenequeueNotcovered := s.scenequeueNotcovered.insert task } :=
    ⟨id, rfl, rfl, rfl, rfl, rfl, rfl, rfl⟩
  have checked : ∀ failed : RunQueueExecute Tid,
      RealKept failed (rq.sqCheckTaskfail task failed) := by
    intro failed
    unfold sqCheckTaskfail
    split_ifs
    · exact ⟨by simp, rfl, rfl, rfl, rfl, rfl, rfl, rfl⟩
    · exact .refl failed
  exact marked.trans
    ((rq.updatecounters_passed task true _).1.realKept.trans (checked _))

theorem updateScenequeueData_realKept (tids : List Tid)
    (s : RunQueueExecute Tid) :
    RealKept s (rq.updateScenequeueData tids s) :=
  rq.updateScenequeueData_induction (motive := RealKept s)
    (fun _ _ rechecked soFar => soFar.trans rechecked.realKept)
    (fun _ tid reason _ _ soFar =>
      soFar.trans (rq.sqTaskSkip_realKept tid reason _)) (.refl s)

omit [LinearOrder Tid] rq in
theorem Noted.realKept (noted : Noted s s') : RealKept s s' := by
  obtain ⟨logged, _, _, _, _, _, _, _, _, quiet, rfl⟩ := noted
  refine ⟨id, rfl, rfl, rfl, rfl, rfl, ?_, ?_⟩
  all_goals
    induction logged with
    | nil => rfl
    | cons event logged induction =>
        have later := induction fun event member =>
          quiet event (List.mem_cons_of_mem _ member)
        have rehashes := quiet event List.mem_cons_self
        cases event <;> first | exact later | exact rehashes.elim

theorem MigrationStep.realKept {rq : Prepared Tid} {migrating : List Tid}
    (step : rq.MigrationStep migrating s s') :
    RealKept s s' := by
  cases step with
  | noted noted => exact Noted.realKept noted
  | halted => exact ⟨by simp, rfl, rfl, rfl, rfl, rfl, rfl, rfl⟩
  | rechecked rechecked => exact Rechecked.realKept rechecked
  | skipped => exact rq.sqTaskSkip_realKept _ _ _
  | failed => exact rq.sqTaskFailoutright_realKept _ _
  | _ => exact ⟨id, rfl, rfl, rfl, rfl, rfl, rfl, rfl⟩

theorem processPossibleMigrations_realKept (s : RunQueueExecute Tid) :
    RealKept s (rq.processPossibleMigrations s) := by
  have steps := rq.processPossibleMigrations_steps s
  generalize rq.processPossibleMigrations s = final at steps
  induction steps with
  | refl => exact .refl s
  | tail _ step induction => exact induction.trans step.realKept

/-- Tasks become buildable behind their dependencies, run when buildable and
complete when running; the workers have the live setscene tasks and tasks that
run. -/
structure Ordered (s : RunQueueExecute Tid) : Prop where
  depends : ∀ {tid}, tid ∈ s.runqBuildable →
    rq.depends tid ⊆ s.runqComplete
  running : s.runqRunning ⊆ s.runqBuildable
  complete : s.runqComplete ⊆ s.runqRunning
  schedBuildable : s.schedBuildable ⊆ s.runqBuildable
  sqRunning : s.sqLive ⊆ s.sqRunning
  nodup : s.sqLive.Nodup
  workers : ∃ real, real ⊆ s.runqRunning ∧ s.workers.Perm (s.sqLive ++ real)
  started : s.state = .running → handedTasks s.events ⊆ s.runqRunning
  once : (handedTasks s.events).Nodup

namespace Ordered

variable {rq} {s s' : RunQueueExecute Tid} {task : Tid}

theorem kept (ordered : rq.Ordered s) (kept : RealKept s s')
    (neutral : Neutral s s') : rq.Ordered s' := by
  constructor
  · rw [kept.runqBuildable, kept.runqComplete]
    exact ordered.depends
  · rw [kept.runqRunning, kept.runqBuildable]
    exact ordered.running
  · rw [kept.runqComplete, kept.runqRunning]
    exact ordered.complete
  · rw [kept.schedBuildable, kept.runqBuildable]
    exact ordered.schedBuildable
  · intro tid live
    rw [neutral.sqLive] at live
    exact neutral.sqRunning live (ordered.sqRunning live)
  · rw [neutral.sqLive]
    exact ordered.nodup
  · rw [neutral.workers, neutral.sqLive, kept.runqRunning]
    exact ordered.workers
  · intro running
    rw [kept.handedTasks, kept.runqRunning]
    exact ordered.started (kept.running running)
  · rw [kept.handedTasks]
    exact ordered.once

private theorem setbuildable (ordered : rq.Ordered s)
    (ready : rq.depends task ⊆ s.runqComplete) :
    rq.Ordered (s.setbuildable task) where
  depends := by
    intro tid buildable
    rcases List.mem_insert_iff.mp buildable with rfl | old
    · exact ready
    · exact ordered.depends old
  running := fun _ running =>
    List.mem_insert_of_mem (ordered.running running)
  complete := ordered.complete
  schedBuildable := by
    intro tid buildable
    rcases List.mem_insert_iff.mp buildable with rfl | old
    · exact List.mem_insert_self
    · exact List.mem_insert_of_mem (ordered.schedBuildable old)
  sqRunning := ordered.sqRunning
  nodup := ordered.nodup
  workers := ordered.workers
  started := ordered.started
  once := ordered.once

private theorem setbuildableRevdep (ordered : rq.Ordered s) (revdep : Tid) :
    rq.Ordered (rq.setbuildableRevdep s revdep) := by
  unfold Prepared.setbuildableRevdep
  split_ifs with known ready
  · exact ordered
  · exact ordered.setbuildable ready
  · exact ordered

private theorem releaseDeferred (task : Tid)
    {acc : RunQueueExecute Tid × Option Tid} (ordered : rq.Ordered acc.1)
    (tid : Tid) : rq.Ordered (rq.releaseDeferred task acc tid).1 := by
  have deferrals : ∀ sqDeferred, rq.Ordered
      { acc.1 with sqDeferred := sqDeferred } := fun _ =>
    ordered.kept ⟨id, rfl, rfl, rfl, rfl, rfl, rfl, rfl⟩
      ⟨rfl, rfl, rfl, rfl, rfl, fun _ => id⟩
  unfold Prepared.releaseDeferred
  split_ifs
  · split
    · exact (deferrals _).kept (rq.updateScenequeueData_realKept [tid] _)
        (rq.updateScenequeueData_neutral [tid] _)
    · exact deferrals _
  · exact ordered

variable (ordered : rq.Ordered s)
include ordered

theorem taskCompleteoutright (running : task ∈ s.runqRunning) :
    rq.Ordered (rq.taskCompleteoutright task s) := by
  have completed : rq.Ordered
      { s with runqComplete := s.runqComplete.insert task } :=
    { depends := fun buildable => fun _ member =>
        List.mem_insert_of_mem (ordered.depends buildable member)
      running := ordered.running
      complete := by
        intro tid complete
        rcases List.mem_insert_iff.mp complete with rfl | old
        · exact running
        · exact ordered.complete old
      schedBuildable := ordered.schedBuildable
      sqRunning := ordered.sqRunning
      nodup := ordered.nodup
      workers := ordered.workers
      started := ordered.started
      once := ordered.once }
  have buildable := List.foldlRecOn (motive := rq.Ordered) (rq.revdeps task)
    rq.setbuildableRevdep completed
    fun _ soFar revdep _ => soFar.setbuildableRevdep revdep
  exact List.foldlRecOn
    (motive := fun acc : RunQueueExecute Tid × Option Tid =>
      rq.Ordered acc.1) _ _ buildable
    fun _ soFar tid _ => soFar.releaseDeferred task tid

private theorem bookkeeping (stats : RunQueueStats)
    (failedTids runqTasksrun : List Tid)
    {event : Event Tid} (tasks : handedTasks (event :: s.events) =
      handedTasks s.events) :
    rq.Ordered { s.fire event with
      stats := stats, failedTids := failedTids
      runqTasksrun := runqTasksrun } where
  depends := ordered.depends
  running := ordered.running
  complete := ordered.complete
  schedBuildable := ordered.schedBuildable
  sqRunning := ordered.sqRunning
  nodup := ordered.nodup
  workers := ordered.workers
  started := fun running => tasks.symm ▸ ordered.started running
  once := tasks.symm ▸ ordered.once

private theorem markRunning (buildable : task ∈ s.runqBuildable) :
    rq.Ordered { s with runqRunning := s.runqRunning.insert task } where
  depends := ordered.depends
  running := by
    intro tid running
    rcases List.mem_insert_iff.mp running with rfl | old
    · exact buildable
    · exact ordered.running old
  complete := fun _ complete =>
    List.mem_insert_of_mem (ordered.complete complete)
  schedBuildable := ordered.schedBuildable
  sqRunning := ordered.sqRunning
  nodup := ordered.nodup
  workers := by
    obtain ⟨real, subset, perm⟩ := ordered.workers
    exact ⟨real, fun _ member => List.mem_insert_of_mem (subset member), perm⟩
  started := fun running _ member =>
    List.mem_insert_of_mem (ordered.started running member)
  once := ordered.once

private theorem taskComplete (running : task ∈ s.runqRunning) :
    rq.Ordered (rq.taskComplete task s) := by
  have counted : rq.Ordered ({ s with
      stats := s.stats.taskCompleted }.fire (.taskCompleted task)) :=
    ordered.bookkeeping _ _ _ rfl
  exact (counted.taskCompleteoutright running).kept
    ⟨id, rfl, rfl, rfl, rfl, rfl, rfl, rfl⟩
    ⟨rfl, rfl, rfl, rfl, rfl, fun _ => id⟩

private theorem taskSkip (reason : SkipReason)
    (buildable : task ∈ s.runqBuildable) :
    rq.Ordered (rq.taskSkip task reason s) := by
  have marked := (ordered.markRunning buildable).setbuildable
    (ordered.depends buildable)
  have fired : rq.Ordered (({ s with
      runqRunning := s.runqRunning.insert task }.setbuildable task).fire
        (.taskSkipped task reason)) :=
    marked.kept ⟨id, rfl, rfl, rfl, rfl, rfl, rfl, rfl⟩
      ⟨rfl, rfl, rfl, rfl, rfl, fun _ => id⟩
  have running : task ∈ s.runqRunning.insert task := List.mem_insert_self
  exact (fired.taskCompleteoutright running).kept
    ⟨id, rfl, rfl, rfl, rfl, rfl, rfl, rfl⟩
    ⟨Int.add_sub_cancel _ 1, rfl, rfl, rfl, rfl, fun _ => id⟩

private theorem taskFail (task : Tid)
    (exitcode : ExitCode) : rq.Ordered (rq.taskFail task exitcode s) := by
  have failed : rq.Ordered ({ s with
      stats := s.stats.taskFailed
      failedTids := s.failedTids ++ [task] }.fire
        (.taskFailed task exitcode)) :=
    ordered.bookkeeping _ _ _ rfl
  unfold Prepared.taskFail
  dsimp only
  split_ifs
  · exact failed.kept ⟨by simp, rfl, rfl, rfl, rfl, rfl, rfl, rfl⟩
      ⟨rfl, rfl, rfl, rfl, rfl, fun _ => id⟩
  · exact failed

omit ordered

variable {checked : RunQueueExecute Tid}
include ordered

private theorem taskStarted (buildable : task ∈ s.runqBuildable)
    (fresh : task ∉ s.runqRunning)
    (announced : handedTasks s.events ⊆ s.runqRunning)
    (rechecked : Rechecked (s.fire (.taskStarted task false)) checked) :
    rq.Ordered (rq.taskStarted task checked) := by
  obtain ⟨_, _, _, _, _, _, _, rfl⟩ := rechecked
  have marked := ordered.markRunning buildable
  obtain ⟨real, subset, perm⟩ := ordered.workers
  exact
    { depends := marked.depends
      running := marked.running
      complete := marked.complete
      schedBuildable := marked.schedBuildable
      sqRunning := marked.sqRunning
      nodup := marked.nodup
      workers := by
        refine ⟨task :: real, ?_, (perm.cons task).trans List.perm_middle.symm⟩
        intro tid member
        rcases List.mem_cons.mp member with rfl | old
        · exact List.mem_insert_self
        · exact List.mem_insert_of_mem (subset old)
      started := by
        intro _ tid member
        rcases List.mem_cons.mp member with rfl | old
        · exact List.mem_insert_self
        · exact List.mem_insert_of_mem (announced old)
      once := List.nodup_cons.mpr
        ⟨fun member => fresh (announced member), ordered.once⟩ }

private theorem unstartable (fresh : task ∉ s.runqRunning)
    (announced : handedTasks s.events ⊆ s.runqRunning) (stats : RunQueueStats)
    (rechecked : Rechecked (s.fire (.taskStarted task false)) checked) :
    rq.Ordered { checked with state := .failed, stats := stats } := by
  obtain ⟨_, _, _, _, _, _, _, rfl⟩ := rechecked
  exact
    { depends := ordered.depends
      running := ordered.running
      complete := ordered.complete
      schedBuildable := ordered.schedBuildable
      sqRunning := ordered.sqRunning
      nodup := ordered.nodup
      workers := ordered.workers
      started := by simp
      once := List.nodup_cons.mpr
        ⟨fun member => fresh (announced member), ordered.once⟩ }

private theorem completeNoexec (buildable : task ∈ s.runqBuildable) :
    rq.Ordered (rq.taskComplete task
      (markActive task (s.fire (.taskStarted task true)))) := by
  have announced : rq.Ordered { s.fire (.taskStarted task true) with
      stats := s.stats.taskActive } :=
    ordered.bookkeeping _ s.failedTids s.runqTasksrun rfl
  have active : rq.Ordered
      (markActive task (s.fire (.taskStarted task true))) :=
    announced.markRunning buildable
  exact active.taskComplete List.mem_insert_self

private theorem sceneStarted (idle : task ∉ s.sqRunning)
    (rechecked : Rechecked (s.fire (.sceneTaskStarted task)) checked) :
    rq.Ordered (rq.sceneStarted task checked) := by
  obtain ⟨_, _, _, _, _, _, _, rfl⟩ := rechecked
  have fresh : task ∉ s.sqLive := fun live => idle (ordered.sqRunning live)
  have inserted : s.sqLive.insert task = task :: s.sqLive :=
    List.insert_of_not_mem fresh
  obtain ⟨real, subset, perm⟩ := ordered.workers
  exact
    { depends := ordered.depends
      running := ordered.running
      complete := ordered.complete
      schedBuildable := ordered.schedBuildable
      sqRunning := by
        intro tid live
        rcases List.mem_insert_iff.mp live with rfl | old
        · exact List.mem_insert_self
        · exact List.mem_insert_of_mem (ordered.sqRunning old)
      nodup := List.Nodup.insert ordered.nodup
      workers := by
        refine ⟨real, subset, ?_⟩
        show (task :: s.workers).Perm (s.sqLive.insert task ++ real)
        rw [inserted]
        exact perm.cons task
      started := ordered.started
      once := ordered.once }

end Ordered

/-- Between two calls of the scheduler: no announced task can be scheduled
again. -/
structure Schedulable (s : RunQueueExecute Tid) : Prop
    extends rq.Ordered s where
  announced : handedTasks s.events ⊆ s.runqRunning

namespace Schedulable

variable {rq} {s s' : RunQueueExecute Tid} {task : Tid}
  (schedulable : rq.Schedulable s)
include schedulable

theorem kept (kept : RealKept s s')
    (neutral : Neutral s s') : rq.Schedulable s' where
  toOrdered := schedulable.toOrdered.kept kept neutral
  announced := by
    rw [kept.handedTasks, kept.runqRunning]
    exact schedulable.announced

private theorem sceneStarted {checked : RunQueueExecute Tid}
    (idle : task ∉ s.sqRunning)
    (rechecked : Rechecked (s.fire (.sceneTaskStarted task)) checked) :
    rq.Schedulable (rq.sceneStarted task checked) where
  toOrdered := schedulable.toOrdered.sceneStarted idle rechecked
  announced := by
    obtain ⟨_, _, _, _, _, _, _, rfl⟩ := rechecked
    exact schedulable.announced

private theorem startScene (idle : task ∉ s.sqRunning) :
    (rq.startScene task s).Ends rq.Schedulable := by
  have cases := rq.startScene_cases task s
  generalize rq.startScene task s = flow at cases ⊢
  cases cases with
  | failed rechecked =>
      exact schedulable.kept
        (rechecked.realKept.trans (rq.sqTaskFailoutright_realKept task _))
        (rechecked.neutral.trans (rq.sqTaskFailoutright_neutral task _))
  | skipped rechecked =>
      exact schedulable.kept
        (rechecked.realKept.trans (rq.sqTaskSkip_realKept task _ _))
        (rechecked.neutral.trans (rq.sqTaskSkip_neutral task _ _))
  | raised => trivial
  | returned rechecked => exact schedulable.sceneStarted idle rechecked
  | goOn rechecked => exact schedulable.sceneStarted idle rechecked

private theorem executeScene : (rq.executeScene s).Ends rq.Schedulable := by
  have deferrals : ∀ {browsed : RunQueueExecute Tid} {sqDeferred},
      Browsed s browsed →
      rq.Schedulable { browsed with sqDeferred := sqDeferred } := by
    intro browsed sqDeferred passed
    exact (schedulable.kept passed.realKept passed.neutral).kept
      ⟨id, rfl, rfl, rfl, rfl, rfl, rfl, rfl⟩
      ⟨rfl, rfl, rfl, rfl, rfl, fun _ => id⟩
  unfold Prepared.executeScene
  split_ifs
  · have cases := rq.sceneLoop_cases rq.runqSetsceneTids.length s
    generalize rq.sceneLoop rq.runqSetsceneTids.length s = flow at cases ⊢
    cases cases with
    | @notNeeded browsed task passed =>
        have skipped := (schedulable.kept passed.realKept passed.neutral).kept
          (rq.sqTaskSkip_realKept task .notNeeded browsed)
          (rq.sqTaskSkip_neutral task .notNeeded browsed)
        exact skipped.kept ⟨id, rfl, rfl, rfl, rfl, rfl, rfl, rfl⟩
          ⟨rfl, rfl, rfl, rfl, rfl, fun _ => id⟩
    | deferred passed => exact schedulable.kept passed.realKept passed.neutral
    | failed passed =>
        exact (deferrals passed).kept (rq.sqTaskFailoutright_realKept _ _)
          (rq.sqTaskFailoutright_neutral _ _)
    | @picked browsed task passed _ idle =>
        have picked : rq.Schedulable { browsed with
            sqDeferred := browsed.sqDeferred.del task } := deferrals passed
        obtain ⟨_, _, _, _, _, rfl⟩ := passed
        exact picked.startScene idle
    | none passed => exact schedulable.kept passed.realKept passed.neutral
  · exact schedulable

private theorem executeSceneDone :
    (rq.executeSceneDone s).Ends rq.Schedulable := by
  have cases := rq.executeSceneDone_cases s
  generalize rq.executeSceneDone s = flow at cases ⊢
  cases cases with
  | goOn => exact schedulable
  | finished =>
      exact schedulable.kept ⟨id, rfl, rfl, rfl, rfl, rfl, rfl, rfl⟩
        ⟨rfl, rfl, rfl, rfl, rfl, fun _ => id⟩
  | returned =>
      exact { schedulable with started := fun _ => schedulable.announced }

private theorem updateHoldofftasks :
    rq.Schedulable (rq.updateHoldofftasks s) := by
  have ready : rq.Ordered ((rq.notcovered s ++ rq.covered s).foldl
      rq.setbuildableReady s) := by
    refine List.foldlRecOn (motive := rq.Ordered) _ _ schedulable.toOrdered ?_
    intro before soFar tid _
    unfold setbuildableReady
    split_ifs with complete
    · exact soFar.setbuildable complete
    · exact soFar
  obtain ⟨_, _, same⟩ := foldl_setbuildable rq.setbuildableReady_each
    (rq.notcovered s ++ rq.covered s) s
  unfold Prepared.updateHoldofftasks
  split_ifs
  · rw [same] at ready ⊢
    exact { ready with announced := schedulable.announced }
  · exact schedulable

theorem executeNext :
    (∀ s', rq.executeNext s = .returned s' → rq.Schedulable s') ∧
      ∀ s' chosen, rq.executeNext s = .goOn s' chosen →
        rq.Schedulable s' ∧ ∀ task ∈ chosen, rq.Scheduled s' task := by
  have ends := rq.executeNext_ends rq.Schedulable rq.Schedulable schedulable
    (fun _ => schedulable.kept (rq.processPossibleMigrations_realKept s)
      (rq.processPossibleMigrations_neutral s))
    (fun _ => executeScene) (fun _ => updateHoldofftasks)
    (fun _ => executeSceneDone)
    (fun s _ _ subset (schedulable : rq.Schedulable s) =>
      { schedulable with
        schedBuildable := fun _ member =>
          schedulable.schedBuildable (subset member) })
  exact ⟨fun s' same => (ends.1 s' same).elim id id, ends.2⟩

private theorem taskStarted {checked : RunQueueExecute Tid}
    (buildable : task ∈ s.runqBuildable) (fresh : task ∉ s.runqRunning)
    (rechecked : Rechecked (s.fire (.taskStarted task false)) checked) :
    rq.Schedulable (rq.taskStarted task checked) where
  toOrdered := schedulable.toOrdered.taskStarted buildable fresh
    schedulable.announced rechecked
  announced := by
    obtain ⟨_, _, _, _, _, _, _, rfl⟩ := rechecked
    intro tid member
    rcases List.mem_cons.mp member with rfl | old
    · exact List.mem_insert_self
    · exact List.mem_insert_of_mem (schedulable.announced old)

private theorem startTask (scheduled : rq.Scheduled s task) :
    (∀ s', rq.startTask task s = .returned s' → rq.Ordered s') ∧
      ∀ s', rq.startTask task s = .goOn s' () → rq.Schedulable s' := by
  have buildable := schedulable.schedBuildable scheduled.schedBuildable
  have fresh := scheduled.runqRunning
  have checkedAgain : ∀ {checked}, Rechecked s checked →
      rq.Ordered checked ∧ task ∈ checked.runqBuildable := fun rechecked =>
    ⟨schedulable.toOrdered.kept rechecked.realKept rechecked.neutral,
      rechecked.realKept.runqBuildable ▸ buildable⟩
  have cases := rq.startTask_cases task s
  generalize rq.startTask task s = flow at cases ⊢
  cases cases with
  | refused rechecked =>
      refine ⟨?_, by simp⟩
      rintro _ ⟨⟩
      exact (checkedAgain rechecked).1.taskFail _ _
  | covered rechecked =>
      refine ⟨?_, by simp⟩
      rintro _ ⟨⟩
      obtain ⟨kept, buildable⟩ := checkedAgain rechecked
      exact kept.taskSkip .covered buildable
  | existing rechecked =>
      refine ⟨?_, by simp⟩
      rintro _ ⟨⟩
      obtain ⟨kept, buildable⟩ := checkedAgain rechecked
      exact (kept.taskSkip .existing buildable).kept
        ⟨id, rfl, rfl, rfl, rfl, rfl, rfl, rfl⟩
        ⟨rfl, rfl, rfl, rfl, rfl, fun _ => id⟩
  | noexec rechecked =>
      refine ⟨?_, by simp⟩
      rintro _ ⟨⟩
      obtain ⟨kept, buildable⟩ := checkedAgain rechecked
      exact kept.completeNoexec buildable
  | unstartable rechecked =>
      refine ⟨?_, by simp⟩
      rintro _ ⟨⟩
      exact schedulable.toOrdered.unstartable fresh schedulable.announced _
        rechecked
  | returned rechecked =>
      refine ⟨?_, by simp⟩
      rintro _ ⟨⟩
      exact (schedulable.taskStarted buildable fresh rechecked).toOrdered
  | goOn rechecked =>
      refine ⟨by simp, ?_⟩
      rintro _ ⟨⟩
      exact schedulable.taskStarted buildable fresh rechecked

private theorem executeIdle : rq.Schedulable (rq.executeIdle s) := by
  obtain ⟨_, _, _, same, fired, -⟩ := rq.executeIdle_cases s
  rw [same]
  rcases fired with rfl | rfl
  · exact { schedulable with started := fun _ => schedulable.announced }
  · exact { schedulable with started := fun _ => schedulable.announced }

end Schedulable

namespace Ordered

variable {rq} {s s' : RunQueueExecute Tid} {task : Tid} (ordered : rq.Ordered s)
include ordered

private theorem execute (running : s.state = .running)
    (executed : rq.execute s = some s') : rq.Ordered s' := by
  obtain ⟨returned, goOn⟩ := Schedulable.executeNext
    { ordered with announced := ordered.started running }
  unfold Prepared.execute at executed
  split at executed
  · simp at executed
  · rename_i flow
    cases executed
    exact (returned _ flow).toOrdered
  · rename_i flow
    cases executed
    exact (goOn _ _ flow).1.executeIdle.toOrdered
  · rename_i flow
    obtain ⟨schedulable, scheduled⟩ := goOn _ _ flow
    obtain ⟨stopped, went⟩ := schedulable.startTask (scheduled _ rfl)
    split at executed
    · simp at executed
    · rename_i flow
      cases executed
      exact stopped _ flow
    · rename_i flow
      cases executed
      exact (went _ flow).executeIdle.toOrdered

private theorem sceneEnded {ended : RunQueueExecute Tid}
    {stats : RunQueueStats} (live : task ∈ s.sqLive)
    (kept : RealKept s ended) (sqLive : ended.sqLive = s.sqLive)
    (sqRunning : ∀ tid ∈ s.sqLive, tid ∈ s.sqRunning → tid ∈ ended.sqRunning)
    (workers : ended.workers = s.workers.erase task) :
    rq.Ordered { ended with
      sqLive := discard ended.sqLive task, stats := stats } := by
  have left : discard ended.sqLive task = s.sqLive.erase task := by
    rw [sqLive, ordered.nodup.erase_eq_filter, discard]
    exact List.filter_congr fun other _ => by
      by_cases same : other = task <;> simp [same]
  rw [left]
  obtain ⟨real, subset, perm⟩ := ordered.workers
  constructor
  · rw [kept.runqBuildable, kept.runqComplete]
    exact ordered.depends
  · rw [kept.runqRunning, kept.runqBuildable]
    exact ordered.running
  · rw [kept.runqComplete, kept.runqRunning]
    exact ordered.complete
  · rw [kept.schedBuildable, kept.runqBuildable]
    exact ordered.schedBuildable
  · intro tid member
    have old := List.mem_of_mem_erase member
    exact sqRunning tid old (ordered.sqRunning old)
  · exact ordered.nodup.erase task
  · refine ⟨real, kept.runqRunning ▸ subset, ?_⟩
    rw [workers, ← List.erase_append_left _ live]
    exact perm.erase task
  · intro running
    rw [kept.handedTasks, kept.runqRunning]
    exact ordered.started (kept.running running)
  · rw [kept.handedTasks]
    exact ordered.once

private theorem waitpid_scene (status : ℤ) (live : task ∈ s.sqLive) :
    rq.Ordered (rq.runqueueProcessWaitpid task status s) := by
  have exited : RealKept s { s with
      workers := s.workers.erase task
      buildStamps := s.buildStamps.del task } :=
    ⟨id, rfl, rfl, rfl, rfl, rfl, rfl, rfl⟩
  simp only [runqueueProcessWaitpid, if_pos live]
  split_ifs
  · have neutral := rq.sqTaskFail_neutral task status { s with
      workers := s.workers.erase task
      buildStamps := s.buildStamps.del task }
    exact ordered.sceneEnded live
      (exited.trans (rq.sqTaskFail_realKept task status _)) neutral.sqLive
      (fun _ => neutral.sqRunning) neutral.workers
  · have neutral := rq.sqTaskComplete_neutral task { s with
      workers := s.workers.erase task
      buildStamps := s.buildStamps.del task }
    exact ordered.sceneEnded live
      (exited.trans (rq.sqTaskComplete_realKept task _)) neutral.sqLive
      (fun _ => neutral.sqRunning) neutral.workers

private theorem waitpid_task (status : ℤ)
    (sent : task ∈ s.workers) (real : task ∉ s.sqLive) :
    rq.Ordered (rq.runqueueProcessWaitpid task status s) := by
  obtain ⟨tasks, subset, perm⟩ := ordered.workers
  have member : task ∈ tasks :=
    (List.mem_append.mp (perm.mem_iff.mp sent)).resolve_left real
  have exited : rq.Ordered { s with
      workers := s.workers.erase task
      buildStamps := s.buildStamps.del task } :=
    { ordered with
      workers := by
        refine ⟨tasks.erase task, ?_, ?_⟩
        · exact fun _ other => subset (List.mem_of_mem_erase other)
        · rw [← List.erase_append_right _ real]
          exact perm.erase task }
  simp only [runqueueProcessWaitpid, if_neg real]
  split_ifs
  · exact exited.taskFail task _
  · exact exited.taskComplete (subset member)

theorem step {action : Action Tid}
    (step : rq.Step s action s') : rq.Ordered s' := by
  cases step with
  | execute running executed => exact ordered.execute running executed
  | @waitpid task status sent =>
      by_cases live : task ∈ s.sqLive
      · exact ordered.waitpid_scene status live
      · exact ordered.waitpid_task status sent live
  | taskUniHashUpdate => exact { ordered with }
  | finish =>
      unfold Prepared.finish
      dsimp only
      split_ifs
      · exact { ordered with started := by simp [RunQueueExecute.fire] }
      · exact { ordered with started := by simp }
      · exact { ordered with started := by simp }
  | finishNow =>
      unfold Prepared.finishNow
      split_ifs <;> exact { ordered with started := by simp }

omit ordered

theorem initial : rq.Ordered rq.initial := by
  have blank : rq.Ordered rq.blank :=
    { depends := by
        intro tid buildable
        rw [(rq.builtFrom.setbuildable.mp buildable).2.2]
        exact List.nil_subset _
      running := List.nil_subset _
      complete := List.nil_subset _
      schedBuildable := fun _ => id
      sqRunning := List.nil_subset _
      nodup := .nil
      workers := ⟨[], List.nil_subset _, .refl _⟩
      started := fun _ => List.nil_subset _
      once := .nil }
  have initialised : rq.Ordered rq.initialised :=
    blank.kept (rq.updateScenequeueData_realKept _ _)
      (rq.updateScenequeueData_neutral _ _)
  unfold Prepared.initial
  split_ifs
  · have buildable : rq.Ordered
        ((rq.runtaskentries.filter (rq.depends · = [])).foldl
          RunQueueExecute.setbuildable rq.initialised) := by
      refine List.foldlRecOn (motive := rq.Ordered) _ _ initialised ?_
      intro before soFar tid member
      refine soFar.setbuildable ?_
      rw [of_decide_eq_true (List.mem_filter.mp member).2]
      exact List.nil_subset _
    exact { buildable with }
  · exact initialised

end Ordered

/-- Tasks run behind their dependencies, complete when running and buildable,
and are handed to a worker once. -/
structure DependencyOrdered (s : RunQueueExecute Tid) : Prop where
  depends : ∀ task, task ∈ s.runqRunning ∨ task ∈ s.runqComplete →
    rq.depends task ⊆ s.runqComplete
  running : s.runqComplete ⊆ s.runqRunning
  buildable : s.runqComplete ⊆ s.runqBuildable
  once : (handedTasks s.events).Nodup

/-- In every reachable state, after any completions, failures and hash
migrations, the real tasks are in the order of their dependencies. -/
theorem dependency_ordered {s : RunQueueExecute Tid}
    (reached : Reachable (· = rq.initial) rq.Step (fun _ _ => True) s) :
    rq.DependencyOrdered s := by
  have ordered : rq.Ordered s := by
    refine reached.invariant ?_ fun _ _ _ ordered _ step => ordered.step step
    rintro _ rfl
    exact .initial
  have running : ∀ task ∈ s.runqRunning, rq.depends task ⊆ s.runqComplete :=
    fun task member => ordered.depends (ordered.running member)
  constructor
  · rintro task (member | member)
    · exact running task member
    · exact running task (ordered.complete member)
  · exact ordered.complete
  · exact fun task member => ordered.running (ordered.complete member)
  · exact ordered.once

theorem dependency_ordered_chain :
    ∃ s, follow chain.perform (fun _ _ => True)
        [.execute, .execute, .waitpid 2 0, .execute] chain.initial = some s ∧
      chain.DependencyOrdered s := by
  have followed := Option.some_get (by decide :
    (follow chain.perform (fun _ _ => True)
      [.execute, .execute, .waitpid 2 0, .execute] chain.initial).isSome)
  exact ⟨_, followed.symm, chain.dependency_ordered <|
    .follow (fun s action s' => (chain.step_iff_perform s action s').mpr) _
      (.start rfl) followed.symm⟩

/-- In every reachable state the workers have just the setscene tasks that are
live and real tasks that were started, and what the scheduler offers is
buildable. -/
theorem workers_hold {s : RunQueueExecute Tid}
    (reached : Reachable (· = rq.initial) rq.Step (fun _ _ => True) s) :
    s.sqLive.Nodup ∧ s.sqLive ⊆ s.sqRunning ∧
      s.schedBuildable ⊆ s.runqBuildable ∧
      ∃ real ⊆ s.runqRunning, s.workers.Perm (s.sqLive ++ real) := by
  have ordered : rq.Ordered s := by
    refine reached.invariant ?_ fun _ _ _ ordered _ step => ordered.step step
    rintro _ rfl
    exact .initial
  exact ⟨ordered.nodup, ordered.sqRunning, ordered.schedBuildable,
    ordered.workers⟩

theorem workers_hold_chain :
    ∃ s, follow chain.perform (fun _ _ => True)
        [.execute, .execute, .waitpid 2 0, .execute] chain.initial = some s ∧
      ∃ real ⊆ s.runqRunning, s.workers.Perm (s.sqLive ++ real) := by
  have followed := Option.some_get (by decide :
    (follow chain.perform (fun _ _ => True)
      [.execute, .execute, .waitpid 2 0, .execute] chain.initial).isSome)
  obtain ⟨-, -, -, held⟩ := chain.workers_hold <|
    .follow (fun s action s' => (chain.step_iff_perform s action s').mpr) _
      (.start rfl) followed.symm
  exact ⟨_, followed.symm, held⟩

end Prepared

end Nvbmc.RunQueue
