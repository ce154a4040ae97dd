import Nvbmc.RunQueue.ExecuteCases

/-!
# Accounting for active tasks

The events say which tasks were started and have neither completed nor failed.
Most of `execute` is neutral to them; the few places that start or end a task
change the counter, the set of live setscene tasks and the worker processes
together, but for the two that count a task as failed that was never active.
-/

namespace Nvbmc.RunQueue

open Nvbmc.Library

variable {Tid : Type} [LinearOrder Tid]

/-- The tasks that were started and have neither completed nor failed. -/
def activeTasks : List (Event Tid) → List Tid
  | [] => []
  | .taskStarted task _ :: earlier => task :: activeTasks earlier
  | .taskCompleted task :: earlier => (activeTasks earlier).erase task
  | .taskFailed task _ :: earlier => (activeTasks earlier).erase task
  | _ :: earlier => activeTasks earlier

/-- The setscene tasks that were started and have neither completed nor
failed. -/
def liveSetscene : List (Event Tid) → List Tid
  | [] => []
  | .sceneTaskStarted task :: earlier => task :: liveSetscene earlier
  | .sceneTaskCompleted task :: earlier => (liveSetscene earlier).erase task
  | .sceneTaskFailed task _ :: earlier => (liveSetscene earlier).erase task
  | _ :: earlier => liveSetscene earlier

/-- A step that starts and ends no task. -/
structure Neutral (s s' : RunQueueExecute Tid) : Prop where
  active : s'.stats.active = s.stats.active
  sqLive : s'.sqLive = s.sqLive
  workers : s'.workers = s.workers
  activeTasks : activeTasks s'.events = activeTasks s.events
  liveSetscene : liveSetscene s'.events = liveSetscene s.events
  sqRunning : ∀ {tid}, tid ∈ s.sqLive → tid ∈ s.sqRunning → tid ∈ s'.sqRunning

namespace Neutral

variable {s s' s'' : RunQueueExecute Tid}

theorem refl (s : RunQueueExecute Tid) : Neutral s s :=
  ⟨rfl, rfl, rfl, rfl, rfl, fun _ => id⟩

theorem trans (first : Neutral s s') (second : Neutral s' s'') :
    Neutral s s'' where
  active := second.active.trans first.active
  sqLive := second.sqLive.trans first.sqLive
  workers := second.workers.trans first.workers
  activeTasks := second.activeTasks.trans first.activeTasks
  liveSetscene := second.liveSetscene.trans first.liveSetscene
  sqRunning := fun live running =>
    second.sqRunning (first.sqLive ▸ live) (first.sqRunning live running)

theorem after (second : Neutral s' s'') (first : Neutral s s') :
    Neutral s s'' :=
  first.trans second

theorem foldl {α : Type*} {visit : RunQueueExecute Tid → α →
      RunQueueExecute Tid} (items : List α)
    (each : ∀ s item, item ∈ items → Neutral s (visit s item))
    (s : RunQueueExecute Tid) : Neutral s (items.foldl visit s) :=
  List.foldlRecOn (motive := Neutral s) items visit (.refl s)
    fun _ soFar _ member => soFar.trans (each _ _ member)

end Neutral

namespace Prepared

variable (rq : Prepared Tid) {s s' : RunQueueExecute Tid}

omit rq in
theorem Rechecked.neutral (rechecked : Rechecked s s') : Neutral s s' := by
  obtain ⟨_, _, _, _, _, _, _, rfl⟩ := rechecked
  exact ⟨rfl, rfl, rfl, rfl, rfl, fun _ => id⟩

omit rq in
theorem Browsed.neutral (passed : Browsed s s') : Neutral s s' := by
  obtain ⟨_, _, _, _, _, rfl⟩ := passed
  exact ⟨rfl, rfl, rfl, rfl, rfl, fun _ => id⟩

theorem Passed.neutral {rq : Prepared Tid} {task : Tid}
    (passed : rq.Passed task s s') :
    Neutral s s' :=
  ⟨passed.active, passed.sqLive, passed.workers, by rw [passed.events],
    by rw [passed.events], fun _ running => passed.sqRunning running⟩

variable (task : Tid)

theorem sqTaskCompleteoutright_neutral (s : RunQueueExecute Tid) :
    Neutral s (rq.sqTaskCompleteoutright task s) :=
  (rq.updatecounters_passed task false _).1.neutral.after
    ⟨rfl, rfl, rfl, rfl, rfl, fun _ => id⟩

theorem sqTaskFailoutright_neutral (s : RunQueueExecute Tid) :
    Neutral s (rq.sqTaskFailoutright task s) :=
  (rq.updatecounters_passed task true _).1.neutral.after
    ⟨rfl, rfl, rfl, rfl, rfl,
      fun _ running => List.mem_insert_iff.mpr (.inr running)⟩

theorem sqTaskSkip_neutral (reason : SceneSkipReason)
    (s : RunQueueExecute Tid) : Neutral s (rq.sqTaskSkip task reason s) :=
  (rq.sqTaskCompleteoutright_neutral task _).after
    ⟨rfl, rfl, rfl, rfl, rfl,
      fun _ running => List.mem_insert_iff.mpr (.inr running)⟩

theorem sqTaskFail_neutral (result : ℤ) (s : RunQueueExecute Tid) :
    Neutral (s.fire (.sceneTaskFailed task result))
      (rq.sqTaskFail task result s) := by
  have checked : ∀ failed : RunQueueExecute Tid,
      Neutral failed (rq.sqCheckTaskfail task failed) := by
    intro failed
    unfold sqCheckTaskfail
    split_ifs <;> exact ⟨rfl, rfl, rfl, rfl, rfl, fun _ => id⟩
  exact (checked _).after
    ((rq.updatecounters_passed task true _).1.neutral.after
      ⟨rfl, rfl, rfl, rfl, rfl, fun _ => id⟩)

theorem sqTaskComplete_neutral (s : RunQueueExecute Tid) :
    Neutral (s.fire (.sceneTaskCompleted task)) (rq.sqTaskComplete task s) :=
  rq.sqTaskCompleteoutright_neutral task _

theorem updateScenequeueData_neutral (tids : List Tid)
    (s : RunQueueExecute Tid) :
    Neutral s (rq.updateScenequeueData tids s) :=
  rq.updateScenequeueData_induction (motive := Neutral s)
    (fun _ _ rechecked soFar => soFar.trans rechecked.neutral)
    (fun _ tid reason _ _ soFar =>
      soFar.trans (rq.sqTaskSkip_neutral tid reason _)) (.refl s)

omit rq in
theorem setbuildable_neutral
    {visit : RunQueueExecute Tid → Tid → RunQueueExecute Tid}
    (each : ∀ s tid, visit s tid = s ∨ visit s tid = s.setbuildable tid)
    (tids : List Tid) (s : RunQueueExecute Tid) :
    Neutral s (tids.foldl visit s) := by
  obtain ⟨_, _, same⟩ := foldl_setbuildable each tids s
  rw [same]
  exact ⟨rfl, rfl, rfl, rfl, rfl, fun _ => id⟩

theorem taskCompleteoutright_neutral (s : RunQueueExecute Tid) :
    Neutral s (rq.taskCompleteoutright task s) := by
  have marked : Neutral s
      { s with runqComplete := s.runqComplete.insert task } :=
    ⟨rfl, rfl, rfl, rfl, rfl, fun _ => id⟩
  have buildable := marked.trans (setbuildable_neutral
    rq.setbuildableRevdep_each (rq.revdeps task) _)
  refine List.foldlRecOn
    (motive := fun acc : RunQueueExecute Tid × Option Tid => Neutral s acc.1)
    _ _ buildable fun acc soFar t _ => ?_
  unfold releaseDeferred
  split_ifs
  · split
    · exact soFar.trans ((rq.updateScenequeueData_neutral [t] _).after
        ⟨rfl, rfl, rfl, rfl, rfl, fun _ => id⟩)
    · exact soFar.trans ⟨rfl, rfl, rfl, rfl, rfl, fun _ => id⟩
  · exact soFar

theorem taskComplete_neutral (s : RunQueueExecute Tid) :
    Neutral ({ s with stats := s.stats.taskCompleted }.fire
      (.taskCompleted task)) (rq.taskComplete task s) :=
  (rq.taskCompleteoutright_neutral task _).trans
    ⟨rfl, rfl, rfl, rfl, rfl, fun _ => id⟩

theorem taskSkip_neutral (reason : SkipReason)
    (s : RunQueueExecute Tid) : Neutral s (rq.taskSkip task reason s) := by
  have completed : Neutral s (rq.taskCompleteoutright task
      ({ s with runqRunning := s.runqRunning.insert task }.setbuildable
        task |>.fire (.taskSkipped task reason))) :=
    (rq.taskCompleteoutright_neutral task _).after
      ⟨rfl, rfl, rfl, rfl, rfl, fun _ => id⟩
  exact completed.trans
    ⟨Int.add_sub_cancel _ 1, rfl, rfl, rfl, rfl, fun _ => id⟩

theorem updateHoldofftasks_neutral (s : RunQueueExecute Tid) :
    Neutral s (rq.updateHoldofftasks s) := by
  unfold updateHoldofftasks
  split_ifs
  · obtain ⟨_, _, same⟩ := foldl_setbuildable rq.setbuildableReady_each
      (rq.notcovered s ++ rq.covered s) s
    rw [same]
    exact ⟨rfl, rfl, rfl, rfl, rfl, fun _ => id⟩
  · exact .refl s

private theorem takeUpdate_neutral (acc : RunQueueExecute Tid × List Tid)
    (entry : Tid × Str) : Neutral acc.1 (takeUpdate acc entry).1 := by
  simp only [takeUpdate]
  split_ifs
  · exact .refl acc.1
  · exact ⟨rfl, rfl, rfl, rfl, rfl, fun _ => id⟩
  · refine List.foldlRecOn
      (motive := fun after : RunQueueExecute Tid × List Tid =>
        Neutral acc.1 after.1) _ _
      ⟨rfl, rfl, rfl, rfl, rfl, fun _ => id⟩ fun after soFar hashtid _ => ?_
    exact soFar.trans ⟨rfl, rfl, rfl, rfl, rfl, fun _ => id⟩

private theorem rehash_neutral (last : Option Tid) (fuel : ℕ)
    (acc : Rehash Tid) : Neutral acc.s (rq.rehash last fuel acc).s := by
  induction fuel generalizing acc with
  | zero => exact .refl acc.s
  | succ fuel induction =>
      simp only [rehash]
      split_ifs
      · exact .refl acc.s
      · refine (induction _).after ?_
        have ready : Neutral acc.s
            (acc.next.foldl (rq.readyTasks last acc.total) (acc.s, [])).1 := by
          refine List.foldlRecOn
            (motive := fun after : RunQueueExecute Tid × List (Tid × Str) =>
              Neutral acc.s after.1) _ _ (.refl acc.s)
            fun after soFar tid _ => ?_
          unfold readyTasks
          split_ifs
          · exact soFar
          · exact soFar.trans ⟨rfl, rfl, rfl, rfl, rfl, fun _ => id⟩
        refine List.foldlRecOn
          (motive := fun after : Rehash Tid => Neutral acc.s after.s) _ _
          (ready.trans ⟨rfl, rfl, rfl, rfl, rfl, fun _ => id⟩)
          fun after soFar tid _ => soFar.trans ?_
        simp only [rehashTask]
        split_ifs <;> exact ⟨rfl, rfl, rfl, rfl, rfl, fun _ => id⟩

private theorem rehashAll_neutral (s : RunQueueExecute Tid) :
    Neutral s (rq.rehashAll s).1 := by
  refine (rq.rehash_neutral _ _ _).after ?_
  exact List.foldlRecOn
    (motive := fun acc : RunQueueExecute Tid × List Tid => Neutral s acc.1)
    _ _ (.refl s) fun acc soFar entry _ =>
      soFar.trans (takeUpdate_neutral acc entry)

private theorem migrate_neutral (acc : Migration Tid) (tid : Tid) :
    Neutral acc.s (rq.migrate acc tid).s := by
  simp only [migrate]
  split_ifs with halted busy
  · exact .refl acc.s
  · exact ⟨rfl, rfl, rfl, rfl, rfl, fun _ => id⟩
  · exact .refl acc.s
  · exact ⟨rfl, rfl, rfl, rfl, rfl, fun _ => id⟩
  -- only a task that is not live leaves `sq_running`
  · refine ⟨rfl, rfl, rfl, rfl, rfl, fun live running => ?_⟩
    rw [not_or] at busy
    exact mem_discard.mpr ⟨running, fun same => busy.2 (same ▸ live)⟩

private theorem requeueAll_neutral (tids : List Tid)
    (s : RunQueueExecute Tid) : Neutral s (rq.requeueAll tids s) := by
  have requeued : Neutral s (tids.foldl rq.requeue s) := by
    refine .foldl tids (fun s tid _ => ?_) s
    unfold requeue
    split_ifs
    · exact ⟨rfl, rfl, rfl, rfl, rfl, fun _ => id⟩
    · exact .refl s
  have deferred : ∀ s : RunQueueExecute Tid,
      Neutral s ((rq.byMulticonfig tids).foldl rq.redefer s) := by
    refine .foldl _ fun s tid _ => ?_
    unfold redefer
    split
    · exact .refl s
    · split_ifs
      · exact ⟨rfl, rfl, rfl, rfl, rfl, fun _ => id⟩
      · exact .refl s
  simp only [requeueAll]
  refine (Neutral.foldl _ (fun s tid _ =>
    rq.sqTaskFailoutright_neutral tid s) _).after (requeued.trans ?_)
  split_ifs
  · exact .refl _
  · exact (rq.updateScenequeueData_neutral tids _).after
      ((deferred _).after ⟨rfl, rfl, rfl, rfl, rfl, fun _ => id⟩)

private theorem migrateAll_neutral (s : RunQueueExecute Tid) :
    Neutral s (rq.migrateAll s).s :=
  List.foldlRecOn (motive := fun after : Migration Tid => Neutral s after.s)
    _ _ ((rq.rehashAll_neutral s).trans
      ⟨rfl, rfl, rfl, rfl, rfl, fun _ => id⟩)
    fun after soFar tid _ => soFar.trans (rq.migrate_neutral after tid)

private theorem settle_neutral (migrated : Migration Tid) :
    Neutral migrated.s (rq.settle migrated) := by
  have requeued := rq.requeueAll_neutral migrated.updateTasks migrated.s
  unfold settle
  dsimp only
  split_ifs
  · exact requeued.trans ⟨rfl, rfl, rfl, rfl, rfl, fun _ => id⟩
  · exact requeued

theorem processPossibleMigrations_neutral (s : RunQueueExecute Tid) :
    Neutral s (rq.processPossibleMigrations s) := by
  unfold processPossibleMigrations
  dsimp only
  split_ifs
  · exact rq.migrateAll_neutral s
  · exact (rq.migrateAll_neutral s).trans (rq.settle_neutral _)

/-- The counter, the set of live setscene tasks and the worker processes agree
with the events. -/
structure Accounts (s : RunQueueExecute Tid) : Prop where
  active : s.stats.active = (activeTasks s.events).length
  sqLive : s.sqLive.Perm (liveSetscene s.events)
  nodup : s.sqLive.Nodup
  sqRunning : s.sqLive ⊆ s.sqRunning
  workers : s.workers.Perm (s.sqLive ++ activeTasks s.events)
  limit : s.activeTotal ≤ rq.numberTasks

theorem canStartTask_iff (s : RunQueueExecute Tid) :
    rq.canStartTask s = true ↔
      s.stats.active + (s.sqLive.length : ℤ) < rq.numberTasks :=
  decide_eq_true_iff

namespace Accounts

variable {rq} {s s' : RunQueueExecute Tid}

theorem neutral (accounts : rq.Accounts s) (step : Neutral s s') :
    rq.Accounts s' where
  active := by rw [step.active, step.activeTasks, accounts.active]
  sqLive := by rw [step.sqLive, step.liveSetscene]; exact accounts.sqLive
  nodup := by rw [step.sqLive]; exact accounts.nodup
  sqRunning := fun tid live => by
    rw [step.sqLive] at live
    exact step.sqRunning live (accounts.sqRunning live)
  workers := by
    rw [step.workers, step.sqLive, step.activeTasks]; exact accounts.workers
  limit := by
    unfold RunQueueExecute.activeTotal
    rw [step.active, step.sqLive]
    exact accounts.limit

variable {task : Tid} (accounts : rq.Accounts s)
include accounts

theorem sceneStarted {checked : RunQueueExecute Tid}
    (rechecked : Rechecked (s.fire (.sceneTaskStarted task)) checked)
    (idle : task ∉ s.sqRunning) (startable : rq.canStartTask s = true) :
    rq.Accounts (rq.sceneStarted task checked) := by
  obtain ⟨_, _, _, _, _, _, _, rfl⟩ := rechecked
  have fresh : task ∉ s.sqLive := fun live => idle (accounts.sqRunning live)
  have inserted : s.sqLive.insert task = task :: s.sqLive :=
    List.insert_of_not_mem fresh
  rw [canStartTask_iff] at startable
  refine ⟨accounts.active, ?_, ?_, ?_, ?_, ?_⟩
  · show (s.sqLive.insert task).Perm (task :: liveSetscene s.events)
    rw [inserted]
    exact accounts.sqLive.cons task
  · show (s.sqLive.insert task).Nodup
    rw [inserted]
    exact List.nodup_cons.mpr ⟨fresh, accounts.nodup⟩
  · intro tid live
    rcases List.mem_insert_iff.mp live with rfl | old
    · exact List.mem_insert_self
    · exact List.mem_insert_of_mem (accounts.sqRunning old)
  · show (task :: s.workers).Perm
      (s.sqLive.insert task ++ activeTasks s.events)
    rw [inserted]
    exact accounts.workers.cons task
  · show s.stats.active + ((s.sqLive.insert task).length : ℤ) ≤ _
    rw [inserted, List.length_cons]
    push_cast
    omega

theorem taskStarted {checked : RunQueueExecute Tid}
    (rechecked : Rechecked (s.fire (.taskStarted task false)) checked)
    (startable : rq.canStartTask s = true) :
    rq.Accounts (rq.taskStarted task checked) := by
  obtain ⟨_, _, _, _, _, _, _, rfl⟩ := rechecked
  rw [canStartTask_iff] at startable
  refine ⟨?_, accounts.sqLive, accounts.nodup, accounts.sqRunning, ?_, ?_⟩
  · show s.stats.active + 1 = ((task :: activeTasks s.events).length : ℤ)
    rw [accounts.active, List.length_cons]
    push_cast
    rfl
  · show (task :: s.workers).Perm (s.sqLive ++ task :: activeTasks s.events)
    exact (accounts.workers.cons task).trans List.perm_middle.symm
  · show s.stats.active + 1 + (s.sqLive.length : ℤ) ≤ _
    omega

theorem sceneEnded {fired : RunQueueExecute Tid} {stats : RunQueueStats}
    (live : task ∈ s.sqLive) (step : Neutral fired s')
    (active : fired.stats.active = s.stats.active)
    (sqLive : fired.sqLive = s.sqLive)
    (sqRunning : fired.sqRunning = s.sqRunning)
    (workers : fired.workers = s.workers.erase task)
    (ended : liveSetscene fired.events = (liveSetscene s.events).erase task)
    (others : activeTasks fired.events = activeTasks s.events)
    (sameActive : stats.active = s'.stats.active) :
    rq.Accounts { s' with
      sqLive := discard s'.sqLive task, stats := stats } := by
  have left : discard s'.sqLive task = s.sqLive.erase task := by
    rw [step.sqLive, sqLive, accounts.nodup.erase_eq_filter, discard]
    exact List.filter_congr fun other _ => by
      by_cases same : other = task <;> simp [same]
  refine ⟨?_, ?_, ?_, ?_, ?_, ?_⟩
  · show stats.active = ((activeTasks s'.events).length : ℤ)
    rw [sameActive, step.active, active, step.activeTasks, others,
      accounts.active]
  · show (discard s'.sqLive task).Perm (liveSetscene s'.events)
    rw [left, step.liveSetscene, ended]
    exact accounts.sqLive.erase task
  · show (discard s'.sqLive task).Nodup
    rw [left]
    exact accounts.nodup.erase task
  · intro tid member
    rw [left] at member
    have old := List.mem_of_mem_erase member
    exact step.sqRunning (sqLive ▸ old) (sqRunning ▸ accounts.sqRunning old)
  · show s'.workers.Perm (discard s'.sqLive task ++ activeTasks s'.events)
    rw [left, step.workers, workers, step.activeTasks, others,
      ← List.erase_append_left _ live]
    exact accounts.workers.erase task
  · show stats.active + ((discard s'.sqLive task).length : ℤ) ≤ _
    rw [left, sameActive, step.active, active, List.length_erase_of_mem live]
    have limit := accounts.limit
    unfold RunQueueExecute.activeTotal at limit
    omega

theorem taskEnded {ended : RunQueueExecute Tid}
    (running : task ∈ activeTasks s.events)
    (active : ended.stats.active = s.stats.active - 1)
    (sqLive : ended.sqLive = s.sqLive)
    (sqRunning : ended.sqRunning = s.sqRunning) (workers : ended.workers.Perm
      (s.sqLive ++ (activeTasks s.events).erase task))
    (events : activeTasks ended.events = (activeTasks s.events).erase task)
    (others : liveSetscene ended.events = liveSetscene s.events) :
    rq.Accounts ended := by
  have positive := List.length_pos_of_mem running
  have less := List.length_erase_of_mem running
  refine ⟨?_, ?_, ?_, ?_, ?_, ?_⟩
  · rw [active, events, accounts.active, less]
    omega
  · rw [sqLive, others]
    exact accounts.sqLive
  · rw [sqLive]
    exact accounts.nodup
  · rw [sqLive, sqRunning]
    exact accounts.sqRunning
  · rw [sqLive, events]
    exact workers
  · have limit := accounts.limit
    unfold RunQueueExecute.activeTotal at limit ⊢
    rw [active, sqLive]
    omega

private theorem waitpid_scene {status : ℤ} (live : task ∈ s.sqLive) :
    rq.Accounts (rq.runqueueProcessWaitpid task status s) := by
  simp only [runqueueProcessWaitpid, if_pos live]
  split_ifs
  · exact accounts.sceneEnded live (rq.sqTaskFail_neutral task status _)
      rfl rfl rfl rfl rfl rfl rfl
  · exact accounts.sceneEnded live (rq.sqTaskComplete_neutral task _)
      rfl rfl rfl rfl rfl rfl rfl

private theorem waitpid_task {status : ℤ} (sent : task ∈ s.workers)
    (real : task ∉ s.sqLive) :
    rq.Accounts (rq.runqueueProcessWaitpid task status s) := by
  have running : task ∈ activeTasks s.events :=
    (List.mem_append.mp (accounts.workers.mem_iff.mp sent)).resolve_left real
  have left : (s.workers.erase task).Perm
      (s.sqLive ++ (activeTasks s.events).erase task) := by
    rw [← List.erase_append_right _ real]
    exact accounts.workers.erase task
  simp only [runqueueProcessWaitpid, if_neg real]
  split_ifs
  · unfold taskFail
    dsimp only
    split_ifs <;> exact accounts.taskEnded running rfl rfl rfl left rfl rfl
  · let exited := { s with
      workers := s.workers.erase task
      buildStamps := s.buildStamps.del task }
    have ended : rq.Accounts ({ exited with
        stats := exited.stats.taskCompleted }.fire (.taskCompleted task)) :=
      accounts.taskEnded running rfl rfl rfl left rfl rfl
    exact ended.neutral (rq.taskComplete_neutral task exited)

theorem waitpid {status : ℤ} (sent : task ∈ s.workers) :
    rq.Accounts (rq.runqueueProcessWaitpid task status s) := by
  by_cases live : task ∈ s.sqLive
  · exact accounts.waitpid_scene live
  · exact accounts.waitpid_task sent live

private theorem startScene (idle : task ∉ s.sqRunning)
    (startable : rq.canStartTask s = true) :
    (rq.startScene task s).Ends rq.Accounts := by
  have cases := rq.startScene_cases task s
  generalize rq.startScene task s = flow at cases ⊢
  cases cases with
  | failed rechecked =>
      exact accounts.neutral
        (rechecked.neutral.trans (rq.sqTaskFailoutright_neutral task _))
  | skipped rechecked =>
      exact accounts.neutral
        (rechecked.neutral.trans (rq.sqTaskSkip_neutral task _ _))
  | raised => trivial
  | returned rechecked => exact accounts.sceneStarted rechecked idle startable
  | goOn rechecked => exact accounts.sceneStarted rechecked idle startable

private theorem executeScene : (rq.executeScene s).Ends rq.Accounts := by
  unfold Prepared.executeScene
  split_ifs with startable
  · have cases := rq.sceneLoop_cases rq.runqSetsceneTids.length s
    generalize rq.sceneLoop rq.runqSetsceneTids.length s = flow at cases ⊢
    cases cases with
    | notNeeded passed =>
        exact accounts.neutral (passed.neutral.trans
          ((rq.sqTaskSkip_neutral _ .notNeeded _).trans
            ⟨rfl, rfl, rfl, rfl, rfl, fun _ => id⟩))
    | deferred passed => exact accounts.neutral passed.neutral
    | failed passed =>
        exact accounts.neutral (passed.neutral.trans
          ((rq.sqTaskFailoutright_neutral _ _).after
            ⟨rfl, rfl, rfl, rfl, rfl, fun _ => id⟩))
    | picked passed _ idle =>
        obtain ⟨_, _, _, _, _, rfl⟩ := passed
        refine Accounts.startScene (accounts.neutral ?_) idle startable.2
        exact ⟨rfl, rfl, rfl, rfl, rfl, fun _ => id⟩
    | none passed => exact accounts.neutral passed.neutral
  · exact accounts

private theorem executeSceneDone :
    (rq.executeSceneDone s).Ends rq.Accounts := by
  have cases := rq.executeSceneDone_cases s
  generalize rq.executeSceneDone s = flow at cases ⊢
  cases cases with
  | goOn => exact accounts
  | finished =>
      exact accounts.neutral ⟨rfl, rfl, rfl, rfl, rfl, fun _ => id⟩
  | returned =>
      exact accounts.neutral ⟨rfl, rfl, rfl, rfl, rfl, fun _ => id⟩

private theorem executeNext :
    (∀ s', rq.executeNext s = .returned s' → rq.Accounts s') ∧
      ∀ s' chosen, rq.executeNext s = .goOn s' chosen →
        rq.Accounts s' ∧ ∀ task ∈ chosen, rq.Scheduled s' task := by
  have ends := rq.executeNext_ends rq.Accounts rq.Accounts accounts
    (fun _ => accounts.neutral (rq.processPossibleMigrations_neutral s))
    (fun _ => executeScene)
    (fun s accounts =>
      Accounts.neutral accounts (rq.updateHoldofftasks_neutral s))
    (fun _ => executeSceneDone)
    (fun s _ _ _ accounts => Accounts.neutral accounts
      ⟨rfl, rfl, rfl, rfl, rfl, fun _ => id⟩)
  exact ⟨fun s' same => (ends.1 s' same).elim id id, ends.2⟩

/-- A scheduled task that is neither refused nor stuck for want of a fakeroot
worker keeps the accounts. -/
private theorem startTask (startable : rq.canStartTask s = true)
    (accepted : (rq.refused task s).1 = false)
    (sendable : rq.unstartable task s = false) :
    (rq.startTask task s).Ends rq.Accounts := by
  have cases := rq.startTask_cases task s
  generalize rq.startTask task s = flow at cases ⊢
  cases cases with
  | refused _ refused => simp [accepted] at refused
  | covered rechecked =>
      exact accounts.neutral
        (rechecked.neutral.trans (rq.taskSkip_neutral task .covered _))
  | existing rechecked =>
      exact accounts.neutral
        (rechecked.neutral.trans ((rq.taskSkip_neutral task .existing _).trans
          ⟨rfl, rfl, rfl, rfl, rfl, fun _ => id⟩))
  | noexec rechecked =>
      refine accounts.neutral (rechecked.neutral.trans
        ((rq.taskComplete_neutral task _).after ?_))
      exact ⟨Int.add_sub_cancel _ 1, rfl, rfl, List.erase_cons_head .., rfl,
        fun _ => id⟩
  | unstartable _ _ unstartable => simp [sendable] at unstartable
  | returned rechecked => exact accounts.taskStarted rechecked startable
  | goOn rechecked => exact accounts.taskStarted rechecked startable

end Accounts

/-- A step that does not count a task as failed that was never active. -/
def Harmless (s : RunQueueExecute Tid) : Action Tid → Prop
  | .execute =>
      match rq.executeNext s with
      | .goOn s' (some task) =>
          (rq.refused task s').1 = false ∧ rq.unstartable task s' = false
      | _ => True
  | _ => True

instance (s : RunQueueExecute Tid) (action : Action Tid) :
    Decidable (rq.Harmless s action) :=
  match action with
  | .execute => by
      dsimp only [Harmless]
      exact match rq.executeNext s with
        | .goOn _ (some _) => inferInstance
        | .goOn _ none => .isTrue trivial
        | .returned _ => .isTrue trivial
        | .raised => .isTrue trivial
  | .waitpid _ _ => .isTrue trivial
  | .taskUniHashUpdate _ _ => .isTrue trivial
  | .finish => .isTrue trivial
  | .finishNow => .isTrue trivial

theorem executeIdle_neutral (s : RunQueueExecute Tid) :
    Neutral s (rq.executeIdle s) := by
  obtain ⟨_, _, _, same, fired, -⟩ := rq.executeIdle_cases s
  rw [same]
  rcases fired with rfl | rfl <;>
    exact ⟨rfl, rfl, rfl, rfl, rfl, fun _ => id⟩

theorem Accounts.execute {rq : Prepared Tid}
    (accounts : rq.Accounts s) (harmless : rq.Harmless s .execute)
    (executed : rq.execute s = some s') : rq.Accounts s' := by
  obtain ⟨returned, goOn⟩ := accounts.executeNext
  unfold Prepared.execute at executed
  split at executed
  · simp at executed
  · rename_i stopped flow
    cases executed
    exact returned _ flow
  · rename_i goes flow
    cases executed
    exact (goOn _ _ flow).1.neutral (rq.executeIdle_neutral goes)
  · rename_i goes task flow
    obtain ⟨next, scheduled⟩ := goOn _ _ flow
    obtain ⟨accepted, sendable⟩ :
        (rq.refused task goes).1 = false ∧
          rq.unstartable task goes = false := by
      simpa only [Harmless, flow] using harmless
    have started := next.startTask (scheduled task rfl).startable accepted
      sendable
    split at executed
    · simp at executed
    · rename_i flow
      rw [flow] at started
      cases executed
      exact started
    · rename_i flow
      rw [flow] at started
      cases executed
      exact started.neutral (rq.executeIdle_neutral _)

theorem Accounts.initial : rq.Accounts rq.initial := by
  have blank : rq.Accounts rq.blank :=
    ⟨rfl, .refl _, .nil, fun _ => id, .refl _, Int.natCast_nonneg _⟩
  have initialised : rq.Accounts rq.initialised :=
    blank.neutral (rq.updateScenequeueData_neutral _ _)
  unfold Prepared.initial
  split_ifs
  · have buildable := @setbuildable_neutral Tid _
      RunQueueExecute.setbuildable (fun _ _ => .inr rfl)
    exact initialised.neutral ((buildable _ _).trans
      ⟨rfl, rfl, rfl, rfl, rfl, fun _ => id⟩)
  · exact initialised

theorem Accounts.step {rq : Prepared Tid}
    {action : Action Tid} (accounts : rq.Accounts s)
    (harmless : rq.Harmless s action) (step : rq.Step s action s') :
    rq.Accounts s' := by
  cases step with
  | execute _ executed => exact accounts.execute harmless executed
  | waitpid sent => exact accounts.waitpid sent
  | taskUniHashUpdate =>
      exact accounts.neutral ⟨rfl, rfl, rfl, rfl, rfl, fun _ => id⟩
  | finish =>
      unfold Prepared.finish
      dsimp only
      split_ifs <;>
        exact accounts.neutral ⟨rfl, rfl, rfl, rfl, rfl, fun _ => id⟩
  | finishNow =>
      unfold Prepared.finishNow
      split_ifs <;>
        exact accounts.neutral ⟨rfl, rfl, rfl, rfl, rfl, fun _ => id⟩

/-- The counters agree with what is running, and `finish` waits for it. -/
structure ActiveAccounted (s : RunQueueExecute Tid) : Prop where
  active : s.stats.active = (activeTasks s.events).length
  sqLive : s.sqLive.length = (liveSetscene s.events).length
  limit : s.stats.active + (s.sqLive.length : ℤ) ≤ rq.numberTasks
  finish : (finish s).state ≠ .cleanUp → activeTasks s.events = [] ∧
    liveSetscene s.events = [] ∧ s.workers = []

theorem Accounts.accounted {rq : Prepared Tid} {s : RunQueueExecute Tid}
    (accounts : rq.Accounts s) : rq.ActiveAccounted s where
  active := accounts.active
  sqLive := accounts.sqLive.length_eq
  limit := accounts.limit
  finish := by
    intro left
    have nothing : s.activeTotal ≤ 0 := by
      by_contra something
      exact left (by simp [Prepared.finish, RunQueueExecute.activeTotal,
        RunQueueExecute.fire] at something ⊢; simp [something])
    have active := accounts.active
    have live := accounts.sqLive.length_eq
    unfold RunQueueExecute.activeTotal at nothing
    have noActive : activeTasks s.events = [] :=
      List.eq_nil_of_length_eq_zero (by omega)
    have noLive : s.sqLive = [] := List.eq_nil_of_length_eq_zero (by omega)
    refine ⟨noActive, List.eq_nil_of_length_eq_zero (by omega), ?_⟩
    have workers := accounts.workers
    rw [noLive, noActive] at workers
    exact List.perm_nil.mp workers

/-- In runs in which no task is refused by `setscene_ignore_tasks` and every
fakeroot worker starts, the counters agree with what is running. -/
theorem active_accounted {s : RunQueueExecute Tid}
    (reached : Reachable (· = rq.initial) rq.Step rq.Harmless s) :
    rq.ActiveAccounted s := by
  have accounts : rq.Accounts s := by
    refine reached.invariant ?_ fun _ _ _ => Accounts.step
    rintro _ rfl
    exact .initial rq
  exact accounts.accounted

/-- Two tasks that do not depend on each other; `setscene_ignore_tasks` lists
the given patterns. -/
def unrelated (setsceneIgnoreTasks : Option (List Str)) : Prepared (Fin 2) :=
  Setup.prepare
    { Setup.plain
        { toTaskGraph := TaskGraph.ofDepends ([0, 1] : List (Fin 2))
            (fun _ => []) (fun _ => 0) (by decide)
          runqSetsceneTids := []
          targetTids := [0, 1]
          idepends := fun _ => []
          setscene_mem := by decide }
        (.bare _) fun tid => if tid = 0 then "first".toList
          else "second".toList with
      setsceneIgnoreTasks := setsceneIgnoreTasks
      fnmatch := fun name pattern => name = pattern }
    rfl

/-- The state after the first task was started and the second scheduled. -/
def scheduleBoth (rq : Prepared (Fin 2)) (allowed : RunQueueExecute (Fin 2) →
    Action (Fin 2) → Prop) [∀ s action, Decidable (allowed s action)] :
    Option (RunQueueExecute (Fin 2)) :=
  follow rq.perform allowed [.execute, .execute] rq.initial

theorem scheduleBoth_reachable {rq : Prepared (Fin 2)}
    {allowed : RunQueueExecute (Fin 2) → Action (Fin 2) → Prop}
    [∀ s action, Decidable (allowed s action)] {s : RunQueueExecute (Fin 2)}
    (scheduled : rq.scheduleBoth allowed = some s) :
    Reachable (· = rq.initial) rq.Step allowed s :=
  .follow (fun s action s' => (rq.step_iff_perform s action s').mpr) _
    (.start rfl) scheduled

theorem active_accounted_unrelated :
    ∃ s, (unrelated none).scheduleBoth (unrelated none).Harmless = some s ∧
      (unrelated none).ActiveAccounted s := by
  have scheduled := Option.some_get (by decide :
    ((unrelated none).scheduleBoth (unrelated none).Harmless).isSome)
  exact ⟨_, scheduled.symm,
    active_accounted _ (scheduleBoth_reachable scheduled.symm)⟩

/-- Without the condition a refused task makes up for a running one: the
counter is zero and `finish` does not wait. -/
theorem not_active_accounted_of_refused :
    ¬ ∀ s, Reachable (· = (unrelated (some ["first:do_build".toList])).initial)
      (unrelated (some ["first:do_build".toList])).Step (fun _ _ => True) s →
      (unrelated (some ["first:do_build".toList])).ActiveAccounted s := by
  intro accounted
  have scheduled := Option.some_get (by decide :
    ((unrelated (some ["first:do_build".toList])).scheduleBoth
      fun _ _ => True).isSome)
  have active :=
    (accounted _ (scheduleBoth_reachable scheduled.symm)).active
  revert active
  decide

end Prepared

end Nvbmc.RunQueue
