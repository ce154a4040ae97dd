import Nvbmc.RunQueue.HardDependencies

/-!
# Tasks that share a stamp

Two tasks with the same stamp file must not run at the same time.  `execute`
compares stamps it has computed earlier with `build_stamps`, holds back the
real variants of undecided setscene tasks and lets setscene tasks with equal
hashes wait for each other in `sq_deferred`.  The entries of setscene tasks in
`build_stamps` carry another name and are never found, and the computed stamps
go stale when a task is rehashed.
-/

namespace Nvbmc.RunQueue

open Nvbmc.Library

variable {Tid : Type} [LinearOrder Tid]

/-- A step that sends no task to a worker and rehashes none. -/
structure Unsent (s s' : RunQueueExecute Tid) : Prop where
  workers : s'.workers = s.workers
  stampfileHash : s'.stampfileHash = s.stampfileHash

namespace Unsent

variable {s s' s'' : RunQueueExecute Tid}

omit [LinearOrder Tid] in
theorem refl (s : RunQueueExecute Tid) : Unsent s s := ⟨rfl, rfl⟩

omit [LinearOrder Tid] in
theorem trans (first : Unsent s s') (second : Unsent s' s'') :
    Unsent s s'' where
  workers := second.workers.trans first.workers
  stampfileHash := second.stampfileHash.trans first.stampfileHash

omit [LinearOrder Tid] in
theorem after (second : Unsent s' s'') (first : Unsent s s') : Unsent s s'' :=
  first.trans second

end Unsent

namespace Prepared

variable (rq : Prepared Tid)

variable {s s' : RunQueueExecute Tid}

omit [LinearOrder Tid] rq in
theorem Rechecked.unsent (rechecked : Rechecked s s') : Unsent s s' := by
  obtain ⟨_, _, _, _, _, _, _, rfl⟩ := rechecked
  exact ⟨rfl, rfl⟩

omit [LinearOrder Tid] rq in
theorem Browsed.unsent (passed : Browsed s s') : Unsent s s' := by
  obtain ⟨_, _, _, _, _, rfl⟩ := passed
  exact ⟨rfl, rfl⟩

variable (task : Tid)

theorem updatecounters_unsent (fail : Bool) (s : RunQueueExecute Tid) :
    Unsent s (rq.scenequeueUpdatecounters rq.decisionFuel task fail s) :=
  have passed := (rq.updatecounters_passed task fail s).1
  ⟨passed.workers, passed.stampfileHash⟩

theorem sqTaskSkip_unsent (reason : SceneSkipReason)
    (s : RunQueueExecute Tid) : Unsent s (rq.sqTaskSkip task reason s) :=
  (rq.updatecounters_unsent task false _).after ⟨rfl, rfl⟩

theorem sqTaskFailoutright_unsent (s : RunQueueExecute Tid) :
    Unsent s (rq.sqTaskFailoutright task s) :=
  (rq.updatecounters_unsent task true _).after ⟨rfl, rfl⟩

theorem sqTaskComplete_unsent (s : RunQueueExecute Tid) :
    Unsent s (rq.sqTaskComplete task s) :=
  (rq.updatecounters_unsent task false _).after ⟨rfl, rfl⟩

theorem sqTaskFail_unsent (result : ℤ)
    (s : RunQueueExecute Tid) : Unsent s (rq.sqTaskFail task result s) := by
  have failed : Unsent s (rq.scenequeueUpdatecounters rq.decisionFuel task true
      { s.fire (.sceneTaskFailed task result) with
        scenequeueNotcovered := s.scenequeueNotcovered.insert task }) :=
    (rq.updatecounters_unsent task true _).after ⟨rfl, rfl⟩
  simp only [sqTaskFail, sqCheckTaskfail]
  split_ifs
  · exact failed.trans ⟨rfl, rfl⟩
  · exact failed

theorem updateScenequeueData_unsent (tids : List Tid)
    (s : RunQueueExecute Tid) : Unsent s (rq.updateScenequeueData tids s) :=
  rq.updateScenequeueData_induction (motive := Unsent s)
    (fun _ _ rechecked soFar => soFar.trans rechecked.unsent)
    (fun _ tid reason _ _ soFar =>
      soFar.trans (rq.sqTaskSkip_unsent tid reason _)) (.refl s)

theorem taskCompleteoutright_unsent (s : RunQueueExecute Tid) :
    Unsent s (rq.taskCompleteoutright task s) := by
  obtain ⟨_, _, same⟩ := foldl_setbuildable rq.setbuildableRevdep_each
    (rq.revdeps task) { s with runqComplete := s.runqComplete.insert task }
  simp only [taskCompleteoutright]
  rw [same]
  refine List.foldlRecOn (motive := fun acc : RunQueueExecute Tid ×
    Option Tid => Unsent s acc.1) _ _ ⟨rfl, rfl⟩ fun acc soFar tid _ => ?_
  unfold releaseDeferred
  split_ifs
  · split
    · exact soFar.trans
        ((rq.updateScenequeueData_unsent [tid] _).after ⟨rfl, rfl⟩)
    · exact soFar.trans ⟨rfl, rfl⟩
  · exact soFar

theorem taskComplete_unsent (s : RunQueueExecute Tid) :
    Unsent s (rq.taskComplete task s) := by
  have completed : Unsent s (rq.taskCompleteoutright task
      ({ s with stats := s.stats.taskCompleted }.fire
        (.taskCompleted task))) :=
    (rq.taskCompleteoutright_unsent task _).after ⟨rfl, rfl⟩
  exact { completed with }

theorem taskSkip_unsent (reason : SkipReason)
    (s : RunQueueExecute Tid) : Unsent s (rq.taskSkip task reason s) := by
  have completed : Unsent s (rq.taskCompleteoutright task
      (({ s with runqRunning := s.runqRunning.insert task }.setbuildable
        task).fire (.taskSkipped task reason))) :=
    (rq.taskCompleteoutright_unsent task _).after ⟨rfl, rfl⟩
  exact { completed with }

theorem taskFail_unsent (exitcode : ExitCode)
    (s : RunQueueExecute Tid) : Unsent s (rq.taskFail task exitcode s) := by
  unfold taskFail
  dsimp only
  split_ifs <;> exact ⟨rfl, rfl⟩

theorem executeIdle_unsent (s : RunQueueExecute Tid) :
    Unsent s (rq.executeIdle s) := by
  obtain ⟨_, _, _, same, -, -⟩ := rq.executeIdle_cases s
  rw [same]
  exact ⟨rfl, rfl⟩

theorem waitpid_unsent (status : ℤ) (s : RunQueueExecute Tid) :
    Unsent { s with workers := s.workers.erase task }
      (rq.runqueueProcessWaitpid task status s) := by
  simp only [runqueueProcessWaitpid]
  split_ifs
  · have failed := rq.sqTaskFail_unsent task status
    exact { (failed _).after ⟨rfl, rfl⟩ with }
  · have completed := rq.sqTaskComplete_unsent task
    exact { (completed _).after ⟨rfl, rfl⟩ with }
  · exact (rq.taskFail_unsent task _ _).after ⟨rfl, rfl⟩
  · exact (rq.taskComplete_unsent task _).after ⟨rfl, rfl⟩

theorem betterTask_free {best : Option Tid}
    (free : ∀ task ∈ best, stampInUse s (rq.schedStamp task) = false)
    (tid : Tid) :
    ∀ task ∈ rq.betterTask s best tid,
      stampInUse s (rq.schedStamp task) = false := by
  unfold betterTask
  split_ifs with _ _ used
  · exact free
  · exact free
  · exact free
  · rintro _ ⟨⟩
    exact Bool.eq_false_of_not_eq_true used

/-- The scheduler returns no task whose stamp, as it was computed first, is in
use. -/
theorem schedNext_free (s : RunQueueExecute Tid) :
    ∀ task ∈ (rq.schedNext s).1, stampInUse s (rq.schedStamp task) = false := by
  simp only [schedNext, nextBuildableTask]
  split_ifs
  · simp
  · simp
  · split
    · split_ifs with _ used
      · simp
      · simp
      · rintro _ ⟨⟩
        exact Bool.eq_false_of_not_eq_true used
    · exact List.foldlRecOn (motive := fun best : Option Tid =>
          ∀ task ∈ best, stampInUse s (rq.schedStamp task) = false)
        _ _ (by simp) fun best free tid _ => rq.betterTask_free free tid
  · simp

/-- The state `execute` starts tasks from, behind
`process_possible_migrations`. -/
def migrated (s : RunQueueExecute Tid) : RunQueueExecute Tid :=
  if s.updatedTaskhashQueue ≠ [] ∨ s.pendingMigrations ≠ [] then
    rq.processPossibleMigrations s
  else s

/-- What the rest of `execute` can send to a worker, with the tests that have
let it through. -/
inductive Sends (s s' : RunQueueExecute Tid) : Prop where
  | nothing : Unsent s s' → Sends s s'
  | scene {task : Tid} : task ∈ rq.runqSetsceneTids → task ∉ s.sqRunning →
      stampInUse s (s.stamps task) = false → stillDeferred s task = false →
      s'.workers = task :: s.workers → s'.stampfileHash = s.stampfileHash →
      Sends s s'
  | real {task : Tid} : task ∉ s.runqRunning →
      task ∉ (rq.updateHoldofftasks s).holdoffTasks →
      stampInUse s (rq.schedStamp task) = false →
      s'.workers = task :: s.workers → s'.stampfileHash = s.stampfileHash →
      Sends s s'

namespace Sends

variable {rq} {s s' s'' : RunQueueExecute Tid}

theorem trans (first : rq.Sends s s') (second : Unsent s' s'') :
    rq.Sends s s'' := by
  cases first with
  | nothing unsent => exact .nothing (unsent.trans second)
  | scene scene idle free released workers stampfileHash =>
      exact .scene scene idle free released (second.workers.trans workers)
        (second.stampfileHash.trans stampfileHash)
  | real idle held free workers stampfileHash =>
      exact .real idle held free (second.workers.trans workers)
        (second.stampfileHash.trans stampfileHash)

end Sends

theorem startScene_sends (s : RunQueueExecute Tid) :
    (rq.startScene task s).Ends fun s' => Unsent s s' ∨
      (s'.workers = task :: s.workers ∧
        s'.stampfileHash = s.stampfileHash) := by
  have cases := rq.startScene_cases task s
  generalize rq.startScene task s = flow at cases ⊢
  cases cases with
  | failed rechecked =>
      exact .inl (rechecked.unsent.trans (rq.sqTaskFailoutright_unsent task _))
  | skipped rechecked =>
      exact .inl (rechecked.unsent.trans (rq.sqTaskSkip_unsent task _ _))
  | raised => trivial
  | returned rechecked =>
      obtain ⟨_, _, _, _, _, _, _, rfl⟩ := rechecked
      exact .inr ⟨rfl, rfl⟩
  | goOn rechecked =>
      obtain ⟨_, _, _, _, _, _, _, rfl⟩ := rechecked
      exact .inr ⟨rfl, rfl⟩

theorem executeScene_sends (s : RunQueueExecute Tid) :
    (rq.executeScene s).Ends (rq.Sends s) := by
  have ends : rq.SceneLoopEnds (Browsed s)
      (rq.sceneLoop rq.runqSetsceneTids.length s) :=
    sceneLoop_ends (fun passed => passed.trans ⟨_, _, _, _, _, rfl⟩)
      (fun passed => passed.trans ⟨_, _, _, _, _, rfl⟩)
      (fun passed _ _ => passed.trans (rq.deferHarddeps_browsed _ _)) _
      ⟨_, _, _, _, _, rfl⟩
  unfold executeScene
  split_ifs
  · generalize rq.sceneLoop rq.runqSetsceneTids.length s = flow at ends ⊢
    cases ends with
    | @notNeeded browsed task passed =>
        have skipped := passed.unsent.trans
          (rq.sqTaskSkip_unsent task .notNeeded browsed)
        exact .nothing { skipped with }
    | deferred passed => exact .nothing passed.unsent
    | @failed browsed task passed =>
        exact .nothing (passed.unsent.trans
          ((rq.sqTaskFailoutright_unsent task _).after ⟨rfl, rfl⟩))
    | @picked browsed task passed scene candidate released =>
        have sent := rq.startScene_sends task
          { browsed with sqDeferred := browsed.sqDeferred.del task }
        obtain ⟨_, _, _, _, _, rfl⟩ := passed
        simp only [sceneCandidate, decide_eq_true_eq] at candidate
        have started : ∀ {s' : RunQueueExecute Tid}, Unsent s s' ∨
            (s'.workers = task :: s.workers ∧
              s'.stampfileHash = s.stampfileHash) → rq.Sends s s' := by
          rintro s' (unsent | ⟨workers, stampfileHash⟩)
          · exact .nothing unsent
          · exact .scene scene candidate.2.1 candidate.2.2.1 released workers
              stampfileHash
        dsimp only
        generalize rq.startScene task _ = flow at sent ⊢
        cases flow with
        | raised => trivial
        | returned s' => exact started (sent.imp (fun unsent => { unsent with })
            id)
        | goOn s' _ => exact started (sent.imp (fun unsent => { unsent with })
            id)
    | none passed => exact .nothing passed.unsent
  · exact .nothing (.refl s)

/-- When the scheduler may still start a task, the setscene loop has only
looked around. -/
theorem executeScene_browsed (flow : rq.executeScene s = .goOn s' ())
    (startable : rq.canStartTask s' = true) : Browsed s s' := by
  unfold executeScene at flow
  split_ifs at flow
  · have cases := rq.sceneLoop_cases rq.runqSetsceneTids.length s
    generalize rq.sceneLoop rq.runqSetsceneTids.length s = loop at cases flow
    cases cases with
    | picked => simp [startScene_goOn flow] at startable
    | none passed =>
        cases flow
        exact passed
    | _ => simp at flow
  · cases flow
    exact ⟨_, _, _, _, _, rfl⟩

/-- A step between the setscene loop and the scheduler. -/
structure Settles (s s' : RunQueueExecute Tid) : Prop extends Unsent s s' where
  active : s'.stats.active = s.stats.active
  sqLive : s'.sqLive = s.sqLive
  runqRunning : s'.runqRunning = s.runqRunning
  buildStamps : s'.buildStamps = s.buildStamps

theorem updateHoldofftasks_settles (s : RunQueueExecute Tid) :
    Settles s (rq.updateHoldofftasks s) := by
  by_cases stale : s.holdoffNeedUpdate = true
  · obtain ⟨_, _, same⟩ := rq.updateHoldofftasks_eq s stale
    rw [same]
    exact ⟨⟨rfl, rfl⟩, rfl, rfl, rfl, rfl⟩
  · rw [updateHoldofftasks, if_neg stale]
    exact ⟨.refl s, rfl, rfl, rfl, rfl⟩

theorem executeSceneDone_settles (s : RunQueueExecute Tid) :
    (rq.executeSceneDone s).Ends fun s' =>
      Settles s s' ∧ s'.holdoffTasks = s.holdoffTasks := by
  have cases := rq.executeSceneDone_cases s
  generalize rq.executeSceneDone s = flow at cases ⊢
  cases cases <;> exact ⟨⟨⟨rfl, rfl⟩, rfl, rfl, rfl, rfl⟩, rfl⟩

omit rq in
theorem Browsed.holdoffTasks {rq : Prepared Tid} (passed : Browsed s s') :
    (rq.updateHoldofftasks s').holdoffTasks =
      (rq.updateHoldofftasks s).holdoffTasks := by
  obtain ⟨_, _, _, _, _, rfl⟩ := passed
  unfold updateHoldofftasks
  split_ifs <;> rfl

/-- The scheduler only chooses a task that no table holds back. -/
structure Chosen (s s' : RunQueueExecute Tid) (task : Tid) : Prop
    extends Unsent s s' where
  idle : task ∉ s.runqRunning
  held : task ∉ (rq.updateHoldofftasks s).holdoffTasks
  free : stampInUse s (rq.schedStamp task) = false

theorem executeNext_sends (s : RunQueueExecute Tid) :
    (rq.executeNext s).Ends (rq.Sends (rq.migrated s)) ∧
      ∀ s' task, rq.executeNext s = .goOn s' (some task) →
        rq.Chosen (rq.migrated s) s' task := by
  simp only [executeNext, migrated]
  generalize (if s.updatedTaskhashQueue ≠ [] ∨ s.pendingMigrations ≠ [] then
    rq.processPossibleMigrations s else s) = ready
  have scene := rq.executeScene_sends ready
  cases sceneFlow : rq.executeScene ready with
  | raised => exact ⟨trivial, by simp⟩
  | returned stopped =>
      rw [sceneFlow] at scene
      exact ⟨scene, by simp⟩
  | goOn goes _ =>
      rw [sceneFlow] at scene
      have held := rq.updateHoldofftasks_settles goes
      have done := rq.executeSceneDone_settles (rq.updateHoldofftasks goes)
      dsimp only
      cases doneFlow : rq.executeSceneDone (rq.updateHoldofftasks goes) with
      | raised => exact ⟨trivial, by simp⟩
      | returned stopped =>
          rw [doneFlow] at done
          exact ⟨scene.trans (held.toUnsent.trans done.1.toUnsent), by simp⟩
      | goOn settled _ =>
          rw [doneFlow] at done
          obtain ⟨settles, sameHeld⟩ := done
          have quiet := held.toUnsent.trans settles.toUnsent
          dsimp only
          split_ifs
          · exact ⟨scene.trans quiet, by simp⟩
          · obtain ⟨⟨_, _, same, -⟩, scheduled⟩ := rq.schedNext_cases settled
            have free := rq.schedNext_free settled
            have next : Unsent settled (rq.schedNext settled).2 := by
              rw [same]
              exact ⟨rfl, rfl⟩
            refine ⟨scene.trans (quiet.trans next), ?_⟩
            intro s' task chosen
            simp only [Flow.goOn.injEq] at chosen
            obtain ⟨rfl, chosen⟩ := chosen
            have free := free task chosen
            have scheduled := scheduled task chosen
            rw [same] at scheduled
            have startable : rq.canStartTask goes = true := by
              have startable := scheduled.startable
              rw [canStartTask_iff] at startable ⊢
              rwa [settles.active, settles.sqLive, held.active, held.sqLive]
                at startable
            have passed := rq.executeScene_browsed sceneFlow startable
            have idle := scheduled.runqRunning
            have notHeld := scheduled.holdoffTasks
            rw [settles.runqRunning, held.runqRunning] at idle
            rw [sameHeld, Browsed.holdoffTasks passed] at notHeld
            rw [stampInUse, settles.buildStamps, held.buildStamps] at free
            have unsent := passed.unsent.trans (quiet.trans next)
            obtain ⟨_, _, _, _, _, rfl⟩ := passed
            exact ⟨unsent, idle, notHeld, free⟩

theorem startTask_sends (s : RunQueueExecute Tid) :
    (rq.startTask task s).Ends fun s' => Unsent s s' ∨
      (s'.workers = task :: s.workers ∧
        s'.stampfileHash = s.stampfileHash) := by
  have cases := rq.startTask_cases task s
  generalize rq.startTask task s = flow at cases ⊢
  cases cases with
  | refused rechecked =>
      exact .inl (rechecked.unsent.trans (rq.taskFail_unsent task _ _))
  | covered rechecked =>
      exact .inl (rechecked.unsent.trans (rq.taskSkip_unsent task _ _))
  | @existing checked rechecked =>
      have skipped := rechecked.unsent.trans
        (rq.taskSkip_unsent task .existing checked)
      exact .inl { skipped with }
  | noexec rechecked =>
      have completed := rq.taskComplete_unsent task
      exact .inl (rechecked.unsent.trans ((completed _).after ⟨rfl, rfl⟩))
  | unstartable rechecked =>
      obtain ⟨_, _, _, _, _, _, _, rfl⟩ := rechecked
      exact .inl ⟨rfl, rfl⟩
  | returned rechecked =>
      obtain ⟨_, _, _, _, _, _, _, rfl⟩ := rechecked
      exact .inr ⟨rfl, rfl⟩
  | goOn rechecked =>
      obtain ⟨_, _, _, _, _, _, _, rfl⟩ := rechecked
      exact .inr ⟨rfl, rfl⟩

/-- Every call of `execute` sends one task at most, past the tests of one of
its two loops. -/
theorem execute_sends (executed : rq.execute s = some s') :
    rq.Sends (rq.migrated s) s' := by
  obtain ⟨next, chosen⟩ := rq.executeNext_sends s
  unfold execute at executed
  split at executed
  · simp at executed
  · rename_i flow
    rw [flow] at next
    cases executed
    exact next
  · rename_i goes flow
    rw [flow] at next
    cases executed
    exact next.trans (rq.executeIdle_unsent goes)
  · rename_i goes task flow
    have chosen := chosen _ _ flow
    have started := rq.startTask_sends task goes
    have sent : ∀ {s' : RunQueueExecute Tid}, Unsent goes s' ∨
        (s'.workers = task :: goes.workers ∧
          s'.stampfileHash = goes.stampfileHash) →
        rq.Sends (rq.migrated s) s' := by
      rintro s' (unsent | ⟨workers, stampfileHash⟩)
      · exact .nothing (chosen.toUnsent.trans unsent)
      · exact .real chosen.idle chosen.held chosen.free
          (chosen.workers ▸ workers)
          (stampfileHash.trans chosen.stampfileHash)
    split at executed
    · simp at executed
    · rename_i flow
      rw [flow] at started
      cases executed
      exact sent started
    · rename_i begun flow
      rw [flow] at started
      cases executed
      exact (sent started).trans (rq.executeIdle_unsent begun)

/-- The stamp file of the task under its present hash. -/
def currentStamp (s : RunQueueExecute Tid) (tid : Tid) : Str :=
  rq.stampfileMcfn s.stampfileHash false false tid

/-- No two different tasks that run share a stamp. -/
def StampsExclusive (s : RunQueueExecute Tid) : Prop :=
  ∀ tid ∈ s.workers, ∀ other ∈ s.workers, tid ≠ other →
    rq.currentStamp s tid ≠ rq.currentStamp s other

/-- A setscene task runs that shares its stamp with `twin`: nothing in
`build_stamps` tells, so `twin` must be held off and still deferred, unless it
was started already. -/
def BarredBehindScene (s : RunQueueExecute Tid) (twin : Tid) : Prop :=
  (twin ∈ s.runqRunning ∨ twin ∈ (rq.updateHoldofftasks s).holdoffTasks) ∧
    (twin ∈ rq.runqSetsceneTids →
      twin ∈ s.sqRunning ∨ stillDeferred s twin = true)

/-- A real task runs that shares its stamp with `twin`: it has its present stamp
in `build_stamps`, and so have the two loops for `twin`, unless it was started
already. -/
def BarredBehindReal (s : RunQueueExecute Tid) (running twin : Tid) : Prop :=
  s.buildStamps.get? running = some (rq.currentStamp s running) ∧
    (twin ∈ s.runqRunning ∨ rq.schedStamp twin = rq.currentStamp s twin) ∧
    (twin ∈ rq.runqSetsceneTids →
      twin ∈ s.sqRunning ∨ s.stamps twin = rq.currentStamp s twin)

/-- The tables `execute` looks into show every task that shares its stamp with
a running one. -/
def ShowsTwins (s : RunQueueExecute Tid) : Prop :=
  ∀ running ∈ s.workers, ∀ twin, twin ≠ running →
    rq.currentStamp s twin = rq.currentStamp s running →
    (running ∈ s.sqLive → rq.BarredBehindScene s twin) ∧
      (running ∉ s.sqLive → rq.BarredBehindReal s running twin)

/-- A step that rehashes no running task and finds the tasks that share a
stamp with one. -/
def TwinsBarred (s : RunQueueExecute Tid) : Action Tid → Prop
  | .execute =>
      (∀ tid ∈ s.workers,
        (rq.migrated s).stampfileHash tid = s.stampfileHash tid) ∧
      rq.ShowsTwins (rq.migrated s)
  | _ => True

instance (s : RunQueueExecute Tid) (twin : Tid) :
    Decidable (rq.BarredBehindScene s twin) :=
  inferInstanceAs (Decidable (_ ∧ _))

instance (s : RunQueueExecute Tid) (running twin : Tid) :
    Decidable (rq.BarredBehindReal s running twin) :=
  inferInstanceAs (Decidable (_ ∧ _ ∧ _))

instance {n : ℕ} (rq : Prepared (Fin n)) (s : RunQueueExecute (Fin n)) :
    Decidable (rq.ShowsTwins s) :=
  inferInstanceAs (Decidable (∀ running ∈ s.workers, ∀ twin, twin ≠ running →
    rq.currentStamp s twin = rq.currentStamp s running →
    (running ∈ s.sqLive → rq.BarredBehindScene s twin) ∧
      (running ∉ s.sqLive → rq.BarredBehindReal s running twin)))

instance {n : ℕ} (rq : Prepared (Fin n)) (s : RunQueueExecute (Fin n))
    (action : Action (Fin n)) : Decidable (rq.TwinsBarred s action) :=
  match action with
  | .execute => inferInstanceAs (Decidable ((∀ tid ∈ s.workers,
      (rq.migrated s).stampfileHash tid = s.stampfileHash tid) ∧
        rq.ShowsTwins (rq.migrated s)))
  | .waitpid _ _ => .isTrue trivial
  | .taskUniHashUpdate _ _ => .isTrue trivial
  | .finish => .isTrue trivial
  | .finishNow => .isTrue trivial

namespace StampsExclusive

variable {rq} {s s' : RunQueueExecute Tid} (exclusive : rq.StampsExclusive s)
include exclusive

theorem congr (workers : s'.workers ⊆ s.workers)
    (stampfileHash : ∀ tid ∈ s'.workers,
      s'.stampfileHash tid = s.stampfileHash tid) :
    rq.StampsExclusive s' := by
  intro tid running other alsoRunning different
  have kept := exclusive tid (workers running) other (workers alsoRunning)
    different
  simpa only [currentStamp, Setup.stampfileMcfn, stampfileHash tid running,
    stampfileHash other alsoRunning] using kept

theorem unsent (unsent : Unsent s s') : rq.StampsExclusive s' := by
  refine exclusive.congr ?_ fun tid _ => congrFun unsent.stampfileHash tid
  rw [unsent.workers]
  exact fun _ => id

theorem sent {task : Tid} (workers : s'.workers = task :: s.workers)
    (stampfileHash : s'.stampfileHash = s.stampfileHash)
    (unshared : ∀ running ∈ s.workers, task ≠ running →
      rq.currentStamp s task ≠ rq.currentStamp s running) :
    rq.StampsExclusive s' := by
  intro tid running other alsoRunning different
  simp only [currentStamp, stampfileHash]
  rw [workers, List.mem_cons] at running alsoRunning
  rcases running with rfl | running
  · rcases alsoRunning with rfl | alsoRunning
    · exact absurd rfl different
    · exact unshared other alsoRunning different
  · rcases alsoRunning with rfl | alsoRunning
    · exact (unshared tid running different.symm).symm
    · exact exclusive tid running other alsoRunning different

end StampsExclusive

omit [LinearOrder Tid] rq in
theorem stampInUse_of_get? {tid : Tid} {stamp : Str}
    [DecidableEq Tid] (entry : s.buildStamps.get? tid = some stamp) :
    stampInUse s stamp = true :=
  List.any_eq_true.mpr ⟨(tid, stamp), Dict.mem_of_get? entry, by simp⟩

/-- What passes the tests of the setscene loop shares its stamp with no
running task. -/
theorem ShowsTwins.scene {rq : Prepared Tid} {task running : Tid}
    (shows : rq.ShowsTwins s) (scene : task ∈ rq.runqSetsceneTids)
    (idle : task ∉ s.sqRunning) (free : stampInUse s (s.stamps task) = false)
    (released : stillDeferred s task = false) (alive : running ∈ s.workers)
    (different : task ≠ running) :
    rq.currentStamp s task ≠ rq.currentStamp s running := by
  intro shared
  have barred := shows running alive task different shared
  by_cases live : running ∈ s.sqLive
  · have deferred := ((barred.1 live).2 scene).resolve_left idle
    simp [released] at deferred
  · obtain ⟨entry, -, sqdata⟩ := barred.2 live
    have same := (sqdata scene).resolve_left idle
    have used := stampInUse_of_get? entry
    rw [← shared, ← same, free] at used
    cases used

/-- What passes the tests of the scheduler shares its stamp with no running
task. -/
theorem ShowsTwins.real {rq : Prepared Tid} {task running : Tid}
    (shows : rq.ShowsTwins s) (idle : task ∉ s.runqRunning)
    (held : task ∉ (rq.updateHoldofftasks s).holdoffTasks)
    (free : stampInUse s (rq.schedStamp task) = false)
    (alive : running ∈ s.workers) (different : task ≠ running) :
    rq.currentStamp s task ≠ rq.currentStamp s running := by
  intro shared
  have barred := shows running alive task different shared
  by_cases live : running ∈ s.sqLive
  · exact held ((barred.1 live).1.resolve_left idle)
  · obtain ⟨entry, sched, -⟩ := barred.2 live
    have same := sched.resolve_left idle
    have used := stampInUse_of_get? entry
    rw [← shared, ← same, free] at used
    cases used

theorem StampsExclusive.step {rq : Prepared Tid}
    {action : Action Tid} (exclusive : rq.StampsExclusive s)
    (barred : rq.TwinsBarred s action) (step : rq.Step s action s') :
    rq.StampsExclusive s' := by
  cases step with
  | execute _ executed =>
      obtain ⟨rehashes, shows⟩ := barred
      have workers : (rq.migrated s).workers = s.workers := by
        unfold migrated
        split_ifs
        · exact (rq.processPossibleMigrations_neutral s).workers
        · rfl
      have exclusive : rq.StampsExclusive (rq.migrated s) := by
        refine exclusive.congr ?_ ?_
        · rw [workers]
          exact fun _ => id
        · rw [workers]
          exact rehashes
      cases rq.execute_sends executed with
      | nothing unsent => exact exclusive.unsent unsent
      | scene scene idle free released workers stampfileHash =>
          exact exclusive.sent workers stampfileHash fun _ =>
            shows.scene scene idle free released
      | real idle held free workers stampfileHash =>
          exact exclusive.sent workers stampfileHash fun _ =>
            shows.real idle held free
  | @waitpid task status =>
      have ended := rq.waitpid_unsent task status s
      refine StampsExclusive.unsent ?_ ended
      exact exclusive.congr (fun _ => List.mem_of_mem_erase) fun _ _ => rfl
  | taskUniHashUpdate => exact exclusive.unsent ⟨rfl, rfl⟩
  | finish =>
      unfold Prepared.finish
      dsimp only
      split_ifs <;> exact exclusive.unsent ⟨rfl, rfl⟩
  | finishNow =>
      unfold Prepared.finishNow
      split_ifs <;> exact exclusive.unsent ⟨rfl, rfl⟩

/-- In runs that rehash no running task and whose tables show the tasks that
share a stamp with a running one, tasks that share a stamp do not run at the
same time. -/
theorem stamps_exclusive {s : RunQueueExecute Tid}
    (reached : Reachable (· = rq.initial) rq.Step rq.TwinsBarred s) :
    rq.StampsExclusive s := by
  refine reached.invariant ?_ fun _ _ _ exclusive barred step =>
    exclusive.step barred step
  rintro _ rfl
  have initialised := rq.updateScenequeueData_unsent rq.sceneKeys rq.blank
  have idle : rq.initial.workers = [] := by
    unfold Prepared.initial
    split_ifs
    · obtain ⟨_, _, same⟩ := foldl_setbuildable (fun _ _ => .inr rfl)
        (rq.runtaskentries.filter (rq.depends · = [])) rq.initialised
      rw [same]
      exact initialised.workers
    · exact initialised.workers
  intro tid running
  rw [idle] at running
  cases running

/-- Tasks 0 and 1 share a stamp in two multiconfigs, and setscene task 1 depends
hard on setscene task 2. -/
def twins : Prepared (Fin 7) :=
  Setup.prepare
    { Setup.plain
        { toTaskGraph := TaskGraph.ofDepends ([0, 1, 2] : List (Fin 7))
            (fun _ => []) (fun _ => 0) (by decide)
          runqSetsceneTids := [0, 2, 1]
          targetTids := [0, 1, 2]
          idepends := fun tid => if tid = 1 then [some 2] else []
          setscene_mem := by decide }
        { World.bare _ with
          hashvalidate := some fun _ tasks => tasks.map Prod.fst }
        (fun tid => if tid ≤ 1 then "libc".toList
          else List.replicate tid.val 'x') with
      mc := fun tid => if tid = 1 then "other".toList else []
      revPrioMap := fun tid => if tid = 1 then 0 else 1 }
    (by decide)

/-- Setscene task 1 waits until task 0 is complete. -/
theorem stamps_exclusive_twins :
    ∃ s, follow twins.perform twins.TwinsBarred
        [.execute, .execute, .waitpid 0 0, .execute, .waitpid 2 0, .execute,
          .execute] twins.initial = some s ∧
      twins.StampsExclusive s := by
  have followed := Option.some_get (by decide :
    (follow twins.perform twins.TwinsBarred
      [.execute, .execute, .waitpid 0 0, .execute, .waitpid 2 0, .execute,
        .execute] twins.initial).isSome)
  exact ⟨_, followed.symm, twins.stamps_exclusive <|
    .follow (fun s action s' => (twins.step_iff_perform s action s').mpr) _
      (.start rfl) followed.symm⟩

/-- Setscene task 2 fails while setscene task 0 runs; so setscene task 1 is
failed although it waits for 0, and real task 1 is started with the stamp of
0. -/
theorem not_stamps_exclusive_twins :
    ¬ ∀ s, Reachable (· = twins.initial) twins.Step (fun _ _ => True) s →
      twins.StampsExclusive s := by
  intro exclusive
  have ends : (follow twins.perform (fun _ _ => True)
      [.execute, .execute, .waitpid 2 1, .execute] twins.initial).map
        (fun s => (s.workers, decide
          (twins.currentStamp s 0 = twins.currentStamp s 1))) =
      some ([1, 0], true) := by
    decide
  obtain ⟨s, followed, ends⟩ := Option.map_eq_some_iff.mp ends
  simp only [Prod.mk.injEq, decide_eq_true_eq] at ends
  obtain ⟨workers, shared⟩ := ends
  have reached : Reachable (· = twins.initial) twins.Step
      (fun _ _ => True) s :=
    .follow (fun s action s' => (twins.step_iff_perform s action s').mpr) _
      (.start rfl) followed
  exact exclusive s reached 0 (by simp [workers]) 1 (by simp [workers])
    (by decide) shared

end Prepared

end Nvbmc.RunQueue
