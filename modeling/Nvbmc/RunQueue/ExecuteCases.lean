import Nvbmc.RunQueue.Execute
import Nvbmc.RunQueue.SceneGrowth

/-!
# What `execute` can do

Each part of `execute` is inverted once: the constructors list everything the
part can do, with the tests that led there.  Invariants are then proved from
these lists, without looking at the control flow again.
-/

namespace Nvbmc.RunQueue

/-- A part of `execute` that does not raise ends in a state of this kind. -/
def Flow.Ends {Tid β : Type} (holds : RunQueueExecute Tid → Prop) :
    Flow Tid β → Prop
  | .raised => True
  | .returned s => holds s
  | .goOn s _ => holds s

namespace Prepared

variable {Tid : Type} [LinearOrder Tid] (rq : Prepared Tid)

theorem setbuildableRevdep_each (s : RunQueueExecute Tid) (tid : Tid) :
    rq.setbuildableRevdep s tid = s ∨
      rq.setbuildableRevdep s tid = s.setbuildable tid := by
  unfold setbuildableRevdep
  split_ifs <;> simp

/-- The state but for what the setscene loop remembers about the tasks it has
passed over. -/
def Browsed (s s' : RunQueueExecute Tid) : Prop :=
  ∃ consults setsceneTidsGenerator sqBuildable sqNeededHarddeps
      sqHarddepDeferred,
    s' = { s with
      consults := consults
      setsceneTidsGenerator := setsceneTidsGenerator
      sqBuildable := sqBuildable
      sqNeededHarddeps := sqNeededHarddeps
      sqHarddepDeferred := sqHarddepDeferred }

omit [LinearOrder Tid] rq in
theorem Browsed.trans {s s' s'' : RunQueueExecute Tid}
    (first : Browsed s s') (second : Browsed s' s'') : Browsed s s'' := by
  obtain ⟨_, _, _, _, _, rfl⟩ := first
  obtain ⟨_, _, _, _, _, rfl⟩ := second
  exact ⟨_, _, _, _, _, rfl⟩

/-- What the setscene loop can end with. -/
inductive SceneLoopCases (s : RunQueueExecute Tid) :
    Flow Tid (Option Tid) → Prop where
  | notNeeded {browsed : RunQueueExecute Tid} {task : Tid} :
      Browsed s browsed → task ∈ rq.runqSetsceneTids →
      task ∉ s.sqRunning → task ∉ rq.sqdata.unskippable →
      rq.sqdata.sqRevdeps task ⊆ s.scenequeueCovered →
      SceneLoopCases s (.returned (rq.skipNotNeeded task browsed))
  | deferred {browsed : RunQueueExecute Tid} :
      Browsed s browsed → SceneLoopCases s (.returned browsed)
  | failed {browsed : RunQueueExecute Tid} {task : Tid} :
      Browsed s browsed → task ∈ rq.runqSetsceneTids →
      task ∉ s.sqRunning → SceneLoopCases s
        (.returned (rq.sqTaskFailoutright task
          { browsed with sqDeferred := browsed.sqDeferred.del task }))
  | picked {browsed : RunQueueExecute Tid} {task : Tid} :
      Browsed s browsed → task ∈ rq.runqSetsceneTids →
      task ∉ s.sqRunning →
      (∀ hard ∈ rq.sqdata.sqHarddepsRev task, s.Decided hard) →
      SceneLoopCases s
        (.goOn { browsed with sqDeferred := browsed.sqDeferred.del task }
          (some task))
  | none {browsed : RunQueueExecute Tid} :
      Browsed s browsed → SceneLoopCases s (.goOn browsed none)

/-- What the setscene loop can end with, when `browsed` holds of every state it
passes through. -/
inductive SceneLoopEnds (browsed : RunQueueExecute Tid → Prop) :
    Flow Tid (Option Tid) → Prop where
  | notNeeded {s : RunQueueExecute Tid} {task : Tid} :
      browsed s → task ∈ rq.runqSetsceneTids →
      sceneCandidate s task = true → stillDeferred s task = false →
      task ∉ rq.sqdata.unskippable →
      rq.sqdata.sqRevdeps task ⊆ s.scenequeueCovered →
      SceneLoopEnds browsed (.returned (rq.skipNotNeeded task s))
  | deferred {s : RunQueueExecute Tid} :
      browsed s → SceneLoopEnds browsed (.returned s)
  | failed {s : RunQueueExecute Tid} {task : Tid} :
      browsed s → task ∈ rq.runqSetsceneTids →
      sceneCandidate s task = true → stillDeferred s task = false →
      SceneLoopEnds browsed (.returned (rq.sqTaskFailoutright task
        { s with sqDeferred := s.sqDeferred.del task }))
  | picked {s : RunQueueExecute Tid} {task : Tid} :
      browsed s → task ∈ rq.runqSetsceneTids →
      sceneCandidate s task = true → stillDeferred s task = false →
      (∀ hard ∈ rq.sqdata.sqHarddepsRev task, s.Decided hard) →
      SceneLoopEnds browsed
        (.goOn { s with sqDeferred := s.sqDeferred.del task } (some task))
  | none {s : RunQueueExecute Tid} :
      browsed s → SceneLoopEnds browsed (.goOn s none)

theorem notNeeded_cases (s : RunQueueExecute Tid) (task : Tid) :
    (∃ consults, (rq.notNeeded s task).2 = { s with consults := consults }) ∧
      ((rq.notNeeded s task).1 = true → task ∉ rq.sqdata.unskippable ∧
        rq.sqdata.sqRevdeps task ⊆ s.scenequeueCovered) := by
  unfold notNeeded
  split_ifs with tests
  · refine ⟨?_, fun _ => ⟨tests.1, tests.2.2.2⟩⟩
    unfold Setup.checkDependencies
    split <;> exact ⟨_, rfl⟩
  · exact ⟨⟨_, rfl⟩, nofun⟩

theorem deferHarddeps_browsed (task : Tid) (s : RunQueueExecute Tid) :
    Browsed s (rq.deferHarddeps task s) :=
  ⟨_, _, _, _, _, rfl⟩

section SceneLoop

variable {rq} {browsed : RunQueueExecute Tid → Prop}

theorem pickScene_ends {s : RunQueueExecute Tid} {task : Tid}
    (asked : ∀ {s : RunQueueExecute Tid} {consults}, browsed s →
      browsed { s with consults := consults })
    (held : browsed s) (scene : task ∈ rq.runqSetsceneTids)
    (candidate : sceneCandidate s task = true)
    (released : stillDeferred s task = false)
    (hard : ∀ hard ∈ rq.sqdata.sqHarddepsRev task, s.Decided hard) :
    rq.SceneLoopEnds browsed (rq.pickScene task s) := by
  have validated : ∃ valid consults,
      (if s.sqDeferred.contains task then
        rq.validateHashes { s with
          sqDeferred := s.sqDeferred.del task } [task]
      else ([task], { s with
        sqDeferred := s.sqDeferred.del task })) =
      (valid, { s with
        consults := consults
        sqDeferred := s.sqDeferred.del task }) := by
    split_ifs
    · unfold Setup.validateHashes
      split <;> exact ⟨_, _, rfl⟩
    · exact ⟨_, _, rfl⟩
  obtain ⟨valid, consults, same⟩ := validated
  have held : browsed { s with consults := consults } := asked held
  simp only [pickScene, same]
  split_ifs
  · exact .failed held scene candidate released
  · exact .failed held scene candidate released
  · exact .picked held scene candidate released hard

theorem sceneLoop_ends
    (asked : ∀ {s : RunQueueExecute Tid} {consults}, browsed s →
      browsed { s with consults := consults })
    (advanced : ∀ {s : RunQueueExecute Tid} {setsceneTidsGenerator}, browsed s →
      browsed { s with setsceneTidsGenerator := setsceneTidsGenerator })
    (deferred : ∀ {s task}, browsed s → task ∈ rq.runqSetsceneTids →
      ¬ rq.sqdata.sqHarddepsRev task ⊆
        s.scenequeueCovered ++ s.scenequeueNotcovered →
      browsed (rq.deferHarddeps task s))
    (loops : ℕ) {s : RunQueueExecute Tid} (held : browsed s) :
    rq.SceneLoopEnds browsed (rq.sceneLoop loops s) := by
  induction loops generalizing s with
  | zero => exact .none held
  | succ loops induction =>
      rw [sceneLoop]
      split
      · exact .none held
      · rename_i task found
        have scene : task ∈ rq.runqSetsceneTids := List.mem_of_getElem? found
        dsimp only
        have held : browsed { s with
            setsceneTidsGenerator := s.setsceneTidsGenerator + 1 } :=
          advanced held
        obtain ⟨⟨consults, same⟩, skippable⟩ := rq.notNeeded_cases
          { s with setsceneTidsGenerator := s.setsceneTidsGenerator + 1 }
          task
        rw [same]
        have tested : browsed { s with
            setsceneTidsGenerator := s.setsceneTidsGenerator + 1
            consults := consults } := asked held
        split_ifs with candidate waiting unneeded hard enabled
        · exact induction held
        · exact induction held
        all_goals
          rw [Bool.not_eq_false] at candidate
          rw [Bool.not_eq_true] at waiting
        · exact .notNeeded tested scene candidate waiting
            (skippable unneeded.1).1 (skippable unneeded.1).2
        · exact pickScene_ends asked tested scene candidate waiting
            fun dep member => List.mem_append.mp (hard member)
        · exact induction (deferred tested scene hard)
        · exact .deferred (deferred tested scene hard)

end SceneLoop

theorem sceneLoop_cases (loops : ℕ) (s : RunQueueExecute Tid) :
    rq.SceneLoopCases s (rq.sceneLoop loops s) := by
  have idle : ∀ {browsed : RunQueueExecute Tid} {task : Tid},
      sceneCandidate browsed task = true → task ∉ browsed.sqRunning := by
    intro browsed task candidate
    simp only [sceneCandidate, decide_eq_true_eq] at candidate
    exact candidate.2.1
  have ends : rq.SceneLoopEnds (Browsed s) (rq.sceneLoop loops s) :=
    sceneLoop_ends (fun passed => passed.trans ⟨_, _, _, _, _, rfl⟩)
      (fun passed => passed.trans ⟨_, _, _, _, _, rfl⟩)
      (fun passed _ _ => passed.trans (rq.deferHarddeps_browsed _ _)) loops
      ⟨_, _, _, _, _, rfl⟩
  generalize rq.sceneLoop loops s = flow at ends ⊢
  cases ends with
  | notNeeded passed scene candidate _ skippable covered =>
      have idle := idle candidate
      obtain ⟨_, _, _, _, _, rfl⟩ := id passed
      exact .notNeeded passed scene idle skippable covered
  | deferred passed => exact .deferred passed
  | failed passed scene candidate =>
      have idle := idle candidate
      obtain ⟨_, _, _, _, _, rfl⟩ := id passed
      exact .failed passed scene idle
  | picked passed scene candidate _ hard =>
      have idle := idle candidate
      obtain ⟨_, _, _, _, _, rfl⟩ := id passed
      exact .picked passed scene idle hard
  | none passed => exact .none passed

/-- What happens to a picked setscene task. -/
inductive StartSceneCases (task : Tid) (s : RunQueueExecute Tid) :
    Flow Tid Unit → Prop where
  | failed {checked : RunQueueExecute Tid} : Rechecked s checked →
      StartSceneCases task s (.returned (rq.sqTaskFailoutright task checked))
  | skipped {checked : RunQueueExecute Tid} : Rechecked s checked →
      StartSceneCases task s
        (.returned (rq.sqTaskSkip task .stampCurrent checked))
  | raised : StartSceneCases task s .raised
  | returned {checked : RunQueueExecute Tid} :
      Rechecked (s.fire (.sceneTaskStarted task)) checked →
      StartSceneCases task s (.returned (rq.sceneStarted task checked))
  | goOn {checked : RunQueueExecute Tid} :
      Rechecked (s.fire (.sceneTaskStarted task)) checked →
      StartSceneCases task s (.goOn (rq.sceneStarted task checked) ())

theorem checkStamp_rechecked (s : RunQueueExecute Tid) (tid : Tid)
    (setscene recurse : Bool) :
    Rechecked s (rq.checkStamp s tid setscene recurse).2 :=
  ⟨_, _, _, _, _, _, _, rq.checkStamp_eq s tid setscene recurse⟩

theorem fakeworkerFor_rechecked (setscene : Bool) (task : Tid)
    (s : RunQueueExecute Tid) :
    Rechecked s (rq.fakeworkerFor setscene task s).2 := by
  simp only [fakeworkerFor]
  split_ifs <;> exact ⟨_, _, _, _, _, _, _, rfl⟩

omit [LinearOrder Tid] rq in
theorem Rechecked.fire {s checked : RunQueueExecute Tid}
    (rechecked : Rechecked s checked) (event : Event Tid) :
    Rechecked (s.fire event) (checked.fire event) := by
  obtain ⟨_, _, _, _, _, _, _, rfl⟩ := rechecked
  exact ⟨_, _, _, _, _, _, _, rfl⟩

theorem startScene_cases (task : Tid) (s : RunQueueExecute Tid) :
    rq.StartSceneCases task s (rq.startScene task s) := by
  have underlying := rq.checkStamp_rechecked s task false true
  have current := underlying.trans
    (rq.checkStamp_rechecked (rq.checkStamp s task false true).2 task true
      false)
  simp only [startScene]
  split_ifs
  · exact .failed underlying
  · exact .failed underlying
  · exact .skipped current
  · exact .failed current
  · exact .raised
  · exact .returned ((current.fire _).trans (rq.fakeworkerFor_rechecked ..))
  · exact .goOn ((current.fire _).trans (rq.fakeworkerFor_rechecked ..))

/-- `startTask` takes the branch in which `start_fakeworker` raises. -/
def unstartable (task : Tid) (s : RunQueueExecute Tid) : Bool :=
  let (isRefused, s) := rq.refused task s
  let (current, checked) := rq.checkStamp s task false false
  !isRefused && task ∉ s.tasksCovered && !current && !rq.noexec task &&
    !(rq.fakeworkerFor false task
      (checked.fire (.taskStarted task false))).1

/-- The state in which `startTask` completes the task outright, if it does. -/
def completing (task : Tid) (s : RunQueueExecute Tid) :
    Option (RunQueueExecute Tid) :=
  let (isRefused, s) := rq.refused task s
  if isRefused then none
  else if task ∈ s.tasksCovered then some s
  else
    let (current, s) := rq.checkStamp s task false false
    if current then some s else if rq.noexec task then some s else none

inductive StartTaskCases (task : Tid) (s : RunQueueExecute Tid) :
    Flow Tid Unit → Prop where
  | refused {checked : RunQueueExecute Tid} : Rechecked s checked →
      (rq.refused task s).1 = true → StartTaskCases task s
        (.returned (rq.taskFail task .setsceneIgnoreTasks checked))
  | covered {checked : RunQueueExecute Tid} : Rechecked s checked →
      rq.completing task s = some checked → task ∈ s.tasksCovered →
      StartTaskCases task s (.returned (rq.taskSkip task .covered checked))
  | existing {checked : RunQueueExecute Tid} : Rechecked s checked →
      rq.completing task s = some checked → StartTaskCases task s (.returned
        { rq.taskSkip task .existing checked with
          runqTasksrun :=
            (rq.taskSkip task .existing checked).runqTasksrun.insert task })
  | noexec {checked : RunQueueExecute Tid} : Rechecked s checked →
      rq.completing task s = some checked → task ∉ s.tasksCovered →
      StartTaskCases task s (.returned
        (rq.taskComplete task
          (markActive task (checked.fire (.taskStarted task true)))))
  | unstartable {checked : RunQueueExecute Tid} :
      Rechecked (s.fire (.taskStarted task false)) checked →
      task ∉ s.tasksCovered → rq.unstartable task s = true →
      StartTaskCases task s (.returned
        { checked with state := .failed, stats := checked.stats.taskFailed })
  | returned {checked : RunQueueExecute Tid} :
      Rechecked (s.fire (.taskStarted task false)) checked →
      task ∉ s.tasksCovered →
      StartTaskCases task s (.returned (rq.taskStarted task checked))
  | goOn {checked : RunQueueExecute Tid} :
      Rechecked (s.fire (.taskStarted task false)) checked →
      task ∉ s.tasksCovered →
      StartTaskCases task s (.goOn (rq.taskStarted task checked) ())

theorem refused_rechecked (task : Tid) (s : RunQueueExecute Tid) :
    Rechecked s (rq.refused task s).2 := by
  unfold refused
  split_ifs
  · exact .refl s
  · simp only [checkSetsceneIgnoreTasks]
    split_ifs
    · exact .refl s
    all_goals exact rq.checkStamp_rechecked s task false false

theorem startTask_cases (task : Tid) (s : RunQueueExecute Tid) :
    rq.StartTaskCases task s (rq.startTask task s) := by
  have tested := rq.refused_rechecked task s
  have current := tested.trans
    (rq.checkStamp_rechecked (rq.refused task s).2 task false false)
  have sameCovered : (rq.refused task s).2.tasksCovered = s.tasksCovered := by
    obtain ⟨_, _, _, _, _, _, _, same⟩ := tested
    rw [same]
  have sendable := (current.fire (.taskStarted task false)).trans
    (rq.fakeworkerFor_rechecked false task _)
  simp only [startTask]
  split_ifs with refused covered isCurrent noexec unsendable
  · exact .refused tested refused
  · exact .covered tested (by simp [completing, refused, covered])
      (sameCovered ▸ covered)
  · exact .existing current
      (by simp [completing, refused, covered, isCurrent])
  · exact .noexec current
      (by simp [completing, refused, covered, isCurrent, noexec])
      (sameCovered ▸ covered)
  all_goals rw [sameCovered] at covered
  · refine .unstartable sendable covered ?_
    rw [← sameCovered] at covered
    simp [unstartable, refused, covered, isCurrent, noexec, unsendable]
  · exact .returned sendable covered
  · exact .goOn sendable covered

/-- What `execute` does when the scene queue may be finished. -/
inductive SceneDoneCases (s : RunQueueExecute Tid) : Flow Tid Unit → Prop where
  | goOn : SceneDoneCases s (.goOn s ())
  | finished : SceneDoneCases s
      (.goOn { s.fire .sceneQueueComplete with sqdone := true } ())
  | returned {state : RunQueueState} {sqdone : Bool} : SceneDoneCases s
      (.returned { s.fire .sceneQueueComplete with
        state := state, sqdone := sqdone })

theorem executeSceneDone_cases (s : RunQueueExecute Tid) :
    SceneDoneCases s (rq.executeSceneDone s) := by
  unfold executeSceneDone
  split
  · rename_i finished
    have summary : rq.summariseScenequeueErrors s =
        ((rq.sceneQueueErrors s).any SceneQueueError.isErr,
          s.fire .sceneQueueComplete) := by
      simp [summariseScenequeueErrors, finished.2.1]
    rw [summary]
    dsimp only
    split_ifs
    · exact .returned
    · exact .returned
    · exact .returned
    · exact .finished
  · exact .goOn

/-- What the scheduler has checked about the task it returns. -/
structure Scheduled (s : RunQueueExecute Tid) (task : Tid) : Prop where
  startable : rq.canStartTask s = true
  schedBuildable : task ∈ s.schedBuildable
  runqRunning : task ∉ s.runqRunning
  holdoffTasks : task ∉ s.holdoffTasks
  sorted : task ∈ s.tasksCovered ∨ task ∈ s.tasksNotcovered

variable (s : RunQueueExecute Tid)
include s

theorem nextBuildableTask_cases :
    (∃ consults, (rq.nextBuildableTask s).2 = { s with
        consults := consults
        schedBuildable := s.schedBuildable.filter (· ∉ s.runqRunning) }) ∧
      ∀ task ∈ (rq.nextBuildableTask s).1,
        task ∈ candidates { s with
          schedBuildable := s.schedBuildable.filter (· ∉ s.runqRunning) } := by
  simp only [nextBuildableTask]
  split_ifs
  · exact ⟨⟨_, rfl⟩, nofun⟩
  · exact ⟨⟨_, rfl⟩, nofun⟩
  · split
    · rename_i tid single
      split_ifs
      · exact ⟨⟨_, rfl⟩, nofun⟩
      · exact ⟨⟨_, rfl⟩, nofun⟩
      · refine ⟨⟨_, rfl⟩, ?_⟩
        rintro _ ⟨⟩
        exact single ▸ List.mem_singleton_self tid
    · refine ⟨⟨_, rfl⟩, ?_⟩
      apply List.foldlRecOn (motive := fun best : Option Tid =>
        ∀ task ∈ best, task ∈ candidates { s with
          schedBuildable := s.schedBuildable.filter (· ∉ s.runqRunning) })
      · exact nofun
      · intro best inside tid member
        unfold betterTask
        split_ifs
        · exact inside
        · exact inside
        · exact inside
        · simpa using member

theorem schedNext_cases :
    (∃ consults schedBuildable, (rq.schedNext s).2 = { s with
        consults := consults, schedBuildable := schedBuildable } ∧
        schedBuildable ⊆ s.schedBuildable) ∧
      ∀ task ∈ (rq.schedNext s).1, rq.Scheduled (rq.schedNext s).2 task := by
  unfold schedNext
  split_ifs with startable
  · obtain ⟨⟨consults, same⟩, inside⟩ := rq.nextBuildableTask_cases s
    refine ⟨⟨_, _, same, List.filter_subset_self _⟩, fun task chosen => ?_⟩
    have candidate := inside task chosen
    simp only [candidates, List.mem_filter, decide_eq_true_eq] at candidate
    rw [same]
    exact ⟨startable, List.mem_filter.mpr
        ⟨candidate.1.1, decide_eq_true candidate.1.2⟩,
      candidate.1.2, candidate.2.2.1, candidate.2.2.2⟩
  · exact ⟨⟨_, _, rfl, List.Subset.refl _⟩, by simp⟩

theorem summariseScenequeueErrors_cases :
    ∃ err events, rq.summariseScenequeueErrors s =
        (err, { s with events := events }) ∧
      (events = s.events ∨ events = .sceneQueueComplete :: s.events) := by
  unfold summariseScenequeueErrors
  split_ifs
  · exact ⟨_, _, rfl, .inl rfl⟩
  · exact ⟨_, _, rfl, .inr rfl⟩

/-- What `execute` does when nothing was started. -/
theorem executeIdle_cases :
    ∃ state sqDeferred events, rq.executeIdle s = { s with
        state := state, sqDeferred := sqDeferred, events := events } ∧
      (events = s.events ∨ events = .sceneQueueComplete :: s.events) ∧
      (sqDeferred = s.sqDeferred ∨ sqDeferred = s.sqDeferred.tail) := by
  unfold executeIdle
  split
  · exact ⟨_, _, _, rfl, .inl rfl, .inl rfl⟩
  · split
    · rename_i rest deferred
      exact ⟨_, _, _, rfl, .inl rfl, .inr (by rw [deferred]; rfl)⟩
    · split
      · exact ⟨_, _, _, rfl, .inl rfl, .inl rfl⟩
      · obtain ⟨err, events, same, fired⟩ :=
          rq.summariseScenequeueErrors_cases s
        rw [same]
        dsimp only
        split_ifs <;> exact ⟨_, _, _, rfl, fired, .inl rfl⟩

omit s

/-- What holds before the scene queue is looked at and what holds once the
held off tasks are updated carries over from part to part. -/
theorem executeNext_ends (before after : RunQueueExecute Tid → Prop)
    {s : RunQueueExecute Tid} (held : before s)
    (migrated : s.updatedTaskhashQueue ≠ [] ∨ s.pendingMigrations ≠ [] →
      before (rq.processPossibleMigrations s))
    (scene : ∀ s, before s → (rq.executeScene s).Ends before)
    (holdoff : ∀ s, before s → after (rq.updateHoldofftasks s))
    (sceneDone : ∀ s, after s → (rq.executeSceneDone s).Ends after)
    (next : ∀ s consults schedBuildable, schedBuildable ⊆ s.schedBuildable →
      after s →
      after { s with consults := consults, schedBuildable := schedBuildable }) :
    (∀ s', rq.executeNext s = .returned s' → before s' ∨ after s') ∧
      ∀ s' chosen, rq.executeNext s = .goOn s' chosen →
        after s' ∧ ∀ task ∈ chosen, rq.Scheduled s' task := by
  simp only [executeNext]
  set ready := if s.updatedTaskhashQueue ≠ [] ∨ s.pendingMigrations ≠ [] then
    rq.processPossibleMigrations s else s with readyDef
  have readied : before ready := by
    rw [readyDef]
    split_ifs with queued
    · exact migrated queued
    · exact held
  have first := scene ready readied
  cases flow : rq.executeScene ready with
  | raised => exact ⟨nofun, nofun⟩
  | returned stopped =>
      rw [flow] at first
      exact ⟨fun s' same => .inl (by cases same; exact first), nofun⟩
  | goOn goes _ =>
      rw [flow] at first
      have second := sceneDone _ (holdoff goes first)
      dsimp only
      cases flow : rq.executeSceneDone (rq.updateHoldofftasks goes) with
      | raised => exact ⟨nofun, nofun⟩
      | returned stopped =>
          rw [flow] at second
          exact ⟨fun s' same => .inr (by cases same; exact second), nofun⟩
      | goOn settled _ =>
          rw [flow] at second
          dsimp only
          split_ifs
          · refine ⟨nofun, ?_⟩
            rintro s' chosen ⟨⟩
            exact ⟨second, nofun⟩
          · refine ⟨nofun, ?_⟩
            rintro s' chosen ⟨⟩
            obtain ⟨⟨consults, schedBuildable, same, subset⟩, scheduled⟩ :=
              rq.schedNext_cases settled
            rw [same] at scheduled ⊢
            exact ⟨next settled _ _ subset second, scheduled⟩

end Prepared

end Nvbmc.RunQueue
