import Nvbmc.RunQueue.DependencyOrder
import Nvbmc.RunQueue.SceneReasons

/-!
# Setscene tasks and the tasks they cover

An undecided setscene task holds off what it covers, and a live one is
undecided; so neither is sent to a worker while the other runs.  This rests on
the hard dependencies of a live setscene task staying decided, which
`process_possible_migrations` does not check.
-/

namespace Nvbmc.RunQueue

open Nvbmc.Library

variable {Tid : Type} [LinearOrder Tid]

namespace Prepared

variable (rq : Prepared Tid)

/-- The setscene task provides the task: its own real variant, or one it
covers. -/
def ProvidesFor (scene tid : Tid) : Prop :=
  tid = scene ∨ tid ∈ rq.sqdata.sqCoveredTasks scene

/-- What keeps setscene tasks and the tasks they cover apart. -/
structure Separate (s : RunQueueExecute Tid) : Prop where
  scene : s.sqLive ⊆ rq.runqSetsceneTids
  sqRunning : s.sqLive ⊆ s.sqRunning
  decided : ∀ {tid}, s.Decided tid → tid ∈ s.sqRunning
  undecided : ∀ {tid}, tid ∈ s.sqLive → ¬ s.Decided tid
  harddeps : ∀ {tid}, tid ∈ s.sqLive →
    ∀ hard ∈ rq.sqdata.sqHarddepsRev tid, s.Decided hard
  sqDeferred : ∀ {tid}, tid ∈ s.sqLive → tid ∉ s.sqDeferred.keys
  idle : ∀ {scene tid}, scene ∈ rq.runqSetsceneTids → ¬ s.Decided scene →
    rq.ProvidesFor scene tid → tid ∈ s.runqRunning → tid ∈ s.runqComplete

/-- The held off tasks include all that undecided setscene tasks provide, of
those that `among` selects. -/
def HeldOff (among : Tid → Prop) (s : RunQueueExecute Tid) : Prop :=
  s.holdoffNeedUpdate = false → ∀ {scene tid}, among scene →
    scene ∈ rq.runqSetsceneTids → ¬ s.Decided scene →
    rq.ProvidesFor scene tid → tid ∈ s.holdoffTasks ∨ tid ∈ s.runqComplete

/-- A step that decides setscene tasks which are not live any more. -/
structure Advanced {Tid : Type} (s s' : RunQueueExecute Tid) : Prop where
  sqLive : s'.sqLive ⊆ s.sqLive
  decided : ∀ {tid}, s.Decided tid → s'.Decided tid
  newly : ∀ {tid}, s'.Decided tid → s.Decided tid ∨
    (tid ∈ s'.sqRunning ∧ tid ∉ s'.sqLive)
  sqRunning : s.sqRunning ⊆ s'.sqRunning
  sqDeferred : ∀ {tid}, tid ∈ s'.sqLive → tid ∈ s'.sqDeferred.keys →
    tid ∈ s.sqDeferred.keys
  running : ∀ {tid}, tid ∈ s'.runqRunning → tid ∈ s'.runqComplete ∨
    (tid ∈ s.runqRunning ∧ tid ∉ s.runqComplete)
  complete : s.runqComplete ⊆ s'.runqComplete
  holdoffTasks : s'.holdoffTasks = s.holdoffTasks
  fresh : s'.holdoffNeedUpdate = false → s.holdoffNeedUpdate = false

variable {rq} {s s' s'' : RunQueueExecute Tid}

namespace Advanced

omit [LinearOrder Tid]

theorem refl (s : RunQueueExecute Tid) : Advanced s s where
  sqLive := fun _ => id
  decided := id
  newly := .inl
  sqRunning := fun _ => id
  sqDeferred := fun _ => id
  running := fun {tid} running => by
    by_cases complete : tid ∈ s.runqComplete
    · exact .inl complete
    · exact .inr ⟨running, complete⟩
  complete := fun _ => id
  holdoffTasks := rfl
  fresh := id

theorem trans (first : Advanced s s') (second : Advanced s' s'') :
    Advanced s s'' where
  sqLive := fun _ live => first.sqLive (second.sqLive live)
  decided := fun decided => second.decided (first.decided decided)
  newly := by
    intro tid decided
    rcases second.newly decided with decided | new
    · exact (first.newly decided).imp_right fun ⟨running, idle⟩ =>
        ⟨second.sqRunning running, fun live => idle (second.sqLive live)⟩
    · exact .inr new
  sqRunning := fun _ running => second.sqRunning (first.sqRunning running)
  sqDeferred := fun live waiting => first.sqDeferred (second.sqLive live)
    (second.sqDeferred live waiting)
  running := by
    intro tid running
    rcases second.running running with complete | ⟨running, incomplete⟩
    · exact .inl complete
    · exact .inr ((first.running running).resolve_left incomplete)
  complete := fun _ complete => second.complete (first.complete complete)
  holdoffTasks := second.holdoffTasks.trans first.holdoffTasks
  fresh := fun fresh => first.fresh (second.fresh fresh)

end Advanced

theorem Separate.advanced (separate : rq.Separate s)
    (advanced : Advanced s s') : rq.Separate s' := by
  constructor
  · exact fun _ live => separate.scene (advanced.sqLive live)
  · exact fun _ live =>
      advanced.sqRunning (separate.sqRunning (advanced.sqLive live))
  · intro tid decided
    rcases advanced.newly decided with decided | ⟨running, -⟩
    · exact advanced.sqRunning (separate.decided decided)
    · exact running
  · intro tid live decided
    rcases advanced.newly decided with decided | ⟨-, idle⟩
    · exact separate.undecided (advanced.sqLive live) decided
    · exact idle live
  · intro tid live hard dep
    have before := separate.harddeps (advanced.sqLive live) hard dep
    exact advanced.decided before
  · intro tid live waiting
    exact separate.sqDeferred (advanced.sqLive live)
      (advanced.sqDeferred live waiting)
  · intro scene tid member undecided provides running
    rcases advanced.running running with complete | ⟨running, incomplete⟩
    · exact complete
    · exact absurd (separate.idle member
        (fun decided => undecided (advanced.decided decided)) provides running)
        incomplete

theorem HeldOff.advanced {among : Tid → Prop} (held : rq.HeldOff among s)
    (advanced : Advanced s s') : rq.HeldOff among s' := by
  intro fresh scene tid selected member undecided provides
  have before := held (advanced.fresh fresh) selected member
    (fun decided => undecided (advanced.decided decided)) provides
  rw [advanced.holdoffTasks]
  exact before.imp_right fun complete => advanced.complete complete

namespace Advanced

variable {task tid : Tid}

omit [LinearOrder Tid] in
theorem rechecked (rechecked : Rechecked s s') : Advanced s s' := by
  obtain ⟨_, _, _, _, _, _, _, rfl⟩ := rechecked
  exact { Advanced.refl s with }

omit [LinearOrder Tid] in
theorem browsed (passed : Browsed s s') : Advanced s s' := by
  obtain ⟨_, _, _, _, _, rfl⟩ := passed
  exact { Advanced.refl s with }

omit [LinearOrder Tid] in
theorem noted (noted : Noted s s') : Advanced s s' := by
  obtain ⟨_, _, _, _, _, _, _, _, _, -, rfl⟩ := noted
  exact { Advanced.refl s with }

theorem sqTaskSkip (reason : SceneSkipReason) (idle : tid ∉ s.sqLive) :
    Advanced s (rq.sqTaskSkip tid reason s) where
  sqLive := fun _ => id
  decided := fun decided => decided.imp_left List.mem_insert_of_mem
  newly := by
    rintro other (covered | failed)
    · rcases List.mem_insert_iff.mp covered with rfl | old
      · exact .inr ⟨List.mem_insert_self, idle⟩
      · exact .inl (.inl old)
    · exact .inl (.inr failed)
  sqRunning := fun _ => List.mem_insert_of_mem
  sqDeferred := fun _ => id
  running := (Advanced.refl s).running
  complete := fun _ => id
  holdoffTasks := rfl
  fresh := by simp [Prepared.sqTaskSkip, sqTaskCompleteoutright,
    decisionFuel, scenequeueUpdatecounters, countDecision]

/-- A task fails, and tasks behind it with it; no live setscene task may
depend hard on it. -/
theorem failed (separate : rq.Separate s) {marked after : RunQueueExecute Tid}
    (passed : rq.Passed tid marked after)
    (stale : after.holdoffNeedUpdate = true)
    (spares : ∀ live ∈ s'.sqLive, tid ∉ rq.sqdata.sqHarddepsRev live)
    (marking : ∃ events sqRunning sqBuildable workers buildStamps, marked =
      { s with
        events := events
        sqRunning := sqRunning
        sqBuildable := sqBuildable
        workers := workers
        buildStamps := buildStamps
        scenequeueNotcovered := s.scenequeueNotcovered.insert tid } ∧
      s.sqRunning ⊆ sqRunning ∧ tid ∈ sqRunning)
    (rest : ∃ state stats sqLive, s' = { after with
      state := state, stats := stats, sqLive := sqLive } ∧
      sqLive ⊆ s.sqLive ∧ tid ∉ sqLive) : Advanced s s' := by
  obtain ⟨_, _, _, rfl, subset, ended⟩ := rest
  obtain ⟨_, _, _, _, _, rfl, grown, running⟩ := marking
  constructor
  · exact subset
  · intro other decided
    exact passed.decided (decided.imp_right List.mem_insert_of_mem)
  · rintro other (covered | failed)
    · exact .inl (.inl (passed.scenequeueCovered ▸ covered))
    · rcases passed.failed failed with old | behind
      · rcases List.mem_insert_iff.mp old with rfl | old
        · exact .inr ⟨passed.sqRunning running, ended⟩
        · exact .inl (.inr old)
      · refine .inr ⟨behind.sqRunning, fun live => ?_⟩
        obtain ⟨hard, edge, unmet⟩ := behind.behind
        rcases unmet with rfl | unmet
        · exact spares other live edge
        · have before := separate.harddeps (subset live) hard edge
          exact unmet (before.imp_right List.mem_insert_of_mem)
  · exact fun _ member => passed.sqRunning (grown member)
  · intro other _ waiting
    rw [passed.sqDeferred] at waiting
    exact waiting
  · intro other member
    rw [passed.runqRunning] at member
    rw [passed.runqComplete]
    exact (Advanced.refl s).running member
  · rw [passed.runqComplete]
    exact fun _ => id
  · exact passed.holdoffTasks
  · intro fresh
    rw [stale] at fresh
    cases fresh

theorem sqTaskFailoutright (separate : rq.Separate s) (idle : tid ∉ s.sqLive)
    (spares : ∀ live ∈ s.sqLive, tid ∉ rq.sqdata.sqHarddepsRev live) :
    Advanced s (rq.sqTaskFailoutright tid s) := by
  obtain ⟨passed, -, stale⟩ := rq.updatecounters_passed tid true
    (markFailoutright tid s)
  have sqLive : (rq.sqTaskFailoutright tid s).sqLive = s.sqLive := passed.sqLive
  refine failed separate passed stale (sqLive ▸ spares)
    ⟨_, _, _, _, _, rfl, fun _ => List.mem_insert_of_mem,
      List.mem_insert_self⟩ ⟨_, _, _, rfl, ?_, ?_⟩
  · exact fun _ live => sqLive ▸ live
  · exact fun live => idle (sqLive ▸ live)

/-- A setscene task that is not running is undecided, so that no live one
depends hard on it. -/
theorem failIdle (separate : rq.Separate s) (idle : tid ∉ s.sqRunning) :
    Advanced s (rq.sqTaskFailoutright tid s) := by
  refine sqTaskFailoutright separate
    (fun live => idle (separate.sqRunning live)) fun live member edge => ?_
  exact idle (separate.decided (separate.harddeps member tid edge))

theorem updateScenequeueData {tids : List Tid}
    (idle : ∀ tid ∈ tids, tid ∉ s.sqLive) :
    Advanced s (rq.updateScenequeueData tids s) := by
  have kept : Advanced s (rq.updateScenequeueData tids s) ∧
      (rq.updateScenequeueData tids s).sqLive = s.sqLive := by
    refine rq.updateScenequeueData_induction
      (motive := fun after => Advanced s after ∧ after.sqLive = s.sqLive)
      ?_ ?_ ⟨.refl s, rfl⟩
    · rintro before after again ⟨soFar, sqLive⟩
      refine ⟨soFar.trans (rechecked again), ?_⟩
      obtain ⟨_, _, _, _, _, _, _, rfl⟩ := again
      exact sqLive
    · rintro before tid reason member - ⟨soFar, sqLive⟩
      refine ⟨soFar.trans (sqTaskSkip reason ?_), sqLive⟩
      rw [sqLive]
      exact idle tid member
  exact kept.1

end Advanced

private theorem Separate.forgotten (separate : rq.Separate s) {tid : Tid}
    {pendingMigrations tasksScenequeueDone : List Tid}
    (dead : tid ∉ s.sqLive) (idle : tid ∉ s.runqRunning)
    (covered : ∀ dep ∈ rq.sqdata.sqCoveredTasks tid, dep ∈ s.runqRunning →
      dep ∈ s.runqComplete)
    (spares : ∀ live ∈ s.sqLive, tid ∉ rq.sqdata.sqHarddepsRev live) :
    rq.Separate (rq.forget tid { s with
      pendingMigrations := pendingMigrations
      tasksScenequeueDone := tasksScenequeueDone }) := by
  have decided : ∀ {other}, (rq.forget tid { s with
      pendingMigrations := pendingMigrations
      tasksScenequeueDone := tasksScenequeueDone }).Decided other ↔
      s.Decided other ∧ other ≠ tid := by
    intro other
    simp only [RunQueueExecute.Decided, forget, mem_discard, or_and_right]
  constructor
  · exact separate.scene
  · intro other live
    refine mem_discard.mpr ⟨separate.sqRunning live, ?_⟩
    exact fun same => dead (same ▸ live)
  · intro other member
    obtain ⟨before, different⟩ := decided.mp member
    exact mem_discard.mpr ⟨separate.decided before, different⟩
  · exact fun live member =>
      separate.undecided live (decided.mp member).1
  · intro other live hard edge
    refine decided.mpr ⟨separate.harddeps live hard edge, ?_⟩
    exact fun same => spares other live (same ▸ edge)
  · exact separate.sqDeferred
  · intro scene other member undecided provides running
    by_cases same : scene = tid
    · subst same
      rcases provides with rfl | below
      · exact absurd running idle
      · exact covered other below running
    · refine separate.idle member (fun before => ?_) provides running
      exact undecided (decided.mpr ⟨before, same⟩)

private theorem MigrationStep.advanced {migrating : List Tid}
    (step : rq.MigrationStep migrating s s') (separate : rq.Separate s)
    (spares : ∀ live ∈ s.sqLive, ∀ tid ∈ migrating,
      tid ∉ rq.sqdata.sqHarddepsRev live) :
    Advanced s s' ∨ ∃ tid pendingMigrations tasksScenequeueDone,
      tid ∈ migrating ∧ tid ∉ s.sqLive ∧ tid ∉ s.runqRunning ∧
      (∀ dep ∈ rq.sqdata.sqCoveredTasks tid, dep ∈ s.runqRunning →
        dep ∈ s.runqComplete) ∧
      s' = rq.forget tid { s with
        pendingMigrations := pendingMigrations
        tasksScenequeueDone := tasksScenequeueDone } := by
  cases step with
  | noted noted => exact .inl (.noted noted)
  | halted => exact .inl { Advanced.refl s with }
  | forgotten member dead idle covered =>
      exact .inr ⟨_, _, _, member, dead, idle, covered, rfl⟩
  | deferred member dead =>
      refine .inl { Advanced.refl s with sqDeferred := ?_ }
      intro other live waiting
      rcases (Dict.mem_keys_set ..).mp waiting with rfl | old
      · exact absurd live dead
      · exact old
  | rechecked again => exact .inl (.rechecked again)
  | skipped _ dead => exact .inl (.sqTaskSkip _ dead)
  | failed member dead =>
      exact .inl (.sqTaskFailoutright separate dead
        fun live running => spares live running _ member)
  | settled =>
      exact .inl { Advanced.refl s with fresh := fun fresh => by cases fresh }

variable (rq) in
/-- What holds up to the scheduler; `live` are the setscene tasks that were
live before. -/
structure Between (live : List Tid) (s : RunQueueExecute Tid) : Prop
    extends rq.Separate s where
  heldLive : rq.HeldOff (· ∈ live) s
  held : s.state = .running → rq.HeldOff (fun _ => True) s

variable {live : List Tid}

theorem Between.advanced (between : rq.Between live s)
    (advanced : Advanced s s')
    (running : s'.state = .running → s.state = .running) :
    rq.Between live s' where
  toSeparate := between.toSeparate.advanced advanced
  heldLive := between.heldLive.advanced advanced
  held := fun still => (between.held (running still)).advanced advanced

/-- A migration that takes no hard dependency of a live setscene task out of
the decided sets. -/
theorem Between.processPossibleMigrations (between : rq.Between s.sqLive s)
    (spares : ∀ live ∈ s.sqLive, ∀ tid ∈ (rq.migrateAll s).updateTasks,
      tid ∉ rq.sqdata.sqHarddepsRev live) :
    rq.Between s.sqLive (rq.processPossibleMigrations s) := by
  have steps := rq.processPossibleMigrations_steps s
  have kept : ∀ {after}, Relation.ReflTransGen
      (rq.MigrationStep (rq.migrateAll s).updateTasks) s after →
      rq.Separate after ∧ rq.HeldOff (· ∈ s.sqLive) after := by
    intro after steps
    induction steps with
    | refl => exact ⟨between.toSeparate, between.heldLive⟩
    | tail earlier step induction =>
        obtain ⟨separate, held⟩ := induction
        have sqLive := MigrationStep.run_sqLive earlier
        rcases step.advanced separate (sqLive ▸ spares) with
          advanced | ⟨tid, _, _, member, dead, idle, covered, rfl⟩
        · exact ⟨separate.advanced advanced, held.advanced advanced⟩
        · refine ⟨separate.forgotten dead idle covered fun live running =>
            spares live (sqLive ▸ running) tid member, ?_⟩
          intro fresh scene other live scenes undecided provides
          refine held fresh live scenes (fun decided => ?_) provides
          exact separate.undecided (sqLive ▸ live) decided
  obtain ⟨separate, heldLive⟩ := kept steps
  refine ⟨separate, heldLive, fun running => ?_⟩
  rcases rq.processPossibleMigrations_ends s with stopped | stale | noted
  · rw [stopped] at running
    cases running
  · intro fresh
    rw [stale] at fresh
    cases fresh
  · have before : s.state = .running :=
      (rq.processPossibleMigrations_realKept s).running running
    exact (between.held before).advanced (.noted noted)

theorem Between.updateHoldofftasks (between : rq.Between live s) :
    rq.Between live (rq.updateHoldofftasks s) := by
  by_cases stale : s.holdoffNeedUpdate = true
  · obtain ⟨_, _, same⟩ := rq.updateHoldofftasks_eq s stale
    have held : ∀ among, rq.HeldOff among (rq.updateHoldofftasks s) := by
      intro among
      rw [same]
      intro _ scene tid _ member undecided provides
      have selected : scene ∈ rq.undecided s :=
        List.mem_filter.mpr ⟨member, decide_eq_true undecided⟩
      rcases provides with rfl | covered
      · exact .inl (List.mem_append_left _ selected)
      · rw [or_iff_not_imp_right]
        intro incomplete
        refine List.mem_append_right _ (List.mem_filter.mpr ⟨?_, ?_⟩)
        · exact List.mem_flatMap.mpr ⟨scene, selected, covered⟩
        · exact decide_eq_true incomplete
    refine ⟨?_, held _, fun _ => held _⟩
    rw [same]
    exact { between.toSeparate with }
  · rw [Prepared.updateHoldofftasks, if_neg stale]
    exact between

variable {task : Tid} {checked : RunQueueExecute Tid}

private theorem Between.sceneStarted (between : rq.Between live s)
    (rechecked : Rechecked (s.fire (.sceneTaskStarted task)) checked)
    (scene : task ∈ rq.runqSetsceneTids) (idle : task ∉ s.sqRunning)
    (waitless : task ∉ s.sqDeferred.keys)
    (hard : ∀ hard ∈ rq.sqdata.sqHarddepsRev task, s.Decided hard) :
    rq.Between live (rq.sceneStarted task checked) := by
  obtain ⟨_, _, _, _, _, _, _, rfl⟩ := rechecked
  refine ⟨?_, between.heldLive, between.held⟩
  constructor
  · intro tid member
    rcases List.mem_insert_iff.mp member with rfl | old
    · exact scene
    · exact between.scene old
  · intro tid member
    rcases List.mem_insert_iff.mp member with rfl | old
    · exact List.mem_insert_self
    · exact List.mem_insert_of_mem (between.sqRunning old)
  · exact fun decided => List.mem_insert_of_mem (between.decided decided)
  · intro tid member decided
    rcases List.mem_insert_iff.mp member with rfl | old
    · exact idle (between.decided decided)
    · exact between.undecided old decided
  · intro tid member
    rcases List.mem_insert_iff.mp member with rfl | old
    · exact hard
    · exact between.harddeps old
  · intro tid member
    rcases List.mem_insert_iff.mp member with rfl | old
    · exact waitless
    · exact between.sqDeferred old
  · exact between.idle

private theorem Between.startScene
    (between : rq.Between live s) (scene : task ∈ rq.runqSetsceneTids)
    (idle : task ∉ s.sqRunning) (waitless : task ∉ s.sqDeferred.keys)
    (hard : ∀ hard ∈ rq.sqdata.sqHarddepsRev task, s.Decided hard) :
    (rq.startScene task s).Ends (rq.Between live) := by
  have checkedAgain : ∀ {checked}, Rechecked s checked →
      rq.Between live checked ∧ task ∉ checked.sqRunning := by
    intro checked rechecked
    refine ⟨between.advanced (.rechecked rechecked)
      rechecked.realKept.running, ?_⟩
    obtain ⟨_, _, _, _, _, _, _, rfl⟩ := rechecked
    exact idle
  have cases := rq.startScene_cases task s
  generalize rq.startScene task s = flow at cases ⊢
  cases cases with
  | failed rechecked =>
      obtain ⟨checked, idle⟩ := checkedAgain rechecked
      exact checked.advanced (.failIdle checked.toSeparate idle)
        (rq.sqTaskFailoutright_realKept task _).running
  | skipped rechecked =>
      obtain ⟨checked, idle⟩ := checkedAgain rechecked
      exact checked.advanced
        (.sqTaskSkip _ fun live => idle (checked.sqRunning live))
        (rq.sqTaskSkip_realKept task _ _).running
  | raised => trivial
  | returned rechecked =>
      exact between.sceneStarted rechecked scene idle waitless hard
  | goOn rechecked =>
      exact between.sceneStarted rechecked scene idle waitless hard

private theorem Between.executeScene (between : rq.Between live s) :
    (rq.executeScene s).Ends (rq.Between live) := by
  have browsed : ∀ {browsed}, Browsed s browsed →
      rq.Between live browsed ∧ browsed.sqRunning = s.sqRunning := by
    intro browsed passed
    refine ⟨between.advanced (.browsed passed) passed.realKept.running, ?_⟩
    obtain ⟨_, _, _, _, _, rfl⟩ := passed
    rfl
  have undeferred : ∀ (browsed : RunQueueExecute Tid) (task : Tid),
      Advanced browsed
        { browsed with sqDeferred := browsed.sqDeferred.del task } :=
    fun browsed task => { Advanced.refl browsed with
      sqDeferred := fun _ waiting => ((Dict.mem_keys_del ..).mp waiting).2 }
  unfold Prepared.executeScene
  split_ifs
  · have cases := rq.sceneLoop_cases rq.runqSetsceneTids.length s
    generalize rq.sceneLoop rq.runqSetsceneTids.length s = flow at cases ⊢
    cases cases with
    | @notNeeded after task passed _ idle =>
        obtain ⟨between, same⟩ := browsed passed
        have skipped := between.advanced
          (.sqTaskSkip .notNeeded fun live =>
            idle (same ▸ between.sqRunning live))
          (rq.sqTaskSkip_realKept task .notNeeded after).running
        exact (skipped.advanced (undeferred _ task) id).advanced
          { Advanced.refl _ with } id
    | deferred passed => exact (browsed passed).1
    | @failed after task passed _ idle =>
        obtain ⟨between, same⟩ := browsed passed
        have waitless := between.advanced (undeferred after task) id
        exact waitless.advanced (.failIdle waitless.toSeparate (same ▸ idle))
          (rq.sqTaskFailoutright_realKept task _).running
    | @picked after task passed scene idle hard =>
        obtain ⟨between, same⟩ := browsed passed
        refine (between.advanced (undeferred after task) id).startScene scene
          (same ▸ idle) (fun waiting => ?_) ?_
        · exact ((Dict.mem_keys_del ..).mp waiting).1 rfl
        · obtain ⟨_, _, _, _, _, rfl⟩ := passed
          exact hard
    | none passed => exact (browsed passed).1
  · exact between

namespace Advanced

variable {task : Tid}

private theorem releaseDeferred {acc : RunQueueExecute Tid × Option Tid}
    (separate : rq.Separate acc.1) (tid : Tid) :
    Advanced acc.1 (rq.releaseDeferred task acc tid).1 := by
  unfold Prepared.releaseDeferred
  split_ifs with waiting
  · have waits : tid ∈ acc.1.sqDeferred.keys := Dict.mem_keys_of_get? waiting
    have dead : tid ∉ acc.1.sqLive :=
      fun live => separate.sqDeferred live waits
    split
    · have undeferred : Advanced acc.1
          { acc.1 with sqDeferred := acc.1.sqDeferred.del tid } :=
        { Advanced.refl acc.1 with
          sqDeferred := fun _ waiting =>
            ((Dict.mem_keys_del ..).mp waiting).2 }
      have checkedAgain : Advanced
          { acc.1 with sqDeferred := acc.1.sqDeferred.del tid }
          (rq.updateScenequeueData [tid]
            { acc.1 with sqDeferred := acc.1.sqDeferred.del tid }) := by
        refine Advanced.updateScenequeueData fun other member => ?_
        rw [List.mem_singleton.mp member]
        exact dead
      exact undeferred.trans checkedAgain
    · refine { Advanced.refl acc.1 with sqDeferred := fun _ waiting => ?_ }
      rcases (Dict.mem_keys_set ..).mp waiting with rfl | old
      · exact waits
      · exact old
  · exact .refl acc.1

private theorem completed (separate : rq.Separate s)
    {marked : RunQueueExecute Tid}
    (marking : ∃ stats events runqBuildable schedBuildable runqRunning,
      marked = { s with
        stats := stats
        events := events
        runqBuildable := runqBuildable
        schedBuildable := schedBuildable
        runqRunning := runqRunning } ∧
      ∀ tid ∈ runqRunning, tid = task ∨ tid ∈ s.runqRunning) :
    Advanced s (rq.taskCompleteoutright task marked) := by
  obtain ⟨_, _, _, _, _, rfl, old⟩ := marking
  simp only [taskCompleteoutright]
  obtain ⟨_, _, same⟩ := foldl_setbuildable rq.setbuildableRevdep_each
    (rq.revdeps task) _
  rw [same]
  refine List.foldlRecOn (motive := fun acc : RunQueueExecute Tid ×
    Option Tid => Advanced s acc.1) _ _ ?_ ?_
  · refine { Advanced.refl s with running := ?_, complete := ?_ }
    · intro tid running
      by_cases complete : tid ∈ s.runqComplete.insert task
      · exact .inl complete
      · rw [List.mem_insert_iff, not_or] at complete
        exact .inr ⟨(old tid running).resolve_left complete.1, complete.2⟩
    · exact fun _ => List.mem_insert_of_mem
  · intro acc soFar tid _
    exact soFar.trans (releaseDeferred (separate.advanced soFar) tid)

end Advanced

variable (rq) in
/-- `execute` leaves the stage it was in or stops. -/
theorem executeSceneDone_running (s : RunQueueExecute Tid) :
    (rq.executeSceneDone s).Ends fun s' =>
      s'.state = .running → s.state = .running := by
  unfold executeSceneDone
  split
  · rename_i finished
    have summary : rq.summariseScenequeueErrors s =
        ((rq.sceneQueueErrors s).any SceneQueueError.isErr,
          s.fire .sceneQueueComplete) := by
      simp [summariseScenequeueErrors, finished.2.1]
    rw [summary]
    dsimp only
    split_ifs <;> simp [Flow.Ends, RunQueueExecute.fire]
  · exact id

variable (rq) in
theorem executeIdle_running (s : RunQueueExecute Tid)
    (running : (rq.executeIdle s).state = .running) : s.state = .running := by
  unfold executeIdle at running
  split at running
  · exact running
  · split at running
    · exact running
    · split at running
      · cases running
      · dsimp only at running
        split_ifs at running

variable (rq) in
theorem executeSceneDone_advanced (s : RunQueueExecute Tid) :
    (rq.executeSceneDone s).Ends fun s' => Advanced s s' ∧
      s'.holdoffNeedUpdate = s.holdoffNeedUpdate ∧ s'.stats = s.stats := by
  have cases := rq.executeSceneDone_cases s
  generalize rq.executeSceneDone s = flow at cases ⊢
  cases cases with
  | goOn => exact ⟨.refl s, rfl, rfl⟩
  | finished => exact ⟨{ Advanced.refl s with }, rfl, rfl⟩
  | returned => exact ⟨{ Advanced.refl s with }, rfl, rfl⟩

theorem Between.executeNext (between : rq.Between s.sqLive s)
    (spares : ∀ live ∈ s.sqLive, ∀ tid ∈ (rq.migrateAll s).updateTasks,
      tid ∉ rq.sqdata.sqHarddepsRev live) :
    (∀ s', rq.executeNext s = .returned s' → rq.Between s.sqLive s') ∧
      ∀ s' chosen, rq.executeNext s = .goOn s' chosen →
        (rq.Between s.sqLive s' ∧ s'.holdoffNeedUpdate = false) ∧
          ∀ task ∈ chosen, rq.Scheduled s' task := by
  have ends := rq.executeNext_ends (rq.Between s.sqLive)
    (fun s' => rq.Between s.sqLive s' ∧ s'.holdoffNeedUpdate = false) between
    (fun _ => between.processPossibleMigrations spares)
    (fun _ between => between.executeScene)
    (fun s' between =>
      ⟨between.updateHoldofftasks, rq.updateHoldofftasks_fresh s'⟩)
    (fun s' settled => by
      have running := rq.executeSceneDone_running s'
      have advanced := rq.executeSceneDone_advanced s'
      generalize rq.executeSceneDone s' = flow at running advanced ⊢
      cases flow with
      | raised => trivial
      | returned s'' =>
          exact ⟨settled.1.advanced advanced.1 running,
            advanced.2.1.trans settled.2⟩
      | goOn s'' =>
          exact ⟨settled.1.advanced advanced.1 running,
            advanced.2.1.trans settled.2⟩)
    (fun s' _ _ _ settled => ⟨settled.1.advanced
      { Advanced.refl s' with } id, settled.2⟩)
  exact ⟨fun s' returned => (ends.1 s' returned).elim id And.left, ends.2⟩

/-- A step that announces no task. -/
structure Silent (s s' : RunQueueExecute Tid) : Prop where
  running : s'.state = .running → s.state = .running
  tasks : handedTasks s'.events = handedTasks s.events
  scenes : handedScenes s'.events = handedScenes s.events

/-- A step that sends nothing to a worker and takes nothing back. -/
structure Handless (s s' : RunQueueExecute Tid) : Prop
    extends Silent s s' where
  sqLive : s'.sqLive = s.sqLive

omit [LinearOrder Tid] in
theorem RealKept.silent (kept : RealKept s s') : Silent s s' :=
  ⟨kept.running, kept.handedTasks, kept.handedScenes⟩

theorem Handless.of_kept (neutral : Neutral s s') (kept : RealKept s s') :
    Handless s s' :=
  ⟨RealKept.silent kept, neutral.sqLive⟩

omit [LinearOrder Tid] in
theorem Handless.trans (first : Handless s s') (second : Handless s' s'') :
    Handless s s'' where
  running := fun running => first.running (second.running running)
  sqLive := second.sqLive.trans first.sqLive
  tasks := second.tasks.trans first.tasks
  scenes := second.scenes.trans first.scenes

/-- At most one setscene task is sent to a worker, and it is live then. -/
def HandsScene (s s' : RunQueueExecute Tid) : Prop :=
  handedTasks s'.events = handedTasks s.events ∧
    (handedScenes s'.events = handedScenes s.events ∨
      ∃ task ∈ s'.sqLive,
        handedScenes s'.events = task :: handedScenes s.events)

omit [LinearOrder Tid] in
theorem Handless.handsScene (handless : Handless s s') : HandsScene s s' :=
  ⟨handless.tasks, .inl handless.scenes⟩

omit [LinearOrder Tid] in
theorem HandsScene.trans (first : HandsScene s s')
    (second : Handless s' s'') : HandsScene s s'' := by
  refine ⟨second.tasks.trans first.1, ?_⟩
  rw [second.scenes, second.sqLive]
  exact first.2

omit [LinearOrder Tid] in
theorem Handless.after (second : HandsScene s' s'') (first : Handless s s') :
    HandsScene s s'' := by
  refine ⟨second.1.trans first.tasks, ?_⟩
  rw [← first.scenes]
  exact second.2

variable (rq) in
private theorem startScene_hands (task : Tid) (s : RunQueueExecute Tid) :
    (rq.startScene task s).Ends (HandsScene s) := by
  have cases := rq.startScene_cases task s
  generalize rq.startScene task s = flow at cases ⊢
  cases cases with
  | failed rechecked =>
      exact (Handless.of_kept
        (rechecked.neutral.trans (rq.sqTaskFailoutright_neutral task _))
        (rechecked.realKept.trans
          (rq.sqTaskFailoutright_realKept task _))).handsScene
  | skipped rechecked =>
      exact (Handless.of_kept
        (rechecked.neutral.trans (rq.sqTaskSkip_neutral task _ _))
        (rechecked.realKept.trans (rq.sqTaskSkip_realKept task _ _))).handsScene
  | raised => trivial
  | returned rechecked =>
      obtain ⟨_, _, _, _, _, _, _, rfl⟩ := rechecked
      exact ⟨rfl, .inr ⟨task, List.mem_insert_self, rfl⟩⟩
  | goOn rechecked =>
      obtain ⟨_, _, _, _, _, _, _, rfl⟩ := rechecked
      exact ⟨rfl, .inr ⟨task, List.mem_insert_self, rfl⟩⟩

variable (rq) in
private theorem executeScene_hands (s : RunQueueExecute Tid) :
    (rq.executeScene s).Ends (HandsScene s) := by
  have browsed : ∀ {browsed}, Browsed s browsed → Handless s browsed :=
    fun passed => .of_kept passed.neutral passed.realKept
  unfold executeScene
  split_ifs
  · have cases := rq.sceneLoop_cases rq.runqSetsceneTids.length s
    generalize rq.sceneLoop rq.runqSetsceneTids.length s = flow at cases ⊢
    cases cases with
    | @notNeeded after task passed =>
        have skipped := (browsed passed).trans
          (.of_kept (rq.sqTaskSkip_neutral task .notNeeded after)
            (rq.sqTaskSkip_realKept task .notNeeded after))
        exact (skipped.trans ⟨⟨id, rfl, rfl⟩, rfl⟩).handsScene
    | deferred passed => exact (browsed passed).handsScene
    | @failed after task passed =>
        have waitless : Handless s
            { after with sqDeferred := after.sqDeferred.del task } :=
          (browsed passed).trans ⟨⟨id, rfl, rfl⟩, rfl⟩
        exact (waitless.trans (.of_kept (rq.sqTaskFailoutright_neutral task _)
          (rq.sqTaskFailoutright_realKept task _))).handsScene
    | @picked after task passed =>
        have waitless : Handless s
            { after with sqDeferred := after.sqDeferred.del task } :=
          (browsed passed).trans ⟨⟨id, rfl, rfl⟩, rfl⟩
        have started := rq.startScene_hands task
          { after with sqDeferred := after.sqDeferred.del task }
        dsimp only
        generalize rq.startScene task _ = flow at started ⊢
        cases flow with
        | raised => trivial
        | returned _ => exact waitless.after started
        | goOn _ => exact waitless.after started
    | none passed => exact (browsed passed).handsScene
  · exact (Handless.mk ⟨id, rfl, rfl⟩ rfl).handsScene

/-- After a setscene task was started, `execute` only goes on when nothing
more can be started. -/
theorem startScene_goOn (flow : rq.startScene task s = .goOn s' ()) :
    rq.canStartTask s' = false := by
  simp only [startScene] at flow
  split_ifs at flow with _ _ _ _ _ full
  cases flow
  simpa using full

theorem executeScene_goOn (flow : rq.executeScene s = .goOn s' ())
    (startable : rq.canStartTask s' = true) : Handless s s' := by
  unfold executeScene at flow
  split_ifs at flow
  · have cases := rq.sceneLoop_cases rq.runqSetsceneTids.length s
    generalize rq.sceneLoop rq.runqSetsceneTids.length s = loop at cases flow
    cases cases with
    | picked => simp [startScene_goOn flow] at startable
    | none passed =>
        cases flow
        exact .of_kept passed.neutral passed.realKept
    | _ => simp at flow
  · cases flow
    exact ⟨⟨id, rfl, rfl⟩, rfl⟩

variable (rq) in
theorem updateHoldofftasks_handless (s : RunQueueExecute Tid) :
    Handless s (rq.updateHoldofftasks s) := by
  by_cases stale : s.holdoffNeedUpdate = true
  · obtain ⟨_, _, same⟩ := rq.updateHoldofftasks_eq s stale
    rw [same]
    exact ⟨⟨id, rfl, rfl⟩, rfl⟩
  · rw [Prepared.updateHoldofftasks, if_neg stale]
    exact ⟨⟨id, rfl, rfl⟩, rfl⟩

variable (rq) in
theorem executeSceneDone_handless (s : RunQueueExecute Tid) :
    (rq.executeSceneDone s).Ends (Handless s) := by
  have running := rq.executeSceneDone_running s
  have cases := rq.executeSceneDone_cases s
  generalize rq.executeSceneDone s = flow at cases running ⊢
  cases cases <;> exact ⟨⟨running, rfl, rfl⟩, rfl⟩

variable (rq) in
/-- Up to the scheduler at most one setscene task is handed over, and none
when the scheduler may still start a task. -/
theorem executeNext_hands (s : RunQueueExecute Tid) :
    (∀ s', rq.executeNext s = .returned s' → HandsScene s s') ∧
      ∀ s' chosen, rq.executeNext s = .goOn s' chosen → HandsScene s s' ∧
        (rq.canStartTask s' = true → Handless s s') := by
  simp only [executeNext]
  set ready := if s.updatedTaskhashQueue ≠ [] ∨ s.pendingMigrations ≠ [] then
    rq.processPossibleMigrations s else s with readyDef
  have readied : Handless s ready := by
    rw [readyDef]
    split_ifs
    · exact .of_kept (rq.processPossibleMigrations_neutral s)
        (rq.processPossibleMigrations_realKept s)
    · exact ⟨⟨id, rfl, rfl⟩, rfl⟩
  have first := rq.executeScene_hands ready
  cases scene : rq.executeScene ready with
  | raised => exact ⟨by simp, by simp⟩
  | returned stopped =>
      rw [scene] at first
      refine ⟨?_, by simp⟩
      rintro _ ⟨⟩
      exact readied.after first
  | goOn goes _ =>
      rw [scene] at first
      have updated := rq.updateHoldofftasks_handless goes
      have settled := rq.executeSceneDone_handless (rq.updateHoldofftasks goes)
      have advanced := rq.executeSceneDone_advanced
        (rq.updateHoldofftasks goes)
      have active := (rq.updateHoldofftasks_neutral goes).active
      dsimp only
      cases done : rq.executeSceneDone (rq.updateHoldofftasks goes) with
      | raised => exact ⟨by simp, by simp⟩
      | returned stopped =>
          rw [done] at settled
          refine ⟨?_, by simp⟩
          rintro _ ⟨⟩
          exact readied.after (first.trans (updated.trans settled))
      | goOn next _ =>
          rw [done] at settled advanced
          have continued : ∀ {s'}, Handless next s' → s'.stats = next.stats →
              HandsScene s s' ∧
                (rq.canStartTask s' = true → Handless s s') := by
            intro s' tail stats
            have tail := updated.trans (settled.trans tail)
            refine ⟨readied.after (first.trans tail), fun startable => ?_⟩
            have before : rq.canStartTask goes = true := by
              rw [canStartTask_iff] at startable ⊢
              rwa [tail.sqLive, stats, advanced.2.2, active] at startable
            exact readied.trans ((executeScene_goOn scene before).trans tail)
          dsimp only
          split_ifs
          · refine ⟨by simp, ?_⟩
            rintro _ _ ⟨⟩
            exact continued ⟨⟨id, rfl, rfl⟩, rfl⟩ rfl
          · refine ⟨by simp, ?_⟩
            rintro _ _ ⟨⟩
            obtain ⟨⟨_, _, same, -⟩, -⟩ := rq.schedNext_cases next
            rw [same]
            exact continued ⟨⟨id, rfl, rfl⟩, rfl⟩ rfl

/-- A scheduled task is provided by no undecided setscene task of those whose
tasks are held off. -/
theorem HeldOff.not_provides {among : Tid → Prop} {task scene : Tid}
    (held : rq.HeldOff among s) (fresh : s.holdoffNeedUpdate = false)
    (complete : s.runqComplete ⊆ s.runqRunning)
    (scheduled : rq.Scheduled s task) (selected : among scene)
    (member : scene ∈ rq.runqSetsceneTids) (undecided : ¬ s.Decided scene) :
    ¬ rq.ProvidesFor scene task := by
  intro provides
  rcases held fresh selected member undecided provides with off | done
  · exact scheduled.holdoffTasks off
  · exact scheduled.runqRunning (complete done)

/-- A real task that no undecided setscene task provides is sent to a
worker. -/
private theorem Separate.taskStarted (separate : rq.Separate s)
    (spared : ∀ scene ∈ rq.runqSetsceneTids, ¬ s.Decided scene →
      ¬ rq.ProvidesFor scene task)
    (rechecked : Rechecked (s.fire (.taskStarted task false)) checked) :
    rq.Separate (rq.taskStarted task checked) := by
  obtain ⟨_, _, _, _, _, _, _, rfl⟩ := rechecked
  refine { separate with idle := ?_ }
  intro scene tid member undecided provides running
  rcases List.mem_insert_iff.mp running with rfl | old
  · exact absurd provides (spared scene member undecided)
  · exact separate.idle member undecided provides old

variable (rq) in
theorem taskCompleteoutright_handless (task : Tid) (s : RunQueueExecute Tid) :
    Handless s (rq.taskCompleteoutright task s) := by
  obtain ⟨_, _, same⟩ := foldl_setbuildable rq.setbuildableRevdep_each
    (rq.revdeps task) { s with
      runqComplete := s.runqComplete.insert task }
  simp only [taskCompleteoutright]
  rw [same]
  refine List.foldlRecOn (motive := fun acc : RunQueueExecute Tid ×
    Option Tid => Handless s acc.1) _ _ ⟨⟨id, rfl, rfl⟩, rfl⟩ ?_
  intro acc soFar tid _
  refine soFar.trans ?_
  unfold releaseDeferred
  split_ifs
  · split
    · have deferrals : Handless acc.1
          { acc.1 with sqDeferred := acc.1.sqDeferred.del tid } :=
        ⟨⟨id, rfl, rfl⟩, rfl⟩
      exact deferrals.trans (.of_kept (rq.updateScenequeueData_neutral [tid] _)
        (rq.updateScenequeueData_realKept [tid] _))
    · exact ⟨⟨id, rfl, rfl⟩, rfl⟩
  · exact ⟨⟨id, rfl, rfl⟩, rfl⟩

variable (rq) in
theorem taskFail_handless (task : Tid) (exitcode : ExitCode)
    (s : RunQueueExecute Tid) :
    Handless s (rq.taskFail task exitcode s) ∧
      Advanced s (rq.taskFail task exitcode s) := by
  unfold taskFail
  dsimp only
  split_ifs
  · exact ⟨⟨⟨by simp, rfl, rfl⟩, rfl⟩, { Advanced.refl s with }⟩
  · exact ⟨⟨⟨id, rfl, rfl⟩, rfl⟩, { Advanced.refl s with }⟩

variable (rq) in
theorem taskSkip_handless (task : Tid) (reason : SkipReason)
    (s : RunQueueExecute Tid) : Handless s (rq.taskSkip task reason s) := by
  have handless := rq.taskCompleteoutright_handless task
    (({ s with runqRunning := s.runqRunning.insert task }.setbuildable
      task).fire (.taskSkipped task reason))
  exact { handless with }

private theorem Advanced.taskSkip (separate : rq.Separate s) (task : Tid)
    (reason : SkipReason) : Advanced s (rq.taskSkip task reason s) := by
  have advanced : Advanced s (rq.taskCompleteoutright task
      (({ s with runqRunning := s.runqRunning.insert task }.setbuildable
        task).fire (.taskSkipped task reason))) :=
    .completed separate ⟨_, _, _, _, _, rfl,
      fun _ running => List.mem_insert_iff.mp running⟩
  exact { advanced with }

variable (rq) in
theorem taskComplete_handless (task : Tid)
    (s : RunQueueExecute Tid) : Handless s (rq.taskComplete task s) := by
  have counted : Handless s ({ s with
      stats := s.stats.taskCompleted }.fire (.taskCompleted task)) :=
    ⟨⟨id, rfl, rfl⟩, rfl⟩
  have completed := counted.trans (rq.taskCompleteoutright_handless task _)
  exact { completed with }

private theorem Advanced.taskComplete (separate : rq.Separate s) (task : Tid)
    {marked : RunQueueExecute Tid}
    (marking : ∃ stats events runqRunning, marked = { s with
        stats := stats
        events := events
        runqRunning := runqRunning } ∧
      ∀ tid ∈ runqRunning, tid = task ∨ tid ∈ s.runqRunning) :
    Advanced s (rq.taskComplete task marked) := by
  have advanced : Advanced s (rq.taskCompleteoutright task ({ marked with
      stats := marked.stats.taskCompleted }.fire (.taskCompleted task))) := by
    refine .completed separate ?_
    obtain ⟨_, _, _, rfl, old⟩ := marking
    exact ⟨_, _, _, _, _, rfl, old⟩
  exact { advanced with }

variable (rq) in
/-- What a scheduled task leaves behind: it is handed over or not. -/
structure Dispatched (task : Tid) (s s' : RunQueueExecute Tid) : Prop where
  running : s'.state = .running →
    s.state = .running ∧ rq.Separate s' ∧ rq.HeldOff (fun _ => True) s'
  sqLive : s'.sqLive = s.sqLive
  scenes : handedScenes s'.events = handedScenes s.events
  tasks : handedTasks s'.events = handedTasks s.events ∨
    handedTasks s'.events = task :: handedTasks s.events

private theorem Dispatched.advanced (between : rq.Between live s)
    (handless : Handless s s')
    (advanced : Advanced s s') : rq.Dispatched task s s' where
  running := fun running =>
    ⟨handless.running running, between.toSeparate.advanced advanced,
      (between.held (handless.running running)).advanced advanced⟩
  sqLive := handless.sqLive
  scenes := handless.scenes
  tasks := .inl handless.tasks

private theorem Between.taskStarted (between : rq.Between live s)
    (fresh : s.holdoffNeedUpdate = false)
    (complete : s.runqComplete ⊆ s.runqRunning)
    (scheduled : rq.Scheduled s task)
    (rechecked : Rechecked (s.fire (.taskStarted task false)) checked) :
    rq.Dispatched task s (rq.taskStarted task checked) := by
  have sameState : (rq.taskStarted task checked).state = s.state := by
    obtain ⟨_, _, _, _, _, _, _, rfl⟩ := rechecked
    rfl
  constructor
  · intro running
    rw [sameState] at running
    have held := between.held running
    refine ⟨running, between.toSeparate.taskStarted ?_ rechecked, ?_⟩
    · exact fun scene member undecided =>
        held.not_provides fresh complete scheduled trivial member undecided
    · obtain ⟨_, _, _, _, _, _, _, rfl⟩ := rechecked
      exact held
  all_goals obtain ⟨_, _, _, _, _, _, _, rfl⟩ := rechecked
  · rfl
  · rfl
  · exact .inr rfl

private theorem Between.startTask
    (between : rq.Between live s) (fresh : s.holdoffNeedUpdate = false)
    (complete : s.runqComplete ⊆ s.runqRunning)
    (scheduled : rq.Scheduled s task) :
    (rq.startTask task s).Ends (rq.Dispatched task s) := by
  have checkedAgain : ∀ {checked}, Rechecked s checked →
      Handless s checked ∧ Advanced s checked := fun rechecked =>
    ⟨.of_kept rechecked.neutral rechecked.realKept, .rechecked rechecked⟩
  have cases := rq.startTask_cases task s
  generalize rq.startTask task s = flow at cases ⊢
  cases cases with
  | refused rechecked =>
      obtain ⟨handless, advanced⟩ := checkedAgain rechecked
      obtain ⟨handless', advanced'⟩ :=
        rq.taskFail_handless task .setsceneIgnoreTasks _
      exact .advanced between (handless.trans handless')
        (advanced.trans advanced')
  | @covered checked rechecked =>
      obtain ⟨handless, advanced⟩ := checkedAgain rechecked
      have skipped := rq.taskSkip_handless task .covered checked
      have moved := Advanced.taskSkip
        (between.toSeparate.advanced advanced) task .covered
      exact .advanced between (handless.trans skipped) (advanced.trans moved)
  | @existing checked rechecked =>
      obtain ⟨handless, advanced⟩ := checkedAgain rechecked
      have skipped := handless.trans
        (rq.taskSkip_handless task .existing checked)
      have moved := advanced.trans (Advanced.taskSkip
        (between.toSeparate.advanced advanced) task .existing)
      exact .advanced between { skipped with } { moved with }
  | @noexec checked rechecked =>
      obtain ⟨handless, advanced⟩ := checkedAgain rechecked
      have marked : Handless checked
          (markActive task (checked.fire (.taskStarted task true))) :=
        ⟨⟨id, rfl, rfl⟩, rfl⟩
      have completed := marked.trans (rq.taskComplete_handless task _)
      have moved : Advanced checked (rq.taskComplete task
          (markActive task (checked.fire (.taskStarted task true)))) :=
        .taskComplete (between.toSeparate.advanced advanced) task
          ⟨_, _, _, rfl, fun _ running => List.mem_insert_iff.mp running⟩
      exact .advanced between (handless.trans completed)
        (advanced.trans moved)
  | unstartable rechecked =>
      obtain ⟨_, _, _, _, _, _, _, rfl⟩ := rechecked
      exact ⟨by simp, rfl, rfl, .inr rfl⟩
  | returned rechecked =>
      exact between.taskStarted fresh complete scheduled rechecked
  | goOn rechecked =>
      exact between.taskStarted fresh complete scheduled rechecked

variable (rq) in
/-- A step of which every migration leaves the hard dependencies of the live
setscene tasks decided. -/
def SparesHarddeps (s : RunQueueExecute Tid) : Action Tid → Prop
  | .execute => ∀ live ∈ s.sqLive, ∀ tid ∈ (rq.migrateAll s).updateTasks,
      tid ∉ rq.sqdata.sqHarddepsRev live
  | _ => True

instance (s : RunQueueExecute Tid) (action : Action Tid) :
    Decidable (rq.SparesHarddeps s action) :=
  match action with
  | .execute => inferInstanceAs (Decidable (∀ live ∈ s.sqLive,
      ∀ tid ∈ (rq.migrateAll s).updateTasks,
        tid ∉ rq.sqdata.sqHarddepsRev live))
  | .waitpid _ _ => .isTrue trivial
  | .taskUniHashUpdate _ _ => .isTrue trivial
  | .finish => .isTrue trivial
  | .finishNow => .isTrue trivial

variable (rq) in
/-- What a step hands to a worker does not overlap with what runs. -/
structure Apart (s s' : RunQueueExecute Tid) : Prop where
  scene : ∀ scene, (handedScenes s.events).count scene <
      (handedScenes s'.events).count scene →
    ∀ tid, rq.ProvidesFor scene tid → tid ∈ s'.runqRunning →
      tid ∈ s'.runqComplete
  task : ∀ task, (handedTasks s.events).count task <
      (handedTasks s'.events).count task →
    ∀ scene, rq.ProvidesFor scene task → scene ∉ s'.sqLive

theorem Silent.apart (silent : Silent s s') : rq.Apart s s' where
  scene := by simp [silent.scenes]
  task := by simp [silent.tasks]

theorem HandsScene.apart (hands : HandsScene s s')
    (separate : rq.Separate s') : rq.Apart s s' := by
  refine ⟨?_, by simp [hands.1]⟩
  intro scene handed tid provides running
  rcases hands.2 with same | ⟨task, live, same⟩
  · simp [same] at handed
  · have started : scene = task := by
      by_contra different
      rw [same, List.count_cons_of_ne (Ne.symm different)] at handed
      exact lt_irrefl _ handed
    subst started
    exact separate.idle (separate.scene live) (separate.undecided live)
      provides running

/-- Everything that holds between two steps, as long as the build goes on. -/
def SeparateWhileRunning (rq : Prepared Tid) (s : RunQueueExecute Tid) :
    Prop :=
  s.state = .running → rq.Separate s ∧ rq.HeldOff (fun _ => True) s

theorem Between.whileRunning (between : rq.Between live s) :
    rq.SeparateWhileRunning s :=
  fun running => ⟨between.toSeparate, between.held running⟩

theorem SeparateWhileRunning.advanced (separate : rq.SeparateWhileRunning s)
    (advanced : Advanced s s')
    (running : s'.state = .running → s.state = .running) :
    rq.SeparateWhileRunning s' := by
  intro still
  obtain ⟨separate, held⟩ := separate (running still)
  exact ⟨separate.advanced advanced, held.advanced advanced⟩

variable (rq) in
private theorem executeIdle_advanced (s : RunQueueExecute Tid) :
    Advanced s (rq.executeIdle s) := by
  obtain ⟨_, _, _, same, -, shorter⟩ := rq.executeIdle_cases s
  rw [same]
  refine { Advanced.refl s with sqDeferred := ?_ }
  intro tid _ waiting
  rcases shorter with rfl | rfl
  · exact waiting
  · simp only [Dict.keys, List.map_tail] at waiting
    exact List.mem_of_mem_tail waiting

variable (rq) in
theorem executeIdle_handless (s : RunQueueExecute Tid) :
    Handless s (rq.executeIdle s) := by
  have running := rq.executeIdle_running s
  obtain ⟨_, _, _, same, fired, -⟩ := rq.executeIdle_cases s
  rw [same] at running ⊢
  rcases fired with rfl | rfl
  · exact ⟨⟨running, rfl, rfl⟩, rfl⟩
  · exact ⟨⟨running, rfl, rfl⟩, rfl⟩

private theorem Dispatched.executeIdle (dispatched : rq.Dispatched task s s') :
    rq.Dispatched task s (rq.executeIdle s') := by
  have handless := rq.executeIdle_handless s'
  constructor
  · intro running
    obtain ⟨running, separate, held⟩ :=
      dispatched.running (handless.running running)
    have advanced := rq.executeIdle_advanced s'
    exact ⟨running, separate.advanced advanced, held.advanced advanced⟩
  · exact handless.sqLive.trans dispatched.sqLive
  · exact handless.scenes.trans dispatched.scenes
  · rw [handless.tasks]
    exact dispatched.tasks

private theorem Dispatched.apart {goes : RunQueueExecute Tid}
    (dispatched : rq.Dispatched task goes s') (handless : Handless s goes)
    (spared : ∀ scene ∈ goes.sqLive, ¬ rq.ProvidesFor scene task) :
    rq.Apart s s' := by
  refine ⟨by simp [dispatched.scenes, handless.scenes], ?_⟩
  intro other handed scene provides
  rw [dispatched.sqLive]
  rcases dispatched.tasks with same | same
  · simp [same, handless.tasks] at handed
  · have started : other = task := by
      by_contra different
      rw [same, handless.tasks,
        List.count_cons_of_ne (Ne.symm different)] at handed
      exact lt_irrefl _ handed
    subst started
    exact fun live => spared scene live provides

/-- `execute` keeps setscene tasks and what they provide apart. -/
private theorem execute_apart (ordered : rq.Ordered s)
    (running : s.state = .running) (separate : rq.SeparateWhileRunning s)
    (spares : rq.SparesHarddeps s .execute)
    (executed : rq.execute s = some s') :
    rq.Apart s s' ∧ rq.SeparateWhileRunning s' := by
  have between : rq.Between s.sqLive s := by
    obtain ⟨separate, held⟩ := separate running
    exact ⟨separate, fun fresh _ _ _ => held fresh trivial, fun _ => held⟩
  obtain ⟨returned, goOn⟩ := between.executeNext spares
  obtain ⟨handsReturned, handsGoOn⟩ := rq.executeNext_hands s
  have order := Schedulable.executeNext
    { ordered with announced := ordered.started running }
  unfold Prepared.execute at executed
  split at executed
  · simp at executed
  · rename_i flow
    cases executed
    have kept := returned _ flow
    exact ⟨(handsReturned _ flow).apart kept.toSeparate, kept.whileRunning⟩
  · rename_i goes flow
    cases executed
    have kept := (goOn _ _ flow).1.1.advanced (rq.executeIdle_advanced goes)
      (rq.executeIdle_running goes)
    have hands := (handsGoOn _ _ flow).1.trans (rq.executeIdle_handless goes)
    exact ⟨hands.apart kept.toSeparate, kept.whileRunning⟩
  · rename_i goes task flow
    obtain ⟨⟨between, fresh⟩, scheduled⟩ := goOn _ _ flow
    have scheduled := scheduled task rfl
    have handless := (handsGoOn _ _ flow).2 scheduled.startable
    have complete := (order.2 _ _ flow).1.complete
    have spared : ∀ scene ∈ goes.sqLive, ¬ rq.ProvidesFor scene task := by
      intro scene live
      exact between.heldLive.not_provides fresh complete scheduled
        (handless.sqLive ▸ live) (between.scene live)
        (between.undecided live)
    have started := between.startTask fresh complete scheduled
    split at executed
    · simp at executed
    · rename_i started' flow
      rw [flow] at started
      cases executed
      exact ⟨started.apart handless spared,
        fun running => (started.running running).2⟩
    · rename_i started' flow
      rw [flow] at started
      cases executed
      exact ⟨started.executeIdle.apart handless spared,
        fun running => (started.executeIdle.running running).2⟩

variable (rq) in
theorem waitpid_silent (task : Tid) (status : ℤ) (s : RunQueueExecute Tid) :
    Silent s (rq.runqueueProcessWaitpid task status s) := by
  simp only [runqueueProcessWaitpid]
  split_ifs
  · have silent := RealKept.silent (rq.sqTaskFail_realKept task status { s with
        workers := s.workers.erase task
        buildStamps := s.buildStamps.del task })
    exact { silent with }
  · have silent := RealKept.silent (rq.sqTaskComplete_realKept task { s with
        workers := s.workers.erase task
        buildStamps := s.buildStamps.del task })
    exact { silent with }
  · have silent := (rq.taskFail_handless task (.status status) { s with
        workers := s.workers.erase task
        buildStamps := s.buildStamps.del task }).1.toSilent
    exact { silent with }
  · have silent := (rq.taskComplete_handless task { s with
        workers := s.workers.erase task
        buildStamps := s.buildStamps.del task }).toSilent
    exact { silent with }

/-- The exit code of a live setscene task is read: its hard dependents are not
live, because those only start once it is decided. -/
private theorem waitpid_scene {status : ℤ}
    (separate : rq.Separate s) (live : task ∈ s.sqLive) :
    Advanced s (rq.runqueueProcessWaitpid task status s) := by
  simp only [runqueueProcessWaitpid, if_pos live]
  split_ifs
  · obtain ⟨after, state, same, passed, stale⟩ := rq.sqTaskFail_passed task
      status { s with
        workers := s.workers.erase task
        buildStamps := s.buildStamps.del task }
    have sqLive : after.sqLive = s.sqLive := passed.sqLive
    rw [same]
    refine .failed separate passed stale ?_
      ⟨_, _, _, _, _, rfl, fun _ => id, separate.sqRunning live⟩
      ⟨_, _, _, rfl, ?_, ?_⟩
    · intro other member edge
      have before := (mem_discard.mp member).1
      exact separate.undecided live
        (separate.harddeps (sqLive ▸ before) task edge)
    · exact fun tid member => sqLive ▸ (mem_discard.mp member).1
    · exact fun member => (mem_discard.mp member).2 rfl
  · constructor
    · exact fun tid member => (mem_discard.mp member).1
    · exact fun decided => decided.imp_left List.mem_insert_of_mem
    · rintro other (covered | failed)
      · rcases List.mem_insert_iff.mp covered with rfl | old
        · exact .inr ⟨separate.sqRunning live,
            fun member => (mem_discard.mp member).2 rfl⟩
        · exact .inl (.inl old)
      · exact .inl (.inr failed)
    · exact fun _ => id
    · exact fun _ => id
    · exact (Advanced.refl s).running
    · exact fun _ => id
    · rfl
    · simp [sqTaskComplete, sqTaskCompleteoutright, decisionFuel,
        scenequeueUpdatecounters, countDecision]

private theorem waitpid_task {status : ℤ}
    (separate : rq.Separate s) (real : task ∉ s.sqLive) :
    Advanced s (rq.runqueueProcessWaitpid task status s) := by
  have exited : Advanced s { s with
      workers := s.workers.erase task
      buildStamps := s.buildStamps.del task } :=
    { Advanced.refl s with }
  simp only [runqueueProcessWaitpid, if_neg real]
  split_ifs
  · exact exited.trans (rq.taskFail_handless task (.status status) _).2
  · exact exited.trans (.taskComplete (separate.advanced exited) task
      ⟨_, _, _, rfl, fun _ => .inr⟩)

private theorem SeparateWhileRunning.waitpid {status : ℤ}
    (separate : rq.SeparateWhileRunning s) :
    rq.SeparateWhileRunning (rq.runqueueProcessWaitpid task status s) := by
  intro running
  obtain ⟨separate, held⟩ :=
    separate ((rq.waitpid_silent task status s).running running)
  have advanced : Advanced s (rq.runqueueProcessWaitpid task status s) := by
    by_cases live : task ∈ s.sqLive
    · exact waitpid_scene separate live
    · exact waitpid_task separate live
  exact ⟨separate.advanced advanced, held.advanced advanced⟩

omit [LinearOrder Tid] in
theorem finish_silent (s : RunQueueExecute Tid) :
    Silent s (finish s) ∧ (finish s).state ≠ .running := by
  unfold Prepared.finish
  dsimp only
  split_ifs
  · exact ⟨⟨by simp [RunQueueExecute.fire], rfl, rfl⟩,
      by simp [RunQueueExecute.fire]⟩
  · exact ⟨⟨by simp, rfl, rfl⟩, by simp⟩
  · exact ⟨⟨by simp, rfl, rfl⟩, by simp⟩

omit [LinearOrder Tid] in
theorem finishNow_silent (s : RunQueueExecute Tid) :
    Silent s (finishNow s) ∧ (finishNow s).state ≠ .running := by
  unfold Prepared.finishNow
  split_ifs
  · exact ⟨⟨by simp, rfl, rfl⟩, by simp⟩
  · exact ⟨⟨by simp, rfl, rfl⟩, by simp⟩

theorem step_apart {action : Action Tid} (ordered : rq.Ordered s)
    (separate : rq.SeparateWhileRunning s)
    (spares : rq.SparesHarddeps s action) (step : rq.Step s action s') :
    rq.Apart s s' ∧ rq.SeparateWhileRunning s' := by
  cases step with
  | execute running executed =>
      exact execute_apart ordered running separate spares executed
  | waitpid sent =>
      exact ⟨(rq.waitpid_silent _ _ s).apart, separate.waitpid⟩
  | taskUniHashUpdate =>
      exact ⟨Silent.apart ⟨id, rfl, rfl⟩,
        separate.advanced { Advanced.refl s with } id⟩
  | finish =>
      obtain ⟨silent, stopped⟩ := finish_silent s
      exact ⟨silent.apart, fun running => absurd running stopped⟩
  | finishNow =>
      obtain ⟨silent, stopped⟩ := finishNow_silent s
      exact ⟨silent.apart, fun running => absurd running stopped⟩

theorem SeparateWhileRunning.initial : rq.SeparateWhileRunning rq.initial := by
  have blank : rq.SeparateWhileRunning rq.blank := by
    refine fun _ => ⟨?_, fun fresh => by cases fresh⟩
    constructor <;> simp [Prepared.blank, RunQueueExecute.Decided]
  have initialised : rq.SeparateWhileRunning rq.initialised :=
    blank.advanced (.updateScenequeueData fun tid _ => List.not_mem_nil)
      (rq.updateScenequeueData_realKept _ _).running
  unfold Prepared.initial
  split_ifs
  · obtain ⟨_, _, same⟩ := foldl_setbuildable (fun _ _ => .inr rfl)
      (rq.runtaskentries.filter (rq.depends · = [])) rq.initialised
    rw [same]
    exact initialised.advanced { Advanced.refl rq.initialised with } id
  · exact initialised

variable (rq) in
/-- In runs in which no hard dependency of a live setscene task migrates, no
step hands over a setscene task while a task it provides runs, or a real task
while a setscene task that provides it is live. -/
theorem never_overlap {action : Action Tid}
    (reached : Reachable (· = rq.initial) rq.Step rq.SparesHarddeps s)
    (spares : rq.SparesHarddeps s action) (step : rq.Step s action s') :
    rq.Apart s s' := by
  have held : rq.Ordered s ∧ rq.SeparateWhileRunning s := by
    clear spares step
    induction reached with
    | start started => exact started ▸ ⟨.initial, .initial⟩
    | step _ spares step earlier =>
        obtain ⟨ordered, separate⟩ := earlier
        exact ⟨ordered.step step,
          (step_apart ordered separate spares step).2⟩
  exact (step_apart held.1 held.2 spares step).1

/-- Setscene task 0 depends hard on 1 and 2, and task 0 on 1 in the same recipe.
Task 0 has an old stamp; that of setscene task 1 exists from the question on
that follows its completion, under its first hash.  The setscene variants of 3
and 4 fail; 3 and 4 then report other hashes than expected, so that 1 and 2 are
rehashed. -/
def rehashing : Prepared (Fin 5) :=
  Setup.prepare
    { Setup.plain
        { toTaskGraph := TaskGraph.ofDepends ([0, 1, 2, 3, 4] : List (Fin 5))
            (fun tid => if tid = 0 then [1] else if tid = 1 then [3]
              else if tid = 2 then [4] else [])
            (fun tid => if tid = 0 then 2 else if tid = 1 ∨ tid = 2 then 1
              else 0)
            (by decide)
          runqSetsceneTids := [0, 1, 2, 3, 4]
          targetTids := [0, 2, 3, 4]
          idepends := fun tid => if tid = 0 then [some 1, some 2] else []
          setscene_mem := by decide }
        { World.bare _ with
          mtime := fun n file =>
            if file = "libc.do_package.first".toList then some 1
            else if 15 ≤ n ∧ file = "libc.do_build_setscene.built".toList then
              some 2
            else none
          getUnihashes := fun _ tid =>
            if tid = 0 then "first".toList else "second".toList
          hashvalidate := some fun _ tasks => tasks.map Prod.fst }
        (fun tid => if tid = 0 ∨ tid = 1 then "libc".toList
          else if tid = 2 then "tool".toList
          else if tid = 3 then "headers".toList else "native".toList) with
      numberTasks := 3
      numberTasks_pos := by decide
      taskname := fun tid =>
        if tid = 0 then "do_package".toList else "do_build".toList
      initialHash := fun tid =>
        if tid = 1 then "built".toList else "first".toList
      initialUnihash := fun tid =>
        if tid = 1 then "built".toList else "first".toList }
    (by decide)

theorem never_overlap_rehashing :
    ∃ s s', follow rehashing.perform rehashing.SparesHarddeps
        [.execute, .execute] rehashing.initial = some s ∧
      rehashing.perform s .execute = some s' ∧ rehashing.Apart s s' := by
  have runs : ((follow rehashing.perform rehashing.SparesHarddeps
      [.execute, .execute] rehashing.initial).bind fun s =>
        if rehashing.SparesHarddeps s .execute then
          (rehashing.perform s .execute).map fun s' => (s, s')
        else none).isSome := by
    decide +kernel
  obtain ⟨⟨s, s'⟩, runs⟩ := Option.isSome_iff_exists.mp runs
  obtain ⟨before, followed, runs⟩ := Option.bind_eq_some_iff.mp runs
  split_ifs at runs with spares
  obtain ⟨after, performed, same⟩ := Option.map_eq_some_iff.mp runs
  cases same
  exact ⟨s, s', followed, performed, rehashing.never_overlap
    (.follow (fun s action s' => (rehashing.step_iff_perform s action s').mpr)
      _ (.start rfl) followed) spares
    ((rehashing.step_iff_perform s .execute s').mpr performed)⟩

/-- The old stamp of task 0 is current while setscene task 1 has a stamp, so 0
is not failed with setscene task 2.  Once 1 is rehashed setscene task 0 is
started, 2 is rehashed and fails again, and 0 is failed while it is live. -/
def overlappingActions : List (Action (Fin 5)) :=
  [.execute, .execute, .execute, .waitpid 1 0, .execute, .waitpid 3 1, .execute,
    .taskUniHashUpdate 3 "second".toList, .waitpid 3 0, .waitpid 2 1, .execute,
    .execute, .waitpid 4 1, .execute, .taskUniHashUpdate 4 "second".toList,
    .waitpid 4 0, .execute, .waitpid 2 1, .execute, .execute]

theorem not_never_overlap_rehashing :
    ¬ ∀ s action s', Reachable (· = rehashing.initial) rehashing.Step
      (fun _ _ => True) s → rehashing.Step s action s' →
      rehashing.Apart s s' := by
  intro apart
  have ends : ((follow rehashing.perform (fun _ _ => True)
      overlappingActions rehashing.initial).bind fun s =>
        (rehashing.perform s .execute).map fun s' =>
          (handedTasks s.events, handedTasks s'.events, s'.sqLive)) =
      some ([2, 4, 3], [0, 2, 4, 3], [0]) := by
    decide +kernel
  obtain ⟨s, followed, ends⟩ := Option.bind_eq_some_iff.mp ends
  obtain ⟨s', performed, ends⟩ := Option.map_eq_some_iff.mp ends
  simp only [Prod.mk.injEq] at ends
  obtain ⟨before, after, live⟩ := ends
  have reached : Reachable (· = rehashing.initial) rehashing.Step
      (fun _ _ => True) s :=
    .follow (fun s action s' => (rehashing.step_iff_perform s action s').mpr)
      overlappingActions (.start rfl) followed
  have kept := apart s .execute s' reached
    ((rehashing.step_iff_perform s .execute s').mpr performed)
  refine kept.task 0 ?_ 0 (.inl rfl) ?_
  · rw [before, after]
    decide
  · simp [live]

end Prepared

end Nvbmc.RunQueue
