import Nvbmc.RunQueue.HardPending

/-!
# Hard setscene dependencies

In a run without hash migrations a setscene task is only handed over once its
hard dependencies are decided.  A failed one has failed the task with it,
unless the task had a stamp, and a skipped one was skipped before the task
could ask for it.
-/

namespace Nvbmc.RunQueue

open Nvbmc.Library

variable {Tid : Type} [LinearOrder Tid]

/-- A step that decides nothing and starts no setscene task. -/
structure Quiet (s s' : RunQueueExecute Tid) : Prop where
  updatedTaskhashQueue : s'.updatedTaskhashQueue = s.updatedTaskhashQueue
  pendingMigrations : s'.pendingMigrations = s.pendingMigrations
  scenequeueCovered : s'.scenequeueCovered = s.scenequeueCovered
  scenequeueNotcovered : s'.scenequeueNotcovered = s.scenequeueNotcovered
  scenequeueNotneeded : s'.scenequeueNotneeded = s.scenequeueNotneeded
  sqRunning : s'.sqRunning = s.sqRunning
  sqLive : s'.sqLive = s.sqLive
  sqHarddepDeferred : s'.sqHarddepDeferred = s.sqHarddepDeferred
  stampfileHash : s'.stampfileHash = s.stampfileHash
  handedScenes : handedScenes s'.events = handedScenes s.events

omit [LinearOrder Tid] in
theorem Quiet.refl (s : RunQueueExecute Tid) : Quiet s s := by
  constructor <;> rfl

/-- The first lines of a decision: `task` joins one of the two sets. -/
structure Marks (task : Tid) (s s' : RunQueueExecute Tid) : Prop where
  updatedTaskhashQueue : s'.updatedTaskhashQueue = s.updatedTaskhashQueue
  pendingMigrations : s'.pendingMigrations = s.pendingMigrations
  decided : ∀ {tid}, s'.Decided tid ↔ tid = task ∨ s.Decided tid
  scenequeueNotneeded : s'.scenequeueNotneeded = s.scenequeueNotneeded
  sqRunning : s.sqRunning ⊆ s'.sqRunning
  running : task ∈ s'.sqRunning
  sqLive : s'.sqLive = s.sqLive
  handedScenes : handedScenes s'.events = handedScenes s.events

section Marks

variable {s : RunQueueExecute Tid} {task : Tid}
  {sqRunning sqBuildable : List Tid} {events : List (Event Tid)}

theorem decided_covered {tid : Tid} :
    (tid ∈ s.scenequeueCovered.insert task ∨ tid ∈ s.scenequeueNotcovered) ↔
      tid = task ∨ s.Decided tid := by
  rw [List.mem_insert_iff, or_assoc]
  rfl

theorem decided_failed {tid : Tid} :
    (tid ∈ s.scenequeueCovered ∨ tid ∈ s.scenequeueNotcovered.insert task) ↔
      tid = task ∨ s.Decided tid := by
  rw [List.mem_insert_iff, or_left_comm]
  rfl

omit [LinearOrder Tid] in
theorem marks_of_decided {covered notcovered : List Tid}
    (decided : ∀ {tid}, (tid ∈ covered ∨ tid ∈ notcovered) ↔
      tid = task ∨ s.Decided tid)
    (grown : s.sqRunning ⊆ sqRunning) (running : task ∈ sqRunning)
    (handed : handedScenes events = handedScenes s.events) :
    Marks task s { s with
      scenequeueCovered := covered
      scenequeueNotcovered := notcovered
      sqRunning := sqRunning
      sqBuildable := sqBuildable
      events := events } where
  updatedTaskhashQueue := rfl
  pendingMigrations := rfl
  decided := decided
  scenequeueNotneeded := rfl
  sqRunning := grown
  running := running
  sqLive := rfl
  handedScenes := handed

end Marks

namespace Prepared

variable (rq : Prepared Tid)

/-- Every setscene task a step hands over has its hard dependencies decided,
none of them failed and none of them skipped as not needed. -/
def HandsReady (s s' : RunQueueExecute Tid) : Prop :=
  ∀ task, (handedScenes s.events).count task <
      (handedScenes s'.events).count task →
    ∀ hard ∈ rq.sqdata.sqHarddepsRev task,
      s.Decided hard ∧ hard ∉ s.scenequeueNotcovered ∧
        hard ∉ s.scenequeueNotneeded

theorem handsReady_of_same {s s' : RunQueueExecute Tid}
    (same : handedScenes s'.events = handedScenes s.events) :
    rq.HandsReady s s' := by
  intro task handed
  rw [same] at handed
  exact absurd handed (lt_irrefl _)

/-- The tasks the next `execute` skips as not needed. -/
def skipsNext (s : RunQueueExecute Tid) : List Tid :=
  match rq.executeScene s with
  | .returned s' => s'.scenequeueNotneeded.filter (· ∉ s.scenequeueNotneeded)
  | _ => []

/-- The setscene task the loop of the next `execute` picks, and the state in
which its stamps are looked at. -/
def picksNext (s : RunQueueExecute Tid) : Option (RunQueueExecute Tid × Tid) :=
  if s.sqdone = false ∧ rq.canStartTask s then
    match rq.sceneLoop rq.runqSetsceneTids.length s with
    | .goOn picked (some task) => some (picked, task)
    | _ => none
  else none

def stampCurrent (s : RunQueueExecute Tid) (task : Tid) : Bool :=
  (rq.checkStamp s task false true).1 ||
    (rq.checkStamp (rq.checkStamp s task false true).2 task true false).1

/-- No undecided task depends hard on a task that `execute` skips as not
needed. -/
def SkipsUnasked (s : RunQueueExecute Tid) : Action Tid → Prop
  | .execute => ∀ hard ∈ rq.skipsNext s,
      ∀ tid ∈ rq.sqdata.sqHarddeps hard, s.Decided tid
  | _ => True

instance (s : RunQueueExecute Tid) (action : Action Tid) :
    Decidable (rq.SkipsUnasked s action) :=
  match action with
  | .execute => inferInstanceAs (Decidable (∀ hard ∈ rq.skipsNext s,
      ∀ tid ∈ rq.sqdata.sqHarddeps hard, s.Decided tid))
  | .waitpid _ _ => .isTrue trivial
  | .taskUniHashUpdate _ _ => .isTrue trivial
  | .finish => .isTrue trivial
  | .finishNow => .isTrue trivial

/-- A stamp that has kept a task from failing with a hard dependency is still
current when the task is picked. -/
def KeepsStamps (s : RunQueueExecute Tid) : Action Tid → Prop
  | .execute => ∀ picked task, rq.picksNext s = some (picked, task) →
      (∃ hard ∈ rq.sqdata.sqHarddepsRev task,
        hard ∈ picked.scenequeueNotcovered) →
      rq.HadStamp picked.stampfileHash task →
      rq.stampCurrent picked task = true
  | _ => True

/-- The invariant of runs without hash migrations; the noexec tasks among
`checked` are decided. -/
structure Guarded (checked : Tid → Prop) (s : RunQueueExecute Tid) :
    Prop where
  updatedTaskhashQueue : s.updatedTaskhashQueue = []
  pendingMigrations : s.pendingMigrations = []
  noexec : ∀ {tid}, checked tid → rq.noexec tid = true → s.Decided tid
  sqRunning : ∀ {tid}, s.Decided tid → tid ∈ s.sqRunning
  live : ∀ {tid}, tid ∈ s.sqLive → tid ∈ s.sqRunning
  pending : rq.HardPending [] [] s
  needless : ∀ {hard}, hard ∈ s.scenequeueNotneeded →
    s.Decided hard ∧ ∀ tid ∈ rq.sqdata.sqHarddeps hard, s.Decided tid
  handed : ∀ {tid}, tid ∈ handedScenes s.events →
    ∀ hard ∈ rq.sqdata.sqHarddepsRev tid,
      s.Decided hard ∧ hard ∉ s.scenequeueNotneeded

namespace Guarded

variable {rq} {checked : Tid → Prop} {s s' marked after : RunQueueExecute Tid}
  {task : Tid} (guarded : rq.Guarded checked s)
include guarded

theorem quiet (quiet : Quiet s s') : rq.Guarded checked s' := by
  have same : ∀ {tid}, s'.Decided tid ↔ s.Decided tid := by
    intro tid
    simp only [RunQueueExecute.Decided, quiet.scenequeueCovered,
      quiet.scenequeueNotcovered]
  constructor
  · rw [quiet.updatedTaskhashQueue]
    exact guarded.updatedTaskhashQueue
  · rw [quiet.pendingMigrations]
    exact guarded.pendingMigrations
  · exact fun inside noexec => same.mpr (guarded.noexec inside noexec)
  · rw [quiet.sqRunning]
    exact fun decided => guarded.sqRunning (same.mp decided)
  · rw [quiet.sqLive, quiet.sqRunning]
    exact guarded.live
  · refine guarded.pending.congr ?_ quiet.scenequeueCovered
      quiet.scenequeueNotcovered quiet.stampfileHash
    rw [quiet.sqHarddepDeferred]
    exact fun _ => id
  · rw [quiet.scenequeueNotneeded]
    exact fun needless => (guarded.needless needless).imp same.mpr
      fun told tid edge => same.mpr (told tid edge)
  · rw [quiet.scenequeueNotneeded, quiet.handedScenes]
    exact fun handed hard edge =>
      (guarded.handed handed hard edge).imp_left same.mpr

theorem decided (marks : Marks task s marked)
    (passed : rq.Passed task marked after)
    (pending : rq.HardPending [] [] after) : rq.Guarded checked after := by
  have grown : ∀ {tid}, s.Decided tid → after.Decided tid := fun old =>
    passed.decided (marks.decided.mpr (.inr old))
  constructor
  · rw [passed.updatedTaskhashQueue, marks.updatedTaskhashQueue]
    exact guarded.updatedTaskhashQueue
  · rw [passed.pendingMigrations, marks.pendingMigrations]
    exact guarded.pendingMigrations
  · exact fun inside noexec => grown (guarded.noexec inside noexec)
  · have before : ∀ {tid}, marked.Decided tid → tid ∈ after.sqRunning := by
      intro tid decided
      apply passed.sqRunning
      rcases marks.decided.mp decided with rfl | old
      · exact marks.running
      · exact marks.sqRunning (guarded.sqRunning old)
    rintro tid (covered | notcovered)
    · rw [passed.scenequeueCovered] at covered
      exact before (.inl covered)
    · rcases passed.failed notcovered with old | behind
      · exact before (.inr old)
      · exact behind.sqRunning
  · rw [passed.sqLive, marks.sqLive]
    exact fun live => passed.sqRunning (marks.sqRunning (guarded.live live))
  · exact pending
  · rw [passed.scenequeueNotneeded, marks.scenequeueNotneeded]
    exact fun needless => (guarded.needless needless).imp grown
      fun told tid edge => grown (told tid edge)
  · rw [passed.scenequeueNotneeded, marks.scenequeueNotneeded, passed.events,
      marks.handedScenes]
    exact fun handed hard edge =>
      (guarded.handed handed hard edge).imp_left grown

/-- `scenequeue_updatecounters` on a task that was just marked as covered. -/
theorem covered (marks : Marks task s marked)
    (deferred : marked.sqHarddepDeferred = s.sqHarddepDeferred)
    (notcovered : marked.scenequeueNotcovered = s.scenequeueNotcovered)
    (stampfileHash : marked.stampfileHash = s.stampfileHash) :
    rq.Guarded checked
      (rq.scenequeueUpdatecounters rq.decisionFuel task false marked) := by
  refine guarded.decided marks (rq.updatecounters_passed ..).1
    (.updatecounters ?_)
  refine guarded.pending.mark deferred marks.decided (fun _ => id) ?_
    stampfileHash
  rw [notcovered]
  exact .inr

/-- `scenequeue_updatecounters` on a task that was just marked as failed. -/
theorem failed (marks : Marks task s marked)
    (deferred : marked.sqHarddepDeferred = s.sqHarddepDeferred)
    (notcovered : marked.scenequeueNotcovered =
      s.scenequeueNotcovered.insert task)
    (stampfileHash : marked.stampfileHash = s.stampfileHash) :
    rq.Guarded checked
      (rq.scenequeueUpdatecounters rq.decisionFuel task true marked) := by
  refine guarded.decided marks (rq.updatecounters_passed ..).1
    (.updatecounters ?_)
  refine guarded.pending.mark deferred marks.decided
    (fun _ => List.mem_cons_of_mem _) ?_ stampfileHash
  rw [notcovered]
  intro tid inside
  rcases List.mem_insert_iff.mp inside with rfl | old
  · exact .inl List.mem_cons_self
  · exact .inr old

theorem sqTaskSkip (task : Tid) (reason : SceneSkipReason) :
    rq.Guarded checked (rq.sqTaskSkip task reason s) :=
  guarded.covered (marks_of_decided decided_covered
    (fun _ => List.mem_insert_of_mem) List.mem_insert_self rfl) rfl rfl rfl

theorem sqTaskFailoutright (task : Tid) :
    rq.Guarded checked (rq.sqTaskFailoutright task s) :=
  guarded.failed (marks_of_decided decided_failed
    (fun _ => List.mem_insert_of_mem) List.mem_insert_self rfl) rfl rfl rfl

theorem sqTaskComplete (running : task ∈ s.sqRunning) :
    rq.Guarded checked (rq.sqTaskComplete task s) :=
  guarded.covered
    (marks_of_decided decided_covered (fun _ => id) running rfl) rfl rfl rfl

theorem sqTaskFail {result : ℤ} (running : task ∈ s.sqRunning) :
    rq.Guarded checked (rq.sqTaskFail task result s) := by
  have failed : rq.Guarded checked
      (rq.scenequeueUpdatecounters rq.decisionFuel task true
        { s.fire (.sceneTaskFailed task result) with
          scenequeueNotcovered := s.scenequeueNotcovered.insert task }) :=
    guarded.failed
      (marks_of_decided decided_failed (fun _ => id) running rfl) rfl rfl rfl
  simp only [Prepared.sqTaskFail, sqCheckTaskfail]
  split_ifs
  · exact failed.quiet { Quiet.refl _ with }
  · exact failed

theorem rechecked (rechecked : Rechecked s s') : rq.Guarded checked s' := by
  obtain ⟨_, _, _, _, _, _, _, rfl⟩ := rechecked
  exact guarded.quiet { Quiet.refl s with }

theorem updateScenequeueData
    (tids : List Tid) : rq.Guarded checked (rq.updateScenequeueData tids s) :=
  rq.updateScenequeueData_induction
    (fun _ _ rechecked guarded => guarded.rechecked rechecked)
    (fun _ tid reason _ _ guarded => guarded.sqTaskSkip tid reason) guarded

theorem setbuildables {visit : RunQueueExecute Tid → Tid → RunQueueExecute Tid}
    (each : ∀ s tid, visit s tid = s ∨ visit s tid = s.setbuildable tid)
    (tids : List Tid) : rq.Guarded checked (tids.foldl visit s) := by
  obtain ⟨_, _, same⟩ := foldl_setbuildable each tids s
  rw [same]
  exact guarded.quiet { Quiet.refl s with }

theorem taskCompleteoutright (task : Tid) :
    rq.Guarded checked (rq.taskCompleteoutright task s) := by
  have marked : rq.Guarded checked
      { s with runqComplete := s.runqComplete.insert task } :=
    guarded.quiet { Quiet.refl s with }
  refine List.foldlRecOn
    (motive := fun acc : RunQueueExecute Tid × Option Tid =>
      rq.Guarded checked acc.1)
    _ _ (marked.setbuildables rq.setbuildableRevdep_each (rq.revdeps task))
    fun acc guarded t _ => ?_
  unfold releaseDeferred
  split_ifs
  · split
    · refine Guarded.updateScenequeueData ?_ [t]
      exact guarded.quiet { Quiet.refl acc.1 with }
    · exact guarded.quiet { Quiet.refl acc.1 with }
  · exact guarded

theorem taskComplete (task : Tid) :
    rq.Guarded checked (rq.taskComplete task s) := by
  have counted : rq.Guarded checked
      ({ s with stats := s.stats.taskCompleted }.fire (.taskCompleted task)) :=
    guarded.quiet { Quiet.refl s with }
  exact (counted.taskCompleteoutright task).quiet { Quiet.refl _ with }

theorem taskFail (task : Tid) (exitcode : ExitCode) :
    rq.Guarded checked (rq.taskFail task exitcode s) := by
  simp only [Prepared.taskFail]
  split_ifs <;> exact guarded.quiet { Quiet.refl s with }

theorem taskSkip (task : Tid) (reason : SkipReason) :
    rq.Guarded checked (rq.taskSkip task reason s) := by
  have marked : rq.Guarded checked
      ({ s with runqRunning := s.runqRunning.insert task }.setbuildable
        task |>.fire (.taskSkipped task reason)) :=
    guarded.quiet { Quiet.refl s with }
  exact (marked.taskCompleteoutright task).quiet { Quiet.refl _ with }

theorem deferHarddeps (unmet : ¬ rq.sqdata.sqHarddepsRev task ⊆
      s.scenequeueCovered ++ s.scenequeueNotcovered) :
    rq.Guarded checked (rq.deferHarddeps task s) := by
  refine { guarded with pending := ⟨?_, guarded.pending.failed⟩ }
  intro tid waiting
  rcases List.mem_insert_iff.mp waiting with rfl | old
  · obtain ⟨hard, edge, undecided⟩ : ∃ hard ∈ rq.sqdata.sqHarddepsRev tid,
        hard ∉ s.scenequeueCovered ++ s.scenequeueNotcovered := by
      simpa [List.subset_def] using unmet
    exact ⟨hard, edge, .inr fun decided =>
      undecided (List.mem_append.mpr decided)⟩
  · exact guarded.pending.deferred old

theorem skipNotNeeded (idle : task ∉ s.sqRunning)
    (unasked : ∀ tid ∈ rq.sqdata.sqHarddeps task, s.Decided tid) :
    rq.Guarded checked (rq.skipNotNeeded task s) := by
  have skipped := guarded.sqTaskSkip task .notNeeded
  have grown : ∀ {tid}, s.Decided tid →
      (rq.sqTaskSkip task .notNeeded s).Decided tid :=
    fun old => old.imp_left List.mem_insert_of_mem
  have unhanded : ∀ {tid}, tid ∈ handedScenes s.events →
      ∀ hard ∈ rq.sqdata.sqHarddepsRev tid, hard ≠ task := by
    rintro tid handed hard edge rfl
    exact idle (guarded.sqRunning (guarded.handed handed hard edge).1)
  refine { skipped with pending := ?_, needless := ?_, handed := ?_ }
  · exact skipped.pending.congr (fun _ => id) rfl rfl rfl
  · intro hard needless
    rcases List.mem_insert_iff.mp needless with rfl | old
    · exact ⟨.inl List.mem_insert_self,
        fun tid edge => grown (unasked tid edge)⟩
    · exact skipped.needless old
  · intro tid handed hard edge
    obtain ⟨decided, needed⟩ := skipped.handed handed hard edge
    refine ⟨decided, fun needless => ?_⟩
    rcases List.mem_insert_iff.mp needless with same | old
    · exact unhanded handed hard edge same
    · exact needed old

theorem sceneStarted (scene : task ∈ rq.runqSetsceneTids)
    (idle : task ∉ s.sqRunning)
    (hard : ∀ hard ∈ rq.sqdata.sqHarddepsRev task, s.Decided hard)
    (rechecked : Rechecked (s.fire (.sceneTaskStarted task)) s') :
    rq.Guarded checked (rq.sceneStarted task s') := by
  obtain ⟨_, _, _, _, _, _, _, rfl⟩ := rechecked
  have running : s.sqRunning ⊆ s.sqRunning.insert task :=
    fun _ => List.mem_insert_of_mem
  refine { guarded with
    sqRunning := fun decided => running (guarded.sqRunning decided)
    live := ?_
    pending := guarded.pending.congr (fun _ => id) rfl rfl rfl
    handed := ?_ }
  · intro tid live
    rcases List.mem_insert_iff.mp live with rfl | old
    · exact List.mem_insert_self
    · exact running (guarded.live old)
  · intro tid handed dep edge
    rcases List.mem_cons.mp handed with rfl | old
    · refine ⟨hard dep edge, fun needless => idle ?_⟩
      exact guarded.sqRunning
        ((guarded.needless needless).2 tid
          (rq.mem_sqHarddeps.mpr ⟨scene, edge⟩))
    · exact guarded.handed old dep edge

theorem startScene_stampCurrent (current : rq.stampCurrent s task = true) :
    (rq.startScene task s).Ends fun s' =>
      rq.Guarded checked s' ∧ handedScenes s'.events = handedScenes s.events
    := by
  have underlying := rq.checkStamp_rechecked s task false true
  have setscene := underlying.trans
    (rq.checkStamp_rechecked (rq.checkStamp s task false true).2 task true
      false)
  have failed : ∀ {after}, Rechecked s after →
      rq.Guarded checked (rq.sqTaskFailoutright task after) ∧
        handedScenes (rq.sqTaskFailoutright task after).events =
          handedScenes s.events := fun rechecked =>
    ⟨(guarded.rechecked rechecked).sqTaskFailoutright task,
      (rechecked.realKept.trans
        (rq.sqTaskFailoutright_realKept task _)).handedScenes⟩
  simp only [stampCurrent, Bool.or_eq_true] at current
  simp only [Prepared.startScene]
  split_ifs with first forced second
  · exact failed underlying
  · exact failed underlying
  · exact ⟨(guarded.rechecked setscene).sqTaskSkip task .stampCurrent,
      (setscene.realKept.trans (rq.sqTaskSkip_realKept task _ _)).handedScenes⟩
  all_goals exact absurd (current.resolve_left first) second

theorem startScene (scene : task ∈ rq.runqSetsceneTids)
    (idle : task ∉ s.sqRunning) (hard : ∀ hard ∈ rq.sqdata.sqHarddepsRev task,
      s.Decided hard ∧ hard ∉ s.scenequeueNotcovered) :
    (rq.startScene task s).Ends fun s' =>
      rq.Guarded checked s' ∧ rq.HandsReady s s' := by
  have started : ∀ {after},
      Rechecked (s.fire (.sceneTaskStarted task)) after →
      rq.Guarded checked (rq.sceneStarted task after) ∧
        rq.HandsReady s (rq.sceneStarted task after) := by
    intro after rechecked
    refine ⟨guarded.sceneStarted scene idle
      (fun dep edge => (hard dep edge).1) rechecked, ?_⟩
    obtain ⟨_, _, _, _, _, _, _, rfl⟩ := rechecked
    intro tid handed dep edge
    have same : tid = task := by
      by_contra different
      refine absurd handed (Nat.not_lt.mpr (Nat.le_of_eq ?_))
      exact List.count_cons_of_ne (Ne.symm different)
    subst same
    refine ⟨(hard dep edge).1, (hard dep edge).2, fun needless => idle ?_⟩
    exact guarded.sqRunning
      ((guarded.needless needless).2 tid (rq.mem_sqHarddeps.mpr ⟨scene, edge⟩))
  have cases := rq.startScene_cases task s
  generalize rq.startScene task s = flow at cases ⊢
  cases cases with
  | failed rechecked =>
      exact ⟨(guarded.rechecked rechecked).sqTaskFailoutright task,
        rq.handsReady_of_same (rechecked.realKept.trans
          (rq.sqTaskFailoutright_realKept task _)).handedScenes⟩
  | skipped rechecked =>
      exact ⟨(guarded.rechecked rechecked).sqTaskSkip task .stampCurrent,
        rq.handsReady_of_same (rechecked.realKept.trans
          (rq.sqTaskSkip_realKept task _ _)).handedScenes⟩
  | raised => trivial
  | returned rechecked => exact started rechecked
  | goOn rechecked => exact started rechecked

omit guarded

theorem executeScene (guarded : rq.Guarded (· ∈ rq.runqSetsceneTids) s)
    (unasked : rq.SkipsUnasked s .execute) (keeps : rq.KeepsStamps s .execute) :
    (rq.executeScene s).Ends fun s' =>
      rq.Guarded (· ∈ rq.runqSetsceneTids) s' ∧ rq.HandsReady s s' := by
  have idle : ∀ {browsed : RunQueueExecute Tid} {task : Tid},
      sceneCandidate browsed task = true → task ∉ browsed.sqRunning := by
    intro browsed task candidate
    simp only [sceneCandidate, decide_eq_true_eq] at candidate
    exact candidate.2.1
  have ends : rq.SceneLoopEnds
      (fun browsed => rq.Guarded (· ∈ rq.runqSetsceneTids) browsed ∧
        Browsed s browsed)
      (rq.sceneLoop rq.runqSetsceneTids.length s) := by
    refine sceneLoop_ends ?_ ?_ ?_ _ ⟨guarded, _, _, _, _, _, rfl⟩
    · exact fun held => ⟨held.1.quiet { Quiet.refl _ with },
        held.2.trans ⟨_, _, _, _, _, rfl⟩⟩
    · exact fun held => ⟨held.1.quiet { Quiet.refl _ with },
        held.2.trans ⟨_, _, _, _, _, rfl⟩⟩
    · exact fun held _ unmet => ⟨held.1.deferHarddeps unmet,
        held.2.trans (rq.deferHarddeps_browsed _ _)⟩
  simp only [SkipsUnasked, skipsNext] at unasked
  simp only [KeepsStamps, picksNext] at keeps
  unfold Prepared.executeScene at unasked ⊢
  split_ifs at unasked keeps ⊢
  · generalize rq.sceneLoop rq.runqSetsceneTids.length s = flow
      at ends unasked keeps ⊢
    cases ends with
    | @notNeeded browsed task held scene candidate =>
        obtain ⟨kept, _, _, _, _, _, rfl⟩ := held
        have idle := idle candidate
        have needed : task ∉ s.scenequeueNotneeded := fun needless =>
          idle (guarded.sqRunning (guarded.needless needless).1)
        refine ⟨kept.skipNotNeeded idle (unasked task ?_),
          rq.handsReady_of_same rfl⟩
        exact List.mem_filter.mpr ⟨List.mem_insert_self, by simpa using needed⟩
    | deferred held =>
        obtain ⟨kept, _, _, _, _, _, rfl⟩ := held
        exact ⟨kept, rq.handsReady_of_same rfl⟩
    | @failed browsed task held =>
        have waitless : rq.Guarded (· ∈ rq.runqSetsceneTids)
            { browsed with sqDeferred := browsed.sqDeferred.del task } :=
          held.1.quiet { Quiet.refl browsed with }
        have same := (rq.sqTaskFailoutright_realKept task
          { browsed with sqDeferred := browsed.sqDeferred.del task }
          ).handedScenes
        obtain ⟨-, _, _, _, _, _, rfl⟩ := held
        exact ⟨waitless.sqTaskFailoutright task, rq.handsReady_of_same same⟩
    | @picked browsed task held scene candidate _ hard =>
        have waitless : rq.Guarded (· ∈ rq.runqSetsceneTids)
            { browsed with sqDeferred := browsed.sqDeferred.del task } :=
          held.1.quiet { Quiet.refl browsed with }
        have idle := idle candidate
        by_cases failed : ∃ hard ∈ rq.sqdata.sqHarddepsRev task,
            hard ∈ browsed.scenequeueNotcovered
        · have undecided : ¬ browsed.Decided task := fun decided =>
            idle (held.1.sqRunning decided)
          have had : rq.HadStamp browsed.stampfileHash task := by
            obtain ⟨hard, edge, failed⟩ := failed
            rcases held.1.pending.failed scene undecided edge failed with
              waiting | noexec | had
            · exact absurd waiting List.not_mem_nil
            · exact absurd (held.1.noexec scene noexec) undecided
            · exact had
          have current := keeps _ task rfl failed had
          have started := waitless.startScene_stampCurrent current
          obtain ⟨-, _, _, _, _, _, rfl⟩ := held
          dsimp only
          generalize rq.startScene task _ = flow at started ⊢
          cases flow with
          | raised => trivial
          | returned _ => exact ⟨started.1, rq.handsReady_of_same started.2⟩
          | goOn _ => exact ⟨started.1, rq.handsReady_of_same started.2⟩
        · have started := waitless.startScene scene idle fun dep edge =>
            ⟨hard dep edge, fun notcovered => failed ⟨dep, edge, notcovered⟩⟩
          obtain ⟨-, _, _, _, _, _, rfl⟩ := held
          exact started
    | none held =>
        obtain ⟨kept, _, _, _, _, _, rfl⟩ := held
        exact ⟨kept, rq.handsReady_of_same rfl⟩
  · exact ⟨guarded, rq.handsReady_of_same rfl⟩

include guarded

theorem updateHoldofftasks : rq.Guarded checked (rq.updateHoldofftasks s) := by
  unfold Prepared.updateHoldofftasks
  split_ifs
  · exact (guarded.setbuildables rq.setbuildableReady_each
      (rq.notcovered s ++ rq.covered s)).quiet { Quiet.refl _ with }
  · exact guarded

theorem executeSceneDone :
    (rq.executeSceneDone s).Ends (rq.Guarded checked) := by
  have cases := rq.executeSceneDone_cases s
  generalize rq.executeSceneDone s = flow at cases ⊢
  cases cases <;> exact guarded.quiet { Quiet.refl s with }

theorem startTask (task : Tid) :
    (rq.startTask task s).Ends fun s' =>
      rq.Guarded checked s' ∧ handedScenes s'.events = handedScenes s.events
    := by
  have fired : ∀ {after noexec},
      Rechecked (s.fire (.taskStarted task noexec)) after →
      rq.Guarded checked after ∧
        handedScenes after.events = handedScenes s.events := by
    rintro after noexec ⟨_, _, _, _, _, _, _, rfl⟩
    exact ⟨guarded.quiet { Quiet.refl s with }, rfl⟩
  have cases := rq.startTask_cases task s
  generalize rq.startTask task s = flow at cases ⊢
  cases cases with
  | refused rechecked =>
      exact ⟨(guarded.rechecked rechecked).taskFail task _,
        (rq.taskFail_handless task _ _).1.scenes.trans
          rechecked.realKept.handedScenes⟩
  | @covered after rechecked =>
      exact ⟨(guarded.rechecked rechecked).taskSkip task .covered,
        (rq.taskSkip_handless task .covered after).scenes.trans
          rechecked.realKept.handedScenes⟩
  | @existing after rechecked =>
      have skipped := (guarded.rechecked rechecked).taskSkip task .existing
      exact ⟨skipped.quiet { Quiet.refl _ with },
        (rq.taskSkip_handless task .existing after).scenes.trans
          rechecked.realKept.handedScenes⟩
  | @noexec after rechecked =>
      have marked : rq.Guarded checked
          (markActive task (after.fire (.taskStarted task true))) :=
        (guarded.rechecked rechecked).quiet { Quiet.refl after with }
      exact ⟨marked.taskComplete task,
        (rq.taskComplete_handless task _).scenes.trans
          rechecked.realKept.handedScenes⟩
  | @unstartable after rechecked =>
      obtain ⟨guarded, same⟩ := fired rechecked
      exact ⟨guarded.quiet { Quiet.refl after with }, same⟩
  | @returned after rechecked =>
      obtain ⟨guarded, same⟩ := fired rechecked
      exact ⟨guarded.quiet { Quiet.refl after with }, same⟩
  | @goOn after rechecked =>
      obtain ⟨guarded, same⟩ := fired rechecked
      exact ⟨guarded.quiet { Quiet.refl after with }, same⟩

theorem executeIdle : rq.Guarded checked (rq.executeIdle s) := by
  have same := (rq.executeIdle_handless s).scenes
  obtain ⟨_, _, _, ends, -, -⟩ := rq.executeIdle_cases s
  rw [ends] at same ⊢
  exact guarded.quiet { Quiet.refl s with handedScenes := same }

omit guarded

theorem executeNext (guarded : rq.Guarded (· ∈ rq.runqSetsceneTids) s)
    (unasked : rq.SkipsUnasked s .execute) (keeps : rq.KeepsStamps s .execute) :
    (rq.executeNext s).Ends fun s' =>
      rq.Guarded (· ∈ rq.runqSetsceneTids) s' ∧ rq.HandsReady s s' := by
  have idle : ¬ (s.updatedTaskhashQueue ≠ [] ∨ s.pendingMigrations ≠ []) := by
    simp [guarded.updatedTaskhashQueue, guarded.pendingMigrations]
  simp only [Prepared.executeNext, if_neg idle]
  have scene := guarded.executeScene unasked keeps
  generalize rq.executeScene s = flow at scene ⊢
  cases flow with
  | raised => trivial
  | returned stopped => exact scene
  | goOn goes _ =>
      have updated := scene.1.updateHoldofftasks
      have done := updated.executeSceneDone
      have sameUpdated := (rq.updateHoldofftasks_handless goes).scenes
      have sameDone := rq.executeSceneDone_handless
        (rq.updateHoldofftasks goes)
      have after : ∀ {s'}, handedScenes s'.events =
          handedScenes goes.events → rq.HandsReady s s' := by
        intro s' same task handed
        rw [same] at handed
        exact scene.2 task handed
      dsimp only
      generalize rq.executeSceneDone (rq.updateHoldofftasks goes) = flow
        at done sameDone ⊢
      cases flow with
      | raised => trivial
      | returned stopped =>
          exact ⟨done, after (sameDone.scenes.trans sameUpdated)⟩
      | goOn settled _ =>
          have same := sameDone.scenes.trans sameUpdated
          dsimp only
          split_ifs
          · exact ⟨done, after same⟩
          · obtain ⟨⟨_, _, next, -⟩, -⟩ := rq.schedNext_cases settled
            refine ⟨?_, ?_⟩
            · rw [next]
              exact done.quiet { Quiet.refl settled with }
            · rw [next]
              exact after same

theorem execute (guarded : rq.Guarded (· ∈ rq.runqSetsceneTids) s)
    (unasked : rq.SkipsUnasked s .execute)
    (keeps : rq.KeepsStamps s .execute) (executed : rq.execute s = some s') :
    rq.Guarded (· ∈ rq.runqSetsceneTids) s' ∧ rq.HandsReady s s' := by
  have next := guarded.executeNext unasked keeps
  have after : ∀ {goes after}, rq.HandsReady s goes →
      handedScenes after.events = handedScenes goes.events →
      rq.HandsReady s after := by
    intro goes after ready same task handed
    rw [same] at handed
    exact ready task handed
  unfold Prepared.execute at executed
  split at executed
  · simp at executed
  · rename_i flow
    rw [flow] at next
    cases executed
    exact next
  · rename_i goes flow
    rw [flow] at next
    cases executed
    exact ⟨next.1.executeIdle,
      after next.2 (rq.executeIdle_handless goes).scenes⟩
  · rename_i goes task flow
    rw [flow] at next
    have started := next.1.startTask task
    split at executed
    · simp at executed
    · rename_i flow
      rw [flow] at started
      cases executed
      exact ⟨started.1, after next.2 started.2⟩
    · rename_i begun flow
      rw [flow] at started
      cases executed
      exact ⟨started.1.executeIdle, after next.2
        ((rq.executeIdle_handless begun).scenes.trans started.2)⟩

theorem waitpid (guarded : rq.Guarded checked s) (task : Tid) (status : ℤ) :
    rq.Guarded checked (rq.runqueueProcessWaitpid task status s) := by
  have exited : rq.Guarded checked { s with
      workers := s.workers.erase task
      buildStamps := s.buildStamps.del task } :=
    guarded.quiet { Quiet.refl s with }
  have ended : ∀ {s : RunQueueExecute Tid} {sqLive stats},
      rq.Guarded checked s → sqLive ⊆ s.sqLive →
      rq.Guarded checked { s with sqLive := sqLive, stats := stats } := by
    intro s sqLive stats guarded fewer
    exact { guarded with
      live := fun live => guarded.live (fewer live)
      pending := guarded.pending.congr (fun _ => id) rfl rfl rfl }
  simp only [runqueueProcessWaitpid]
  split_ifs with live failed failed
  · exact ended (exited.sqTaskFail (guarded.live live))
      (List.filter_subset_self _)
  · exact ended (exited.sqTaskComplete (guarded.live live))
      (List.filter_subset_self _)
  · exact exited.taskFail task _
  · exact exited.taskComplete task

theorem step {action : Action Tid}
    (guarded : rq.Guarded (· ∈ rq.runqSetsceneTids) s)
    (migrates : ¬ action.Migrates) (unasked : rq.SkipsUnasked s action)
    (keeps : rq.KeepsStamps s action) (step : rq.Step s action s') :
    rq.Guarded (· ∈ rq.runqSetsceneTids) s' ∧ rq.HandsReady s s' := by
  cases step with
  | execute _ executed => exact guarded.execute unasked keeps executed
  | waitpid =>
      exact ⟨guarded.waitpid _ _,
        rq.handsReady_of_same (rq.waitpid_silent _ _ s).scenes⟩
  | taskUniHashUpdate => exact absurd trivial migrates
  | finish =>
      refine ⟨?_, rq.handsReady_of_same (finish_silent s).1.scenes⟩
      unfold Prepared.finish
      dsimp only
      split_ifs <;> exact guarded.quiet { Quiet.refl s with }
  | finishNow =>
      refine ⟨?_, rq.handsReady_of_same (finishNow_silent s).1.scenes⟩
      unfold Prepared.finishNow
      split_ifs <;> exact guarded.quiet { Quiet.refl s with }

theorem blank : rq.Guarded (fun _ => False) rq.blank where
  updatedTaskhashQueue := rfl
  pendingMigrations := rfl
  noexec := False.elim
  sqRunning := by simp [Prepared.blank, RunQueueExecute.Decided]
  live := by simp [Prepared.blank]
  pending := ⟨by simp [Prepared.blank], by simp [Prepared.blank]⟩
  needless := by simp [Prepared.blank]
  handed := by simp [Prepared.blank, handedScenes]

end Guarded

theorem updateStamps_decided {acc : RunQueueExecute Tid × List Tid}
    {tid : Tid} (other : Tid) (decided : acc.1.Decided tid) :
    (rq.updateStamps acc other).1.Decided tid := by
  obtain ⟨checked, rechecked, same | ⟨reason, -, -, same⟩⟩ :=
    rq.updateStamps_cases acc other
  all_goals
    obtain ⟨_, _, _, _, _, _, _, rfl⟩ := rechecked
    rw [same]
  · exact decided
  · exact decided.imp_left List.mem_insert_of_mem

theorem updateStamps_noexec (acc : RunQueueExecute Tid × List Tid)
    {tid : Tid} (noexec : rq.noexec tid = true) :
    (rq.updateStamps acc tid).1.Decided tid := by
  simp only [updateStamps, Setup.checkSetsceneStamps, if_pos noexec]
  exact .inl List.mem_insert_self

/-- `update_scenequeue_data` decides every task that needs no execution. -/
theorem updateScenequeueData_noexec {tids : List Tid} {tid : Tid}
    (s : RunQueueExecute Tid) (member : tid ∈ tids)
    (noexec : rq.noexec tid = true) :
    (rq.updateScenequeueData tids s).Decided tid := by
  have looped : ∀ (tids : List Tid) (acc : RunQueueExecute Tid × List Tid),
      acc.1.Decided tid ∨ tid ∈ tids →
      (tids.foldl rq.updateStamps acc).1.Decided tid := by
    intro tids
    induction tids with
    | nil => exact fun acc held => held.resolve_right List.not_mem_nil
    | cons head rest induction =>
        intro acc held
        apply induction
        rcases held with decided | inside
        · exact .inl (rq.updateStamps_decided head decided)
        · rcases List.mem_cons.mp inside with rfl | inside
          · exact .inl (rq.updateStamps_noexec acc noexec)
          · exact .inr inside
  have decided := looped (sorted tids) (s, []) (.inr (mem_sorted.mpr member))
  obtain ⟨_, _, _, _, _, _, _, same⟩ := rq.updateScenequeueData_rechecked tids s
  rw [same]
  exact decided

theorem Guarded.initial : rq.Guarded (· ∈ rq.runqSetsceneTids) rq.initial := by
  have initialised : rq.Guarded (· ∈ rq.runqSetsceneTids) rq.initialised := by
    refine { Guarded.updateScenequeueData .blank rq.sceneKeys with
      noexec := ?_ }
    intro tid scene noexec
    refine rq.updateScenequeueData_noexec _ ?_ noexec
    exact List.mem_filter.mpr ⟨rq.setscene_mem scene, by simpa using scene⟩
  unfold Prepared.initial
  split_ifs
  · exact (initialised.setbuildables (fun _ _ => .inr rfl) _).quiet
      { Quiet.refl _ with }
  · exact initialised

/-- A step without a hash migration that skips no hard dependency before it is
asked for and loses no stamp. -/
structure RespectsHarddeps (s : RunQueueExecute Tid) (action : Action Tid) :
    Prop where
  migrates : ¬ action.Migrates
  unasked : rq.SkipsUnasked s action
  keeps : rq.KeepsStamps s action

/-- What hard setscene dependencies are for, in one state and in every allowed
step out of it. -/
structure HarddepsRespected (allowed : RunQueueExecute Tid → Action Tid → Prop)
    (s : RunQueueExecute Tid) : Prop where
  handed : ∀ action s', allowed s action → rq.Step s action s' →
    rq.HandsReady s s'
  needed : ∀ task ∈ handedScenes s.events,
    ∀ hard ∈ rq.sqdata.sqHarddepsRev task, hard ∉ s.scenequeueNotneeded
  deferred : ∀ task ∈ s.sqHarddepDeferred,
    ¬ ∀ hard ∈ rq.sqdata.sqHarddepsRev task, s.Decided hard

/-- In runs without hash migrations in which no hard dependency is skipped
before it is asked for and no stamp is lost, a setscene task is handed over
behind its hard dependencies, and waits for them no longer than it must. -/
theorem harddeps_respected {s : RunQueueExecute Tid}
    (reached : Reachable (· = rq.initial) rq.Step rq.RespectsHarddeps s) :
    rq.HarddepsRespected rq.RespectsHarddeps s := by
  have guarded : rq.Guarded (· ∈ rq.runqSetsceneTids) s := by
    refine reached.invariant ?_ fun s action s' guarded respects step =>
      (guarded.step respects.migrates respects.unasked respects.keeps step).1
    rintro _ rfl
    exact .initial rq
  constructor
  · exact fun action s' respects step => (guarded.step respects.migrates
      respects.unasked respects.keeps step).2
  · exact fun task handed hard edge => (guarded.handed handed hard edge).2
  · intro task waiting decided
    obtain ⟨hard, edge, unmet⟩ := guarded.pending.deferred waiting
    exact unmet.elim List.not_mem_nil fun undecided =>
      undecided (decided hard edge)

/-- Setscene task 2, which covers task 3, depends hard on setscene task 1, which
otherwise only the covered task 0 could need.  There are no stamps and two
threads. -/
def packaging : Prepared (Fin 4) :=
  Setup.prepare
    (.plain
      { toTaskGraph := .ofDepends [0, 1, 2, 3]
          (fun tid => if tid = 0 then [1] else if tid = 2 then [3] else [])
          (fun tid => 3 - tid.val) (by decide)
        runqSetsceneTids := [0, 1, 2]
        targetTids := [0, 2]
        idepends := fun tid => if tid = 2 then [some 1] else []
        setscene_mem := by decide }
      { World.bare _ with
        hashvalidate := some fun _ tasks => tasks.map Prod.fst
        depvalidate := some fun _ _ _ _ => true }
      fun tid => if tid = 0 then "image".toList
        else if tid = 1 then "fakeroot".toList
        else if tid = 2 then "package".toList else "headers".toList)
    (by decide)

theorem packaging_keepsStamps (s : RunQueueExecute (Fin 4))
    (action : Action (Fin 4)) : packaging.KeepsStamps s action := by
  cases action with
  | execute =>
      rintro picked task - - ⟨_, _, _, _, current⟩
      cases current
  | _ => trivial

/-- Task 2 asks for 1 before 1 could be skipped. -/
theorem harddeps_respected_packaging :
    ∃ s, follow packaging.perform
        (fun s action => ¬ action.Migrates ∧ packaging.SkipsUnasked s action)
        [.execute, .execute, .waitpid 0 0, .execute, .waitpid 1 0, .execute]
        packaging.initial = some s ∧
      packaging.HarddepsRespected packaging.RespectsHarddeps s := by
  have runs : (follow packaging.perform
      (fun s action => ¬ action.Migrates ∧ packaging.SkipsUnasked s action)
      [.execute, .execute, .waitpid 0 0, .execute, .waitpid 1 0, .execute]
      packaging.initial).isSome := by
    decide
  obtain ⟨s, followed⟩ := Option.isSome_iff_exists.mp runs
  refine ⟨s, followed, packaging.harddeps_respected ?_⟩
  have reached : Reachable (· = packaging.initial) packaging.Step
      (fun s action => ¬ action.Migrates ∧ packaging.SkipsUnasked s action)
      s :=
    .follow (fun s action s' => (packaging.step_iff_perform s action s').mpr)
      _ (.start rfl) followed
  exact reached.mono fun s action ⟨migrates, unasked⟩ =>
    ⟨migrates, unasked, packaging_keepsStamps s action⟩

def singleThreaded : Prepared (Fin 4) :=
  { packaging with
    numberTasks := 1
    numberTasks_pos := Nat.one_pos }

/-- Setscene task 0 completes, 1 is skipped as not needed and then 2, which
depends hard on it, is started. -/
theorem not_harddeps_respected_singleThreaded :
    ¬ ∀ s, Reachable (· = singleThreaded.initial) singleThreaded.Step
      (fun _ action => ¬ action.Migrates) s →
      singleThreaded.HarddepsRespected (fun _ action => ¬ action.Migrates) s
    := by
  intro respected
  have ends : (follow singleThreaded.perform
      (fun _ action => ¬ action.Migrates)
      [.execute, .waitpid 0 0, .execute, .execute]
      singleThreaded.initial).map
        (fun s => (handedScenes s.events, s.scenequeueNotneeded)) =
      some ([2, 0], [1]) := by
    decide
  obtain ⟨s, followed, ends⟩ := Option.map_eq_some_iff.mp ends
  simp only [Prod.mk.injEq] at ends
  obtain ⟨handed, skipped⟩ := ends
  have reached : Reachable (· = singleThreaded.initial) singleThreaded.Step
      (fun _ action => ¬ action.Migrates) s :=
    .follow (fun s action s' =>
      (singleThreaded.step_iff_perform s action s').mpr) _ (.start rfl)
      followed
  have needed := (respected s reached).needed 2 (by simp [handed]) 1
    (by decide)
  simp [skipped] at needed

end Prepared

end Nvbmc.RunQueue
