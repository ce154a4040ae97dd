import Nvbmc.RunQueue.ExecuteCases
import Nvbmc.RunQueue.SceneComplete

/-!
# Why a setscene task is covered

Without hash migrations a setscene task is decided once, and it is covered for
a reason: its setscene variant completed, needed no execution or had a stamp,
or everything that could need it is covered itself.
-/

namespace Nvbmc.RunQueue

variable {Tid : Type} [LinearOrder Tid]

/-- The setscene variant of the task completed, was noexec or had a current
stamp. -/
def SceneProvided (events : List (Event Tid)) (tid : Tid) : Prop :=
  .sceneTaskCompleted tid ∈ events ∨
    ∃ reason, reason ≠ .notNeeded ∧ .sceneTaskSkipped tid reason ∈ events

omit [LinearOrder Tid] in
theorem SceneProvided.mono {events later : List (Event Tid)} {tid : Tid}
    (provided : SceneProvided events tid) (grown : events ⊆ later) :
    SceneProvided later tid :=
  provided.imp (fun completed => grown completed)
    fun ⟨reason, needed, skipped⟩ => ⟨reason, needed, grown skipped⟩

namespace Prepared

variable (rq : Prepared Tid)

/-- The test under which a setscene task is skipped as not needed. -/
def Dispensable (covered : List Tid) (tid : Tid) : Prop :=
  tid ∉ rq.sqdata.unskippable ∧ rq.sqdata.sqRevdeps tid ⊆ covered

/-- A live setscene task is undecided, and its hard dependencies were decided
before it was started. -/
structure LiveScene (s : RunQueueExecute Tid) (tid : Tid) : Prop where
  scene : tid ∈ rq.runqSetsceneTids
  sqRunning : tid ∈ s.sqRunning
  undecided : ¬ s.Decided tid
  hard : ∀ hard ∈ rq.sqdata.sqHarddepsRev tid, s.Decided hard

/-- The invariant of the decisions in a run without hash migrations. -/
structure Decisions (s : RunQueueExecute Tid) : Prop where
  updatedTaskhashQueue : s.updatedTaskhashQueue = []
  pendingMigrations : s.pendingMigrations = []
  scene : ∀ {tid}, s.Decided tid → tid ∈ rq.runqSetsceneTids
  sqRunning : ∀ {tid}, s.Decided tid → tid ∈ s.sqRunning
  live : ∀ {tid}, tid ∈ s.sqLive → rq.LiveScene s tid
  nodup : s.sqLive.Nodup
  deferred : ∀ {tid}, tid ∈ s.sqDeferred.keys →
    tid ∈ rq.runqSetsceneTids ∧ tid ∉ s.sqLive
  once : ∀ {tid}, tid ∈ s.scenequeueCovered → tid ∉ s.scenequeueNotcovered
  reason : ∀ {tid}, tid ∈ s.scenequeueCovered →
    SceneProvided s.events tid ∨ rq.Dispensable s.scenequeueCovered tid

/-- A step that decides nothing. -/
structure Kept (s s' : RunQueueExecute Tid) : Prop where
  updatedTaskhashQueue : s'.updatedTaskhashQueue = s.updatedTaskhashQueue
  pendingMigrations : s'.pendingMigrations = s.pendingMigrations
  scenequeueCovered : s'.scenequeueCovered = s.scenequeueCovered
  scenequeueNotcovered : s'.scenequeueNotcovered = s.scenequeueNotcovered
  sqRunning : s'.sqRunning = s.sqRunning
  sqLive : s'.sqLive = s.sqLive
  sqDeferred : s'.sqDeferred.keys ⊆ s.sqDeferred.keys
  events : s.events ⊆ s'.events

omit [LinearOrder Tid] rq in
theorem Kept.refl (s : RunQueueExecute Tid) : Kept s s where
  updatedTaskhashQueue := rfl
  pendingMigrations := rfl
  scenequeueCovered := rfl
  scenequeueNotcovered := rfl
  sqRunning := rfl
  sqLive := rfl
  sqDeferred := fun _ => id
  events := fun _ => id

/-- The fields of a step that decides `task`, but for the decisions. -/
structure Touched (task : Tid) (s s' : RunQueueExecute Tid) : Prop where
  updatedTaskhashQueue : s'.updatedTaskhashQueue = s.updatedTaskhashQueue
  pendingMigrations : s'.pendingMigrations = s.pendingMigrations
  sqRunning : s.sqRunning ⊆ s'.sqRunning
  running : task ∈ s'.sqRunning
  sqLive : s'.sqLive.Sublist s.sqLive
  ended : task ∉ s'.sqLive
  sqDeferred : s'.sqDeferred.keys ⊆ s.sqDeferred.keys
  events : s.events ⊆ s'.events

namespace Decisions

variable {rq} {s s' : RunQueueExecute Tid} {task : Tid}
  (decisions : rq.Decisions s)
include decisions

theorem kept (kept : Kept s s') : rq.Decisions s' := by
  have same : ∀ {tid}, s'.Decided tid ↔ s.Decided tid := by
    intro tid
    simp only [RunQueueExecute.Decided, kept.scenequeueCovered,
      kept.scenequeueNotcovered]
  constructor
  · rw [kept.updatedTaskhashQueue]
    exact decisions.updatedTaskhashQueue
  · rw [kept.pendingMigrations]
    exact decisions.pendingMigrations
  · exact fun decided => decisions.scene (same.mp decided)
  · intro tid decided
    rw [kept.sqRunning]
    exact decisions.sqRunning (same.mp decided)
  · intro tid live
    rw [kept.sqLive] at live
    have live := decisions.live live
    exact
      { scene := live.scene
        sqRunning := kept.sqRunning ▸ live.sqRunning
        undecided := fun decided => live.undecided (same.mp decided)
        hard := fun hard edge => same.mpr (live.hard hard edge) }
  · rw [kept.sqLive]
    exact decisions.nodup
  · intro tid member
    rw [kept.sqLive]
    exact decisions.deferred (kept.sqDeferred member)
  · rw [kept.scenequeueCovered, kept.scenequeueNotcovered]
    exact decisions.once
  · rw [kept.scenequeueCovered]
    exact fun covered => (decisions.reason covered).imp_left
      fun provided => provided.mono kept.events

/-- What is decided now was decided before, or has run and is not live. -/
theorem touched (touched : Touched task s s')
    (grown : ∀ {tid}, s.Decided tid → s'.Decided tid)
    (newly : ∀ {tid}, s'.Decided tid → s.Decided tid ∨
      tid ∈ rq.runqSetsceneTids ∧ tid ∈ s'.sqRunning ∧ tid ∉ s'.sqLive)
    (once : ∀ {tid}, tid ∈ s'.scenequeueCovered →
      tid ∉ s'.scenequeueNotcovered)
    (reason : ∀ {tid}, tid ∈ s'.scenequeueCovered →
      SceneProvided s'.events tid ∨ rq.Dispensable s'.scenequeueCovered tid) :
    rq.Decisions s' := by
  constructor
  · rw [touched.updatedTaskhashQueue]
    exact decisions.updatedTaskhashQueue
  · rw [touched.pendingMigrations]
    exact decisions.pendingMigrations
  · intro tid decided
    exact (newly decided).elim (fun before => decisions.scene before) (·.1)
  · intro tid decided
    exact (newly decided).elim
      (fun before => touched.sqRunning (decisions.sqRunning before)) (·.2.1)
  · intro tid member
    have live := decisions.live (touched.sqLive.subset member)
    constructor
    · exact live.scene
    · exact touched.sqRunning live.sqRunning
    · intro decided
      rcases newly decided with before | ⟨-, -, idle⟩
      · exact live.undecided before
      · exact idle member
    · exact fun hard edge => grown (live.hard hard edge)
  · exact decisions.nodup.sublist touched.sqLive
  · intro tid member
    obtain ⟨scene, idle⟩ := decisions.deferred (touched.sqDeferred member)
    exact ⟨scene, fun live => idle (touched.sqLive.subset live)⟩
  · exact once
  · exact reason

theorem provided (touched : Touched task s s')
    (scene : task ∈ rq.runqSetsceneTids)
    (unfailed : task ∉ s.scenequeueNotcovered)
    (covered : s'.scenequeueCovered = s.scenequeueCovered.insert task)
    (notcovered : s'.scenequeueNotcovered = s.scenequeueNotcovered)
    (reason : SceneProvided s'.events task ∨
      rq.Dispensable s.scenequeueCovered task) : rq.Decisions s' := by
  have decided : ∀ {tid}, s'.Decided tid ↔ tid = task ∨ s.Decided tid := by
    intro tid
    simp only [RunQueueExecute.Decided, covered, notcovered,
      List.mem_insert_iff, or_assoc]
  have grown : s.scenequeueCovered ⊆ s'.scenequeueCovered := by
    rw [covered]
    exact fun tid member => List.mem_insert_of_mem member
  apply decisions.touched touched
  · exact fun before => decided.mpr (.inr before)
  · intro tid member
    rcases decided.mp member with rfl | before
    · exact .inr ⟨scene, touched.running, touched.ended⟩
    · exact .inl before
  · intro tid member
    rw [notcovered]
    rw [covered] at member
    rcases List.mem_insert_iff.mp member with rfl | before
    · exact unfailed
    · exact decisions.once before
  · intro tid member
    have grownReason : ∀ {tid}, rq.Dispensable s.scenequeueCovered tid →
        rq.Dispensable s'.scenequeueCovered tid :=
      fun dispensable => ⟨dispensable.1,
        fun _ member => grown (dispensable.2 member)⟩
    rw [covered] at member
    rcases List.mem_insert_iff.mp member with rfl | before
    · exact reason.imp_right grownReason
    · exact (decisions.reason before).imp
        (fun provided => provided.mono touched.events) grownReason

theorem failed (touched : Touched task s s')
    (scene : task ∈ rq.runqSetsceneTids) (undecided : ¬ s.Decided task)
    {marked failed : RunQueueExecute Tid}
    (passed : rq.Passed task marked failed)
    (covered : marked.scenequeueCovered = s.scenequeueCovered) (notcovered :
      marked.scenequeueNotcovered = s.scenequeueNotcovered.insert task)
    (rest : ∃ state stats sqLive, s' = { failed with
      state := state, stats := stats, sqLive := sqLive }) :
    rq.Decisions s' := by
  obtain ⟨_, _, _, rfl⟩ := rest
  have recorded : ∀ {tid}, marked.Decided tid ↔
      tid = task ∨ s.Decided tid := by
    intro tid
    simp only [RunQueueExecute.Decided, covered, notcovered,
      List.mem_insert_iff, or_left_comm]
  have sameCovered : failed.scenequeueCovered = s.scenequeueCovered :=
    passed.scenequeueCovered.trans covered
  -- a live task is not failed: its hard dependencies were decided earlier
  have behind : ∀ {tid}, failed.Decided tid → s.Decided tid ∨ tid = task ∨
      rq.FailedBehind task marked failed tid ∧ tid ∉ s.sqLive := by
    rintro tid (old | new)
    · exact .inl (.inl (sameCovered ▸ old))
    · rcases passed.failed new with old | behind
      · rw [notcovered] at old
        rcases List.mem_insert_iff.mp old with same | old
        · exact .inr (.inl same)
        · exact .inl (.inr old)
      · refine .inr (.inr ⟨behind, fun live => ?_⟩)
        obtain ⟨hard, edge, unmet⟩ := behind.behind
        have before := (decisions.live live).hard hard edge
        rcases unmet with rfl | unmet
        · exact undecided before
        · exact unmet (recorded.mpr (.inr before))
  have grown : ∀ {tid}, s.Decided tid → failed.Decided tid :=
    fun before => passed.decided (recorded.mpr (.inr before))
  apply decisions.touched touched grown
  · intro tid decided
    rcases behind decided with before | rfl | ⟨behind, idle⟩
    · exact .inl before
    · exact .inr ⟨scene, touched.running, touched.ended⟩
    · exact .inr ⟨behind.scene, behind.sqRunning, fun live =>
        idle (touched.sqLive.subset live)⟩
  · intro tid member new
    replace member : tid ∈ s.scenequeueCovered := sameCovered ▸ member
    rcases passed.failed new with old | behind
    · rw [notcovered] at old
      rcases List.mem_insert_iff.mp old with rfl | old
      · exact undecided (.inl member)
      · exact decisions.once member old
    · exact behind.undecided (.inl (covered ▸ member))
  · intro tid member
    replace member : tid ∈ s.scenequeueCovered := sameCovered ▸ member
    refine (decisions.reason member).imp
      (fun provided => provided.mono touched.events) fun dispensable => ?_
    exact ⟨dispensable.1, fun _ needed =>
      sameCovered ▸ dispensable.2 needed⟩

theorem sqTaskSkip {reason : SceneSkipReason}
    (scene : task ∈ rq.runqSetsceneTids) (idle : task ∉ s.sqLive)
    (unfailed : task ∉ s.scenequeueNotcovered)
    (needed : reason ≠ .notNeeded ∨ rq.Dispensable s.scenequeueCovered task) :
    rq.Decisions (rq.sqTaskSkip task reason s) := by
  refine decisions.provided ?_ scene unfailed rfl rfl ?_
  · constructor
    · rfl
    · rfl
    · exact fun tid member => List.mem_insert_of_mem member
    · exact List.mem_insert_self
    · exact List.Sublist.refl _
    · exact idle
    · exact fun _ => id
    · exact List.subset_cons_self _ _
  · refine needed.imp_left fun needed => .inr ⟨reason, needed, ?_⟩
    exact List.mem_cons_self

theorem sqTaskFailoutright (scene : task ∈ rq.runqSetsceneTids)
    (idle : task ∉ s.sqRunning) :
    rq.Decisions (rq.sqTaskFailoutright task s) := by
  have passed := (rq.updatecounters_passed task true
    (markFailoutright task s)).1
  have undecided : ¬ s.Decided task :=
    fun decided => idle (decisions.sqRunning decided)
  refine decisions.failed ?_ scene undecided passed rfl rfl ⟨_, _, _, rfl⟩
  constructor
  · exact passed.updatedTaskhashQueue
  · exact passed.pendingMigrations
  · exact fun tid member => passed.sqRunning (List.mem_insert_of_mem member)
  · exact passed.sqRunning List.mem_insert_self
  · rw [Prepared.sqTaskFailoutright, passed.sqLive]
    exact List.Sublist.refl _
  · rw [Prepared.sqTaskFailoutright, passed.sqLive]
    exact fun live => idle (decisions.live live).sqRunning
  · rw [Prepared.sqTaskFailoutright, passed.sqDeferred]
    exact fun _ => id
  · rw [Prepared.sqTaskFailoutright, passed.events]
    exact fun _ => id

end Decisions

/-- `sq_task_fail` passes its decision on and may ask to clean up. -/
theorem sqTaskFail_passed (task : Tid) (result : ℤ)
    (s : RunQueueExecute Tid) : ∃ failed state,
      rq.sqTaskFail task result s = { failed with state := state } ∧
      rq.Passed task { s.fire (.sceneTaskFailed task result) with
        scenequeueNotcovered := s.scenequeueNotcovered.insert task } failed ∧
      failed.holdoffNeedUpdate = true := by
  obtain ⟨passed, -, stale⟩ := rq.updatecounters_passed task true
    { s.fire (.sceneTaskFailed task result) with
      scenequeueNotcovered := s.scenequeueNotcovered.insert task }
  simp only [Prepared.sqTaskFail, sqCheckTaskfail]
  split_ifs
  · exact ⟨_, _, rfl, passed, stale⟩
  · exact ⟨_, _, rfl, passed, stale⟩

end Prepared

end Nvbmc.RunQueue
