import Nvbmc.RunQueue.Execute
import Nvbmc.RunQueue.SceneGrowth

/-!
# The scene queue decides every task

Whatever the order of decisions, once every setscene task is decided each task
has been processed and is either covered or not covered.  Three closures meet
in the proof: the unskippable tasks, the tasks a setscene task covers and the
waves of `tasks_scenequeue_done`.
-/

namespace Nvbmc.RunQueue

namespace Prepared

variable {Tid : Type} [LinearOrder Tid] (rq : Prepared Tid)

/-- A task outside the setscene tasks is unskippable or covered by a setscene
task. -/
theorem unskippable_or_source {tid : Tid} (entry : tid ∈ rq.runtaskentries)
    (normal : tid ∉ rq.runqSetsceneTids) :
    rq.Unskippable tid ∨ ∃ source, rq.Source source tid := by
  induction tid using rq.wellFounded_revdeps.induction with
  | _ tid induction =>
      by_cases root : rq.revdeps tid = []
      · left
        refine .start (List.mem_union_iff.mpr (.inl ?_))
        simp [entry, root]
      · obtain ⟨revdep, member⟩ := List.exists_mem_of_ne_nil _ root
        have edge : tid ∈ rq.depends revdep := rq.mem_revdeps.mp member
        by_cases scene : revdep ∈ rq.runqSetsceneTids
        · exact .inr ⟨revdep, scene, .single edge⟩
        · rcases induction revdep edge (rq.depends_mem edge).1 scene with
            unskippable | ⟨source, reached⟩
          · exact .inl (.step unskippable scene edge)
          · exact .inr ⟨source, reached.step scene edge⟩

theorem mem_sqCoveredTasks {source tid : Tid}
    (scene : source ∈ rq.runqSetsceneTids) :
    tid ∈ rq.sqdata.sqCoveredTasks source ↔
      tid ∉ rq.runqSetsceneTids ∧ rq.Source source tid :=
  rq.builtFrom.sqCoveredTasks scene tid

theorem mem_unskippable {tid : Tid} :
    tid ∈ rq.sqdata.unskippable ↔ rq.Unskippable tid :=
  rq.builtFrom.unskippable

structure SceneInvariant (s : RunQueueExecute Tid) : Prop where
  decided : ∀ tid, s.Decided tid → tid ∈ s.tasksScenequeueDone
  unskippable : ∀ tid, rq.Unskippable tid → tid ∉ rq.runqSetsceneTids →
    tid ∈ s.tasksScenequeueDone
  closed : rq.DoneClosed s.tasksScenequeueDone
  fresh : s.holdoffNeedUpdate = false →
    s.tasksCovered = rq.covered s ∧ s.tasksNotcovered = rq.notcovered s ∧
      (rq.undecided s = [] → s.holdoffTasks = [])

namespace SceneInvariant

variable {rq} {s s' : RunQueueExecute Tid}

/-- A decision on `task` that was recorded as `marked` keeps the invariant. -/
theorem passed {task : Tid} {marked : RunQueueExecute Tid}
    (invariant : rq.SceneInvariant s)
    (growth : rq.Passed task marked s' ∧ task ∈ s'.tasksScenequeueDone ∧
      s'.holdoffNeedUpdate = true)
    (same : marked.tasksScenequeueDone = s.tasksScenequeueDone)
    (recorded : ∀ tid, marked.Decided tid → s.Decided tid ∨ tid = task) :
    rq.SceneInvariant s' := by
  obtain ⟨growth, done, update⟩ := growth
  have old : ∀ tid, marked.Decided tid → tid ∈ s'.tasksScenequeueDone := by
    intro tid decided
    rcases recorded tid decided with before | rfl
    · exact growth.tasksScenequeueDone (same ▸ invariant.decided tid before)
    · exact done
  exact
    { decided := by
        rintro tid (covered | notcovered)
        · exact old tid (.inl (growth.scenequeueCovered ▸ covered))
        · rcases growth.failed notcovered with before | behind
          · exact old tid (.inr before)
          · exact behind.tasksScenequeueDone
      unskippable := fun tid unskippable normal =>
        growth.tasksScenequeueDone
          (same ▸ invariant.unskippable tid unskippable normal)
      closed := growth.doneClosed (same ▸ invariant.closed)
      fresh := fun stale => by simp [update] at stale }

variable (task : Tid) (invariant : rq.SceneInvariant s)
include invariant

theorem sqTaskCompleteoutright :
    rq.SceneInvariant (rq.sqTaskCompleteoutright task s) := by
  refine invariant.passed (rq.updatecounters_passed task false _) rfl ?_
  rintro tid (covered | notcovered)
  · rcases List.mem_insert_iff.mp covered with same | old
    · exact .inr same
    · exact .inl (.inl old)
  · exact .inl (.inr notcovered)

theorem sqTaskFailoutright :
    rq.SceneInvariant (rq.sqTaskFailoutright task s) := by
  refine invariant.passed (rq.updatecounters_passed task true _) rfl ?_
  rintro tid (covered | notcovered)
  · exact .inl (.inl covered)
  · rcases List.mem_insert_iff.mp notcovered with same | old
    · exact .inr same
    · exact .inl (.inr old)

theorem congr (covered : s'.scenequeueCovered = s.scenequeueCovered)
    (notcovered : s'.scenequeueNotcovered = s.scenequeueNotcovered)
    (done : s'.tasksScenequeueDone = s.tasksScenequeueDone)
    (update : s'.holdoffNeedUpdate = s.holdoffNeedUpdate)
    (tasksCovered : s'.tasksCovered = s.tasksCovered)
    (tasksNotcovered : s'.tasksNotcovered = s.tasksNotcovered)
    (holdoffTasks : s'.holdoffTasks = s.holdoffTasks) :
    rq.SceneInvariant s' where
  decided := by
    simp only [RunQueueExecute.Decided, covered, notcovered, done]
    exact invariant.decided
  unskippable := done ▸ invariant.unskippable
  closed := done ▸ invariant.closed
  fresh := by
    simp only [Prepared.covered, Prepared.notcovered, rawNotcovered,
      Prepared.undecided, RunQueueExecute.Decided, covered, notcovered, done,
      update, tasksCovered, tasksNotcovered, holdoffTasks]
    exact invariant.fresh

theorem sqTaskFail (result : ℤ) :
    rq.SceneInvariant (rq.sqTaskFail task result s) := by
  have failed : rq.SceneInvariant
      (rq.scenequeueUpdatecounters rq.decisionFuel task true
        { s.fire (.sceneTaskFailed task result) with
          scenequeueNotcovered := s.scenequeueNotcovered.insert task }) := by
    refine invariant.passed (rq.updatecounters_passed task true _) rfl ?_
    rintro tid (covered | notcovered)
    · exact .inl (.inl covered)
    · rcases List.mem_insert_iff.mp notcovered with same | old
      · exact .inr same
      · exact .inl (.inr old)
  simp only [Prepared.sqTaskFail, sqCheckTaskfail]
  split_ifs
  · exact failed.congr rfl rfl rfl rfl rfl rfl rfl
  · exact failed

theorem sqTaskComplete : rq.SceneInvariant (rq.sqTaskComplete task s) := by
  have fired : rq.SceneInvariant (s.fire (.sceneTaskCompleted task)) :=
    invariant.congr rfl rfl rfl rfl rfl rfl rfl
  exact fired.sqTaskCompleteoutright task

theorem sqTaskSkip (reason : SceneSkipReason) :
    rq.SceneInvariant (rq.sqTaskSkip task reason s) := by
  have marked : rq.SceneInvariant
      { s.fire (.sceneTaskSkipped task reason) with
        sqRunning := s.sqRunning.insert task
        sqBuildable := s.sqBuildable.insert task } :=
    invariant.congr rfl rfl rfl rfl rfl rfl rfl
  exact marked.sqTaskCompleteoutright task

end SceneInvariant

/-- What `update_holdofftasks` recomputes. -/
theorem updateHoldofftasks_eq (s : RunQueueExecute Tid)
    (stale : s.holdoffNeedUpdate = true) :
    ∃ runqBuildable schedBuildable, rq.updateHoldofftasks s =
        { s with
          runqBuildable := runqBuildable
          schedBuildable := schedBuildable
          tasksCovered := rq.covered s
          tasksNotcovered := rq.notcovered s
          holdoffTasks := rq.holdoff s
          holdoffNeedUpdate := false } := by
  obtain ⟨runqBuildable, schedBuildable, same⟩ :=
    foldl_setbuildable rq.setbuildableReady_each
      (rq.notcovered s ++ rq.covered s) s
  refine ⟨runqBuildable, schedBuildable, ?_⟩
  rw [updateHoldofftasks, if_pos stale, same]

variable {s : RunQueueExecute Tid}

theorem SceneInvariant.updateHoldofftasks {rq : Prepared Tid}
    (invariant : rq.SceneInvariant s) :
    rq.SceneInvariant (rq.updateHoldofftasks s) := by
  by_cases stale : s.holdoffNeedUpdate = true
  · obtain ⟨runqBuildable, schedBuildable, same⟩ :=
      rq.updateHoldofftasks_eq s stale
    rw [same]
    exact
      { decided := invariant.decided
        unskippable := invariant.unskippable
        closed := invariant.closed
        fresh := fun _ => ⟨rfl, rfl, fun none => by
          have noneLeft : rq.undecided s = [] := none
          simp [holdoff, noneLeft]⟩ }
  · rw [Prepared.updateHoldofftasks, if_neg stale]
    exact invariant

theorem updateHoldofftasks_fresh (s : RunQueueExecute Tid) :
    (rq.updateHoldofftasks s).holdoffNeedUpdate = false := by
  by_cases stale : s.holdoffNeedUpdate = true
  · obtain ⟨_, _, same⟩ := rq.updateHoldofftasks_eq s stale
    rw [same]
  · rw [updateHoldofftasks, if_neg stale]
    simpa using stale

namespace SceneInvariant

variable {rq} {s : RunQueueExecute Tid}

theorem all_done (invariant : rq.SceneInvariant s)
    (decided : ∀ tid ∈ rq.runqSetsceneTids, s.Decided tid) {tid : Tid}
    (entry : tid ∈ rq.runtaskentries) : tid ∈ s.tasksScenequeueDone := by
  induction tid using rq.wellFounded_revdeps.induction with
  | _ tid induction =>
      by_cases scene : tid ∈ rq.runqSetsceneTids
      · exact invariant.decided tid (decided tid scene)
      · by_cases root : rq.revdeps tid = []
        · refine invariant.unskippable tid (.start ?_) scene
          exact List.mem_union_iff.mpr (.inl (by simp [entry, root]))
        · refine invariant.closed tid scene root fun revdep member => ?_
          have edge := rq.mem_revdeps.mp member
          exact induction revdep edge (rq.depends_mem edge).1

/-- When every setscene task is decided, a task that is not covered is in
`notcovered`. -/
theorem covered_or_notcovered (invariant : rq.SceneInvariant s)
    (decided : ∀ tid ∈ rq.runqSetsceneTids, s.Decided tid) {tid : Tid}
    (entry : tid ∈ rq.runtaskentries) :
    tid ∈ rq.covered s ∨ tid ∈ rq.notcovered s := by
  have done := invariant.all_done decided entry
  by_cases uncovered : tid ∈ rq.notcovered s
  · exact .inr uncovered
  left
  have raw : tid ∉ rq.rawNotcovered s := by
    intro member
    exact uncovered (List.mem_filter.mpr ⟨member, decide_eq_true done⟩)
  simp only [rawNotcovered, List.mem_append, List.mem_flatMap,
    List.mem_filter, decide_eq_true_eq, not_or, not_exists, not_and] at raw
  obtain ⟨⟨⟨undecided, _⟩, failed⟩, skippable⟩ := raw
  refine List.mem_filter.mpr ⟨?_, by simp [uncovered, done]⟩
  by_cases scene : tid ∈ rq.runqSetsceneTids
  · exact List.mem_append_left _ ((decided tid scene).resolve_right undecided)
  · rcases rq.unskippable_or_source entry scene with
      unskippable | ⟨source, reached⟩
    · exact absurd scene (skippable (rq.mem_unskippable.mpr unskippable))
    · have covers := (rq.mem_sqCoveredTasks reached.1).mpr ⟨scene, reached⟩
      have covered := (decided source reached.1).resolve_right
        fun notcovered => failed source notcovered covers
      exact List.mem_append_right _
        (List.mem_flatMap.mpr ⟨source, covered, covers⟩)

end SceneInvariant

/-- One decision about a setscene task, or an update of the derived sets. -/
inductive Decides : RunQueueExecute Tid → RunQueueExecute Tid → Prop where
  | complete {s : RunQueueExecute Tid} {task : Tid} :
      task ∈ rq.runqSetsceneTids → Decides s (rq.sqTaskComplete task s)
  | completeoutright {s : RunQueueExecute Tid} {task : Tid} :
      task ∈ rq.runqSetsceneTids → Decides s (rq.sqTaskCompleteoutright task s)
  | skip {s : RunQueueExecute Tid} {task : Tid} {reason : SceneSkipReason} :
      task ∈ rq.runqSetsceneTids → Decides s (rq.sqTaskSkip task reason s)
  | fail {s : RunQueueExecute Tid} {task : Tid} {result : ℤ} :
      task ∈ rq.runqSetsceneTids → Decides s (rq.sqTaskFail task result s)
  | failoutright {s : RunQueueExecute Tid} {task : Tid} :
      task ∈ rq.runqSetsceneTids → Decides s (rq.sqTaskFailoutright task s)
  | updateHoldofftasks {s : RunQueueExecute Tid} :
      Decides s (rq.updateHoldofftasks s)

theorem SceneInvariant.updateScenequeueData {rq : Prepared Tid}
    (invariant : rq.SceneInvariant s)
    (tids : List Tid) : rq.SceneInvariant (rq.updateScenequeueData tids s) :=
  rq.updateScenequeueData_induction
    (fun _ _ ⟨_, _, _, _, _, _, _, same⟩ kept =>
      same ▸ kept.congr rfl rfl rfl rfl rfl rfl rfl)
    (fun _ tid reason _ _ kept => kept.sqTaskSkip tid reason) invariant

theorem SceneInvariant.blank : rq.SceneInvariant rq.blank where
  decided := by simp [RunQueueExecute.Decided, Prepared.blank]
  unskippable := fun _ unskippable normal =>
    rq.builtFrom.tasksScenequeueDone.mpr ⟨unskippable, normal⟩
  closed := by
    intro tid normal above below
    obtain ⟨revdep, member⟩ := List.exists_mem_of_ne_nil _ above
    obtain ⟨unskippable, revdepNormal⟩ :=
      rq.builtFrom.tasksScenequeueDone.mp (below member)
    exact rq.builtFrom.tasksScenequeueDone.mpr
      ⟨.step unskippable revdepNormal (rq.mem_revdeps.mp member), normal⟩
  fresh := nofun

private theorem initialised_stale :
    rq.initialised.holdoffNeedUpdate = true :=
  rq.updateScenequeueData_induction
    (motive := fun s => s.holdoffNeedUpdate = true)
    (fun _ _ ⟨_, _, _, _, _, _, _, same⟩ stale => same ▸ stale)
    (fun _ tid _ _ _ _ => (rq.updatecounters_passed tid false _).2.2) rfl

theorem SceneInvariant.initial : rq.SceneInvariant rq.initial := by
  have initialised : rq.SceneInvariant rq.initialised :=
    (SceneInvariant.blank rq).updateScenequeueData _
  unfold Prepared.initial
  split_ifs
  · obtain ⟨runqBuildable, schedBuildable, same⟩ :=
      foldl_setbuildable (fun _ _ => .inr rfl)
        (rq.runtaskentries.filter (rq.depends · = [])) rq.initialised
    rw [same]
    exact
      { decided := initialised.decided
        unskippable := initialised.unskippable
        closed := initialised.closed
        fresh := by
          intro fresh
          simp [rq.initialised_stale] at fresh }
  · exact initialised

theorem SceneInvariant.decides {rq : Prepared Tid}
    {s s' : RunQueueExecute Tid} (decision : rq.Decides s s')
    (invariant : rq.SceneInvariant s) : rq.SceneInvariant s' := by
  cases decision with
  | complete scene => exact invariant.sqTaskComplete _
  | completeoutright scene => exact invariant.sqTaskCompleteoutright _
  | skip scene => exact invariant.sqTaskSkip _ _
  | fail scene => exact invariant.sqTaskFail _ _
  | failoutright scene => exact invariant.sqTaskFailoutright _
  | updateHoldofftasks => exact invariant.updateHoldofftasks

/-- Every task has been processed and sorted into one of two sets, and
`summarise_scenequeue_errors` has nothing to say about it. -/
structure SceneComplete (s : RunQueueExecute Tid) : Prop where
  processed : ∀ tid ∈ rq.runtaskentries, tid ∈ s.tasksScenequeueDone
  sorted : ∀ tid ∈ rq.runtaskentries,
    Xor (tid ∈ s.tasksCovered) (tid ∈ s.tasksNotcovered)
  holdoffTasks : s.holdoffTasks = []
  neverMoved : ∀ tid, .neverMoved tid ∉ rq.sceneQueueErrors s
  neverProcessed : ∀ tid, .neverProcessed tid ∉ rq.sceneQueueErrors s

private theorem mem_sceneQueueErrors {tid : Tid} :
    (.neverMoved tid ∈ rq.sceneQueueErrors s ↔ tid ∈ rq.runtaskentries ∧
      tid ∉ s.tasksCovered ∧ tid ∉ s.tasksNotcovered) ∧
    (.neverProcessed tid ∈ rq.sceneQueueErrors s ↔ tid ∈ rq.runtaskentries ∧
      tid ∉ s.tasksScenequeueDone) := by
  constructor <;> simp [sceneQueueErrors, sceneErrors, taskErrors]

theorem SceneInvariant.run {rq : Prepared Tid}
    (run : Relation.ReflTransGen rq.Decides rq.initial s) :
    rq.SceneInvariant s := by
  induction run with
  | refl => exact .initial rq
  | tail _ decision invariant => exact invariant.decides decision

/-- Once every setscene task is decided, in any order, and the derived sets
are up to date, the scene queue is complete. -/
theorem decided_sceneComplete {s : RunQueueExecute Tid}
    (run : Relation.ReflTransGen rq.Decides rq.initial s)
    (decided : ∀ tid ∈ rq.runqSetsceneTids, s.Decided tid) :
    rq.SceneComplete (rq.updateHoldofftasks s) := by
  have invariant := (SceneInvariant.run run).updateHoldofftasks
  obtain ⟨covered, notcovered, holdoffTasks⟩ :=
    invariant.fresh (rq.updateHoldofftasks_fresh s)
  have stillDecided : ∀ tid ∈ rq.runqSetsceneTids,
      (rq.updateHoldofftasks s).Decided tid := by
    by_cases stale : s.holdoffNeedUpdate = true
    · obtain ⟨_, _, same⟩ := rq.updateHoldofftasks_eq s stale
      rw [same]
      exact decided
    · rw [updateHoldofftasks, if_neg stale]
      exact decided
  generalize rq.updateHoldofftasks s = final at *
  have processed : ∀ tid ∈ rq.runtaskentries,
      tid ∈ final.tasksScenequeueDone :=
    fun _ entry => invariant.all_done stillDecided entry
  have sorted : ∀ tid ∈ rq.runtaskentries,
      Xor (tid ∈ final.tasksCovered) (tid ∈ final.tasksNotcovered) := by
    intro tid entry
    rw [covered, notcovered]
    rcases invariant.covered_or_notcovered stillDecided entry with
      inside | outside
    · refine .inl ⟨inside, ?_⟩
      simp only [Prepared.covered, List.mem_filter, decide_eq_true_eq] at inside
      exact inside.2.1
    · refine .inr ⟨outside, fun inside => ?_⟩
      simp only [Prepared.covered, List.mem_filter, decide_eq_true_eq] at inside
      exact inside.2.1 outside
  refine ⟨processed, sorted, holdoffTasks ?_, ?_, ?_⟩
  · simp only [undecided, List.filter_eq_nil_iff, decide_eq_true_eq, not_not]
    exact stillDecided
  · intro tid missing
    obtain ⟨entry, uncovered, notUncovered⟩ :=
      rq.mem_sceneQueueErrors.1.mp missing
    rcases sorted tid entry with ⟨inside, _⟩ | ⟨inside, _⟩
    · exact uncovered inside
    · exact notUncovered inside
  · intro tid missing
    obtain ⟨entry, unprocessed⟩ := rq.mem_sceneQueueErrors.2.mp missing
    exact unprocessed (processed tid entry)

/-- A setscene task between a target and a real task. -/
def chain : Prepared (Fin 3) :=
  Setup.prepare
    (.plain
      { toTaskGraph := .ofDepends [0, 1, 2]
          (fun tid => if tid = 0 then [1] else if tid = 1 then [2] else [])
          (fun tid => 2 - tid.val) (by decide)
        runqSetsceneTids := [1]
        targetTids := [0]
        idepends := fun _ => []
        setscene_mem := by decide }
      (.bare _) fun tid => if tid = 0 then "image".toList
        else if tid = 1 then "libc".toList else "headers".toList)
    (by decide)

theorem decided_sceneComplete_chain :
    chain.SceneComplete (chain.updateHoldofftasks
      (chain.sqTaskFailoutright 1 chain.initial)) :=
  chain.decided_sceneComplete (.single (.failoutright (by decide)))
    (by decide)

end Prepared

end Nvbmc.RunQueue
