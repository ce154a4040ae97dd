import Nvbmc.RunQueue.SceneDecision

/-!
# What a decision changes

`scenequeue_updatecounters` adds failed tasks behind a failed hard dependency
and closes `tasks_scenequeue_done` under "all reverse dependencies are done";
`Passed` says this once, and everything about single decisions follows from it.
-/

namespace Nvbmc.RunQueue

open Nvbmc.Library

/-- The fields that no decision about a setscene task changes. -/
structure SceneFrame {Tid : Type} (s s' : RunQueueExecute Tid) : Prop where
  active : s'.stats.active = s.stats.active
  sqLive : s'.sqLive = s.sqLive
  updatedTaskhashQueue : s'.updatedTaskhashQueue = s.updatedTaskhashQueue
  pendingMigrations : s'.pendingMigrations = s.pendingMigrations
  runqBuildable : s'.runqBuildable = s.runqBuildable
  runqRunning : s'.runqRunning = s.runqRunning
  runqComplete : s'.runqComplete = s.runqComplete
  runqTasksrun : s'.runqTasksrun = s.runqTasksrun
  buildStamps : s'.buildStamps = s.buildStamps
  failedTids : s'.failedTids = s.failedTids
  sqDeferred : s'.sqDeferred = s.sqDeferred
  sqNeededHarddeps : s'.sqNeededHarddeps = s.sqNeededHarddeps
  holdoffTasks : s'.holdoffTasks = s.holdoffTasks
  sqdone : s'.sqdone = s.sqdone
  tasksCovered : s'.tasksCovered = s.tasksCovered
  tasksNotcovered : s'.tasksNotcovered = s.tasksNotcovered
  scenequeueNotneeded : s'.scenequeueNotneeded = s.scenequeueNotneeded
  schedBuildable : s'.schedBuildable = s.schedBuildable
  hash : s'.hash = s.hash
  unihash : s'.unihash = s.unihash
  stampfileHash : s'.stampfileHash = s.stampfileHash
  workers : s'.workers = s.workers

namespace SceneFrame

variable {Tid : Type} {s s' s'' : RunQueueExecute Tid}

theorem refl (s : RunQueueExecute Tid) : SceneFrame s s := by
  constructor <;> rfl

theorem trans (first : SceneFrame s s') (second : SceneFrame s' s'') :
    SceneFrame s s'' where
  active := second.active.trans first.active
  sqLive := second.sqLive.trans first.sqLive
  updatedTaskhashQueue :=
    second.updatedTaskhashQueue.trans first.updatedTaskhashQueue
  pendingMigrations := second.pendingMigrations.trans first.pendingMigrations
  runqBuildable := second.runqBuildable.trans first.runqBuildable
  runqRunning := second.runqRunning.trans first.runqRunning
  runqComplete := second.runqComplete.trans first.runqComplete
  runqTasksrun := second.runqTasksrun.trans first.runqTasksrun
  buildStamps := second.buildStamps.trans first.buildStamps
  failedTids := second.failedTids.trans first.failedTids
  sqDeferred := second.sqDeferred.trans first.sqDeferred
  sqNeededHarddeps := second.sqNeededHarddeps.trans first.sqNeededHarddeps
  holdoffTasks := second.holdoffTasks.trans first.holdoffTasks
  sqdone := second.sqdone.trans first.sqdone
  tasksCovered := second.tasksCovered.trans first.tasksCovered
  tasksNotcovered := second.tasksNotcovered.trans first.tasksNotcovered
  scenequeueNotneeded :=
    second.scenequeueNotneeded.trans first.scenequeueNotneeded
  schedBuildable := second.schedBuildable.trans first.schedBuildable
  hash := second.hash.trans first.hash
  unihash := second.unihash.trans first.unihash
  stampfileHash := second.stampfileHash.trans first.stampfileHash
  workers := second.workers.trans first.workers

end SceneFrame

namespace Prepared

variable {Tid : Type} [LinearOrder Tid] (rq : Prepared Tid)

theorem builtFrom : rq.BuiltFrom rq.build := by
  rcases rq.buildScenequeueData_eq (Nat.le_refl _) with
    ⟨build, returned, exact⟩ | ⟨failed, _⟩
  · have same : build = rq.build := Except.ok.inj (returned.symm.trans rq.built)
    exact same ▸ exact
  · rw [rq.built] at failed
    cases failed

theorem mem_sqHarddeps {tid dep : Tid} :
    tid ∈ rq.sqdata.sqHarddeps dep ↔
      tid ∈ rq.runqSetsceneTids ∧ dep ∈ rq.sqdata.sqHarddepsRev tid := by
  have exact := rq.builtFrom.harddeps
  exact exact.harddeps.trans
    ⟨fun pair => ⟨pair.1, exact.harddepsRev.mpr pair⟩,
      fun pair => exact.harddepsRev.mp pair.2⟩

/-- A non-setscene task is done once all of its reverse dependencies are. -/
def DoneClosed (done : List Tid) : Prop :=
  ∀ tid, tid ∉ rq.runqSetsceneTids → rq.revdeps tid ≠ [] →
    rq.revdeps tid ⊆ done → tid ∈ done

/-- The tasks `DoneClosed` still misses are queued. -/
def DoneUpTo (queued done : List Tid) : Prop :=
  ∀ tid, tid ∉ rq.runqSetsceneTids → rq.revdeps tid ≠ [] →
    rq.revdeps tid ⊆ done → tid ∈ done ∨ tid ∈ queued

private theorem mem_visitDeps (deps : List Tid) {done new : List Tid}
    {tid : Tid} :
    tid ∈ deps.foldl
      (fun new dep =>
        if dep ∈ rq.runqSetsceneTids ∨ dep ∈ done then new
        else if rq.revdeps dep ⊆ done then new.insert dep
        else new) new ↔
    tid ∈ new ∨ (tid ∈ deps ∧ tid ∉ rq.runqSetsceneTids ∧ tid ∉ done ∧
      rq.revdeps tid ⊆ done) := by
  induction deps generalizing new with
  | nil => simp
  | cons dep rest induction =>
      rw [List.foldl_cons, induction]
      split_ifs <;> grind

variable {acc : List Tid × List Tid}

private theorem visitDone_upTo {queued : List Tid}
    (tid : Tid) (upTo : rq.DoneUpTo (acc.2 ++ queued) acc.1) :
    rq.DoneUpTo ((rq.visitDone acc tid).2 ++ queued)
      (rq.visitDone acc tid).1 := by
  intro other normal above below
  simp only [visitDone, List.mem_append, mem_visitDeps] at below ⊢
  by_cases before : rq.revdeps other ⊆ acc.1
  · have found := upTo other normal above before
    rw [List.mem_append] at found
    grind
  -- the task just visited is the last reverse dependency of `other`
  · obtain ⟨revdep, member, missing⟩ : ∃ revdep ∈ rq.revdeps other,
        revdep ∉ acc.1 := by
      by_contra none
      push Not at none
      exact before none
    have same : revdep = tid := by
      have inserted := below member
      rw [List.mem_insert_iff] at inserted
      exact inserted.resolve_right missing
    have edge : other ∈ rq.depends tid := rq.mem_revdeps.mp (same ▸ member)
    grind

private theorem mem_foldl_visitDone {wave : List Tid} {tid : Tid} :
    tid ∈ (wave.foldl rq.visitDone acc).1 ↔ tid ∈ acc.1 ∨ tid ∈ wave := by
  induction wave generalizing acc with
  | nil => simp
  | cons head rest induction =>
      rw [List.foldl_cons, induction]
      simp only [visitDone, List.mem_insert_iff, List.mem_cons]
      grind

private theorem foldl_visitDone_new {wave : List Tid} {tid : Tid}
    (member : tid ∈ (wave.foldl rq.visitDone acc).2) :
    tid ∈ acc.2 ∨ ∃ above ∈ wave, tid ∈ rq.depends above := by
  induction wave generalizing acc with
  | nil => exact .inl member
  | cons head rest induction =>
      rcases induction member with visited | ⟨above, inside, edge⟩
      · simp only [visitDone, mem_visitDeps] at visited
        rcases visited with old | ⟨edge, _⟩
        · exact .inl old
        · exact .inr ⟨head, List.mem_cons_self, edge⟩
      · exact .inr ⟨above, List.mem_cons_of_mem _ inside, edge⟩

private theorem foldl_visitDone_upTo (wave : List Tid) {queued : List Tid}
    (upTo : rq.DoneUpTo (acc.2 ++ queued) acc.1) :
    rq.DoneUpTo ((wave.foldl rq.visitDone acc).2 ++ queued)
      (wave.foldl rq.visitDone acc).1 := by
  induction wave generalizing acc with
  | nil => exact upTo
  | cons head rest induction => exact induction (rq.visitDone_upTo head upTo)

theorem subset_markDone (fuel : ℕ) (next done : List Tid) :
    done ⊆ rq.markDone fuel next done := by
  induction fuel generalizing next done with
  | zero => exact fun _ => id
  | succ fuel induction =>
      intro tid member
      simp only [markDone]
      split_ifs
      · exact member
      · exact induction _ _ (rq.mem_foldl_visitDone.mpr (.inl member))

theorem next_subset_markDone (fuel : ℕ) (next done : List Tid) :
    next ⊆ rq.markDone (fuel + 1) next done := by
  intro tid member
  rw [markDone, if_neg (List.ne_nil_of_mem member)]
  exact rq.subset_markDone _ _ _
    (rq.mem_foldl_visitDone.mpr (.inr (mem_sorted.mpr member)))

/-- With more fuel than the longest chain below its first wave, the wave loop
ends because nothing is left to mark. -/
theorem markDone_closed {fuel : ℕ} {next done : List Tid}
    (shallow : ∀ tid ∈ next, rq.depth tid < fuel)
    (upTo : rq.DoneUpTo next done) :
    rq.DoneClosed (rq.markDone fuel next done) := by
  induction fuel generalizing next done with
  | zero =>
      have empty : next = [] := List.eq_nil_iff_forall_not_mem.mpr
        fun tid member => Nat.not_lt_zero _ (shallow tid member)
      subst empty
      exact fun tid normal above below =>
        (upTo tid normal above below).resolve_right List.not_mem_nil
  | succ fuel induction =>
      simp only [markDone]
      split_ifs with empty
      · subst empty
        exact fun tid normal above below =>
          (upTo tid normal above below).resolve_right List.not_mem_nil
      · apply induction
        · intro tid member
          rcases rq.foldl_visitDone_new member with none | found
          · exact absurd none List.not_mem_nil
          · obtain ⟨above, inside, edge⟩ := found
            have higher := shallow above (mem_sorted.mp inside)
            have lower := rq.depth_lt edge
            omega
        · intro tid normal above below
          have started : rq.DoneUpTo ((done, ([] : List Tid)).2 ++ next)
              (done, ([] : List Tid)).1 := upTo
          have found := rq.foldl_visitDone_upTo (sorted next) started tid
            normal above below
          rcases found with marked | found
          · exact .inl marked
          · rcases List.mem_append.mp found with new | old
            · exact .inr new
            · exact .inl (rq.mem_foldl_visitDone.mpr
                (.inr (mem_sorted.mpr old)))

/-- `dep` was failed because a hard dependency is `task`, or was itself
undecided before. -/
structure FailedBehind (task : Tid) (s s' : RunQueueExecute Tid) (dep : Tid) :
    Prop where
  scene : dep ∈ rq.runqSetsceneTids
  undecided : ¬ s.Decided dep
  sqRunning : dep ∈ s'.sqRunning
  tasksScenequeueDone : dep ∈ s'.tasksScenequeueDone
  behind : ∃ hard ∈ rq.sqdata.sqHarddepsRev dep,
    hard = task ∨ ¬ s.Decided hard

/-- What `scenequeue_updatecounters` on `task` can change. -/
structure Passed (task : Tid) (s s' : RunQueueExecute Tid) : Prop
    extends SceneFrame s s' where
  state : s'.state = s.state
  events : s'.events = s.events
  scenequeueCovered : s'.scenequeueCovered = s.scenequeueCovered
  scenequeueNotcovered : s.scenequeueNotcovered ⊆ s'.scenequeueNotcovered
  sqRunning : s.sqRunning ⊆ s'.sqRunning
  tasksScenequeueDone : s.tasksScenequeueDone ⊆ s'.tasksScenequeueDone
  failed : ∀ {dep}, dep ∈ s'.scenequeueNotcovered →
    dep ∈ s.scenequeueNotcovered ∨ rq.FailedBehind task s s' dep
  doneClosed : rq.DoneClosed s.tasksScenequeueDone →
    rq.DoneClosed s'.tasksScenequeueDone

namespace Passed

variable {rq} {task dep : Tid} {s s' s'' : RunQueueExecute Tid}

theorem refl (task : Tid) (s : RunQueueExecute Tid) : rq.Passed task s s where
  toSceneFrame := .refl s
  state := rfl
  events := rfl
  scenequeueCovered := rfl
  scenequeueNotcovered := fun _ => id
  sqRunning := fun _ => id
  tasksScenequeueDone := fun _ => id
  failed := .inl
  doneClosed := id

theorem decided (passed : rq.Passed task s s') (old : s.Decided dep) :
    s'.Decided dep :=
  old.imp (fun covered => passed.scenequeueCovered ▸ covered)
    fun notcovered => passed.scenequeueNotcovered notcovered

theorem trans (first : rq.Passed task s s') (second : rq.Passed task s' s'') :
    rq.Passed task s s'' where
  toSceneFrame := first.toSceneFrame.trans second.toSceneFrame
  state := second.state.trans first.state
  events := second.events.trans first.events
  scenequeueCovered := second.scenequeueCovered.trans first.scenequeueCovered
  scenequeueNotcovered := fun _ member =>
    second.scenequeueNotcovered (first.scenequeueNotcovered member)
  sqRunning := fun _ member => second.sqRunning (first.sqRunning member)
  tasksScenequeueDone := fun _ member =>
    second.tasksScenequeueDone (first.tasksScenequeueDone member)
  failed := by
    intro dep member
    rcases second.failed member with old | behind
    · exact (first.failed old).imp_right fun behind =>
        { behind with
          sqRunning := second.sqRunning behind.sqRunning
          tasksScenequeueDone :=
            second.tasksScenequeueDone behind.tasksScenequeueDone }
    · refine .inr { behind with
        undecided := fun old => behind.undecided (first.decided old)
        behind := ?_ }
      obtain ⟨hard, edge, unmet⟩ := behind.behind
      exact ⟨hard, edge, unmet.imp_right fun undecided old =>
        undecided (first.decided old)⟩
  doneClosed := fun closed => second.doneClosed (first.doneClosed closed)

end Passed

theorem checkStamp_eq (s : RunQueueExecute Tid) (tid : Tid)
    (setscene recurse : Bool) :
    (rq.checkStamp s tid setscene recurse).2 =
      { s with
        stampcache := (rq.checkStamp s tid setscene recurse).2.stampcache
        consults := s.consults + 1 } :=
  rfl

theorem checkSetsceneStamps_eq (s : RunQueueExecute Tid) (tid : Tid) :
    ∃ stampcache consults, (rq.checkSetsceneStamps s tid).2 =
      { s with stampcache := stampcache, consults := consults } := by
  unfold Setup.checkSetsceneStamps
  split_ifs with noexec
  · exact ⟨_, _, rfl⟩
  · dsimp only
    split_ifs
    · exact ⟨_, _, rq.checkStamp_eq ..⟩
    · exact ⟨_, _, rfl⟩

private theorem checked_passed (task : Tid) (s : RunQueueExecute Tid)
    (stampcache : Dict Tid Bool) (consults : ℕ) :
    rq.Passed task s
      { s with stampcache := stampcache, consults := consults } where
  toSceneFrame := by constructor <;> rfl
  state := rfl
  events := rfl
  scenequeueCovered := rfl
  scenequeueNotcovered := fun _ => id
  sqRunning := fun _ => id
  tasksScenequeueDone := fun _ => id
  failed := .inl
  doneClosed := id

private theorem countDecision_passed (task : Tid) (s : RunQueueExecute Tid) :
    rq.Passed task s (rq.countDecision task s) where
  toSceneFrame := by constructor <;> rfl
  state := rfl
  events := rfl
  scenequeueCovered := rfl
  scenequeueNotcovered := fun _ => id
  sqRunning := fun _ => id
  tasksScenequeueDone := rq.subset_markDone _ _ _
  failed := .inl
  doneClosed := by
    intro closed
    apply rq.markDone_closed
    · have bound := rq.depth_le task
      simp only [List.mem_singleton, forall_eq]
      omega
    · exact fun tid normal above below =>
        .inl (closed tid normal above below)

private theorem mem_countDecision (task : Tid) (s : RunQueueExecute Tid) :
    task ∈ (rq.countDecision task s).tasksScenequeueDone :=
  rq.next_subset_markDone rq.runtaskentries.length [task]
    s.tasksScenequeueDone List.mem_cons_self

variable {s : RunQueueExecute Tid}

theorem undecided_markFailoutright {dep : Tid}
    (scene : dep ∈ rq.runqSetsceneTids) (undecided : ¬ s.Decided dep) :
    (rq.undecided (markFailoutright dep s)).length <
      (rq.undecided s).length := by
  have fewer : rq.undecided (markFailoutright dep s) =
      (rq.undecided s).filter (· ≠ dep) := by
    simp only [Prepared.undecided, List.filter_filter]
    congr 1
    funext tid
    simp only [RunQueueExecute.Decided, markFailoutright, List.mem_insert_iff]
    by_cases same : tid = dep <;> simp [same]
  rw [fewer, List.length_filter_lt_length_iff_exists]
  exact ⟨dep, by simp [Prepared.undecided, scene, undecided], by simp⟩

variable {s s' : RunQueueExecute Tid}

theorem Passed.undecided_le {task : Tid} (passed : rq.Passed task s s') :
    (rq.undecided s').length ≤ (rq.undecided s).length := by
  apply List.Sublist.length_le
  apply List.monotone_filter_right
  intro tid undecided
  simp only [decide_eq_true_eq] at undecided ⊢
  exact fun old => undecided (passed.decided old)

private theorem markFailoutright_passed {task dep : Tid}
    (hard : dep ∈ rq.sqdata.sqHarddeps task) (undecided : ¬ s.Decided dep)
    (passed : rq.Passed dep (markFailoutright dep s) s')
    (done : dep ∈ s'.tasksScenequeueDone) : rq.Passed task s s' := by
  have marked : ∀ {tid}, ¬ (markFailoutright dep s).Decided tid →
      ¬ s.Decided tid := by
    intro tid unmarked old
    exact unmarked (old.imp_right fun member =>
      List.mem_insert_iff.mpr (.inr member))
  obtain ⟨scene, edge⟩ := rq.mem_sqHarddeps.mp hard
  exact
    { toSceneFrame :=
        SceneFrame.trans (by constructor <;> rfl) passed.toSceneFrame
      state := passed.state
      events := passed.events
      scenequeueCovered := passed.scenequeueCovered
      scenequeueNotcovered := fun _ member =>
        passed.scenequeueNotcovered (List.mem_insert_iff.mpr (.inr member))
      sqRunning := fun _ member =>
        passed.sqRunning (List.mem_insert_iff.mpr (.inr member))
      tasksScenequeueDone := passed.tasksScenequeueDone
      failed := by
        intro tid member
        rcases passed.failed member with old | behind
        · rcases List.mem_insert_iff.mp old with same | old
          · subst same
            exact .inr
              { scene := scene
                undecided := undecided
                sqRunning :=
                  passed.sqRunning (List.mem_insert_iff.mpr (.inl rfl))
                tasksScenequeueDone := done
                behind := ⟨task, edge, .inl rfl⟩ }
          · exact .inl old
        · obtain ⟨hard, edge, unmet⟩ := behind.behind
          refine .inr { behind with
            undecided := marked behind.undecided
            behind := ⟨hard, edge, .inr ?_⟩ }
          rcases unmet with same | unmet
          · exact same ▸ undecided
          · exact marked unmet
      doneClosed := passed.doneClosed }

/-- `check_setscene_stamps` needs no execution or finds a stamp. -/
def stampFound (s : RunQueueExecute Tid) (tid : Tid) : Bool :=
  (rq.checkSetsceneStamps s tid).1.1 || (rq.checkSetsceneStamps s tid).1.2

/-- One step of the loop over hard dependencies: the dependent task was decided
before, has a stamp, or is failed. -/
theorem failHarddep_cases
    (failoutright : Tid → RunQueueExecute Tid → RunQueueExecute Tid)
    (s : RunQueueExecute Tid) (dep : Tid) :
    (s.Decided dep ∧ rq.failHarddep failoutright s dep = s) ∨
      ∃ stampcache consults,
        (rq.stampFound s dep = true ∧ rq.failHarddep failoutright s dep =
          { s with stampcache := stampcache, consults := consults }) ∨
        (¬ s.Decided dep ∧ rq.failHarddep failoutright s dep = failoutright dep
            { s with stampcache := stampcache, consults := consults }) := by
  obtain ⟨stampcache, consults, same⟩ := rq.checkSetsceneStamps_eq s dep
  unfold failHarddep
  split_ifs with decided
  · exact .inl ⟨decided, rfl⟩
  · refine .inr ⟨stampcache, consults, ?_⟩
    dsimp only
    rw [same]
    split_ifs with found
    · exact .inl ⟨found, rfl⟩
    · exact .inr ⟨decided, rfl⟩

theorem failHarddep_passed {task dep : Tid}
    {failoutright : Tid → RunQueueExecute Tid → RunQueueExecute Tid}
    (hard : dep ∈ rq.sqdata.sqHarddeps task) (recursion : ∀ checked,
      (rq.undecided (markFailoutright dep checked)).length <
        (rq.undecided s).length →
      rq.Passed dep (markFailoutright dep checked)
          (failoutright dep checked) ∧
        dep ∈ (failoutright dep checked).tasksScenequeueDone) :
    rq.Passed task s (rq.failHarddep failoutright s dep) := by
  rcases rq.failHarddep_cases failoutright s dep with ⟨_, same⟩ |
    ⟨stampcache, consults, ⟨_, same⟩ | ⟨undecided, same⟩⟩
  · rw [same]
    exact .refl task s
  · rw [same]
    exact rq.checked_passed task s stampcache consults
  · refine .trans (rq.checked_passed task s stampcache consults) ?_
    rw [same]
    obtain ⟨behind, done⟩ := recursion { s with
      stampcache := stampcache, consults := consults }
      (rq.undecided_markFailoutright (s := { s with
        stampcache := stampcache, consults := consults })
        (rq.mem_sqHarddeps.mp hard).1 undecided)
    exact rq.markFailoutright_passed hard undecided behind done

/-- With fuel for every undecided task, `scenequeue_updatecounters` passes the
decision on and marks its task done. -/
theorem scenequeueUpdatecounters_passed {fuel : ℕ} (task : Tid) (fail : Bool)
    (enough : (rq.undecided s).length < fuel) :
    rq.Passed task s (rq.scenequeueUpdatecounters fuel task fail s) ∧
      task ∈ (rq.scenequeueUpdatecounters fuel task fail
        s).tasksScenequeueDone ∧
      (rq.scenequeueUpdatecounters fuel task fail s).holdoffNeedUpdate =
        true := by
  induction fuel generalizing task fail s with
  | zero => exact absurd enough (Nat.not_lt_zero _)
  | succ fuel induction =>
      rw [scenequeueUpdatecounters]
      refine ⟨.trans ?_ (rq.countDecision_passed ..),
        rq.mem_countDecision .., rfl⟩
      cases fail with
      | false => exact .refl task s
      | true =>
          apply List.foldlRecOn (motive := rq.Passed task s) _ _ (.refl task s)
          intro before passed dep member
          rw [mem_sorted] at member
          have fewer := passed.undecided_le
          refine passed.trans (rq.failHarddep_passed member ?_)
          intro checked less
          obtain ⟨behind, done, _⟩ := induction dep true
            (s := markFailoutright dep checked) (by omega)
          exact ⟨behind, done⟩

/-- `decisionFuel` is enough in every state. -/
theorem updatecounters_passed (task : Tid) (fail : Bool)
    (s : RunQueueExecute Tid) :
    rq.Passed task s
        (rq.scenequeueUpdatecounters rq.decisionFuel task fail s) ∧
      task ∈ (rq.scenequeueUpdatecounters rq.decisionFuel task fail
        s).tasksScenequeueDone ∧
      (rq.scenequeueUpdatecounters rq.decisionFuel task fail
        s).holdoffNeedUpdate = true :=
  rq.scenequeueUpdatecounters_passed task fail
    (Nat.lt_succ_of_le (List.length_filter_le _ _))

/-- The state but for what the answers of the world change: the results of
checking stamps and packages, and the fakeroot workers. -/
def Rechecked (s s' : RunQueueExecute Tid) : Prop :=
  ∃ stampcache consults stamppresent valid noexec outrightfail fakeworker,
    s' = { s with
      stampcache := stampcache
      consults := consults
      stamppresent := stamppresent
      valid := valid
      noexec := noexec
      outrightfail := outrightfail
      fakeworker := fakeworker }

omit [LinearOrder Tid] rq in
theorem Rechecked.refl (s : RunQueueExecute Tid) : Rechecked s s :=
  ⟨_, _, _, _, _, _, _, rfl⟩

omit [LinearOrder Tid] rq in
theorem Rechecked.trans {s s' s'' : RunQueueExecute Tid}
    (first : Rechecked s s') (second : Rechecked s' s'') :
    Rechecked s s'' := by
  obtain ⟨_, _, _, _, _, _, _, rfl⟩ := first
  obtain ⟨_, _, _, _, _, _, _, rfl⟩ := second
  exact ⟨_, _, _, _, _, _, _, rfl⟩

theorem checkSetsceneStamps_rechecked (s : RunQueueExecute Tid) (tid : Tid) :
    Rechecked s (rq.checkSetsceneStamps s tid).2 := by
  obtain ⟨stampcache, consults, same⟩ := rq.checkSetsceneStamps_eq s tid
  exact ⟨_, _, _, _, _, _, _, same⟩

theorem validateHashes_rechecked (s : RunQueueExecute Tid)
    (tocheck : List Tid) : Rechecked s (rq.validateHashes s tocheck).2 := by
  unfold Setup.validateHashes
  split <;> exact ⟨_, _, _, _, _, _, _, rfl⟩

omit rq in
theorem updateOutrightfail_rechecked (s : RunQueueExecute Tid) (tid : Tid) :
    Rechecked s (updateOutrightfail s tid) := by
  unfold updateOutrightfail
  split_ifs <;> exact ⟨_, _, _, _, _, _, _, rfl⟩

theorem stampFound_congr (tid : Tid) (consults : s'.consults = s.consults)
    (stampcache : s'.stampcache = s.stampcache)
    (stampfileHash : s'.stampfileHash = s.stampfileHash) :
    rq.stampFound s' tid = rq.stampFound s tid := by
  simp only [stampFound, Setup.checkSetsceneStamps, Setup.checkStamp,
    RunQueueExecute.consulted, consults, stampcache, stampfileHash]
  split_ifs <;> simp [*]

/-- One task in the first loop of `update_scenequeue_data`: it is checked, and
skipped when a stamp is found. -/
theorem updateStamps_cases (acc : RunQueueExecute Tid × List Tid)
    (tid : Tid) : ∃ checked, Rechecked acc.1 checked ∧
      ((rq.updateStamps acc tid).1 = checked ∨
        ∃ reason, reason ≠ .notNeeded ∧ rq.stampFound acc.1 tid = true ∧
          (rq.updateStamps acc tid).1 = rq.sqTaskSkip tid reason checked) := by
  have discarded : Rechecked acc.1 { acc.1 with
      stamppresent := discard acc.1.stamppresent tid
      valid := discard acc.1.valid tid
      outrightfail := discard acc.1.outrightfail tid } :=
    ⟨_, _, _, _, _, _, _, rfl⟩
  have checked := discarded.trans (rq.checkSetsceneStamps_rechecked _ tid)
  have found : rq.stampFound { acc.1 with
      stamppresent := discard acc.1.stamppresent tid
      valid := discard acc.1.valid tid
      outrightfail := discard acc.1.outrightfail tid } tid =
        rq.stampFound acc.1 tid :=
    rq.stampFound_congr tid rfl rfl rfl
  rw [stampFound] at found
  simp only [updateStamps]
  split_ifs with noexec present
  · exact ⟨_, checked.trans ⟨_, _, _, _, _, _, _, rfl⟩,
      .inr ⟨.noexec, by simp, by rw [← found, noexec]; rfl, rfl⟩⟩
  · exact ⟨_, checked.trans ⟨_, _, _, _, _, _, _, rfl⟩,
      .inr ⟨.validStamp, by simp, by rw [← found, present, Bool.or_true],
        rfl⟩⟩
  · exact ⟨_, checked, .inl rfl⟩

/-- Behind its first loop `update_scenequeue_data` only records results. -/
theorem updateScenequeueData_rechecked (tids : List Tid)
    (s : RunQueueExecute Tid) :
    Rechecked ((sorted tids).foldl rq.updateStamps (s, [])).1
      (rq.updateScenequeueData tids s) := by
  refine .trans (rq.validateHashes_rechecked _
    ((sorted tids).foldl rq.updateStamps (s, [])).2) ?_
  refine List.foldlRecOn (motive := Rechecked _) _ _ ?_
    fun before kept tid _ =>
      kept.trans (updateOutrightfail_rechecked before tid)
  exact ⟨_, _, _, _, _, _, _, rfl⟩

/-- A property that survives new results of checks and every skip survives
`update_scenequeue_data`. -/
theorem updateScenequeueData_induction {motive : RunQueueExecute Tid → Prop}
    {tids : List Tid} (checked : ∀ s s', Rechecked s s' → motive s → motive s')
    (skip : ∀ s tid reason, tid ∈ tids → reason ≠ .notNeeded → motive s →
      motive (rq.sqTaskSkip tid reason s)) (initial : motive s) :
    motive (rq.updateScenequeueData tids s) := by
  refine checked _ _ (rq.updateScenequeueData_rechecked tids s) ?_
  refine List.foldlRecOn
    (motive := fun acc : RunQueueExecute Tid × List Tid => motive acc.1)
    _ _ initial fun acc kept tid member => ?_
  rw [mem_sorted] at member
  obtain ⟨after, rechecked, same | ⟨reason, needed, -, same⟩⟩ :=
    rq.updateStamps_cases acc tid
  · exact same ▸ checked _ _ rechecked kept
  · exact same ▸ skip _ _ _ member needed (checked _ _ rechecked kept)

theorem updateScenequeueData_single (tid : Tid) (s : RunQueueExecute Tid) :
    Rechecked s (rq.updateScenequeueData [tid] s) ∨
      ∃ checked reason, Rechecked s checked ∧ reason ≠ .notNeeded ∧
        rq.stampFound s tid = true ∧
        Rechecked (rq.sqTaskSkip tid reason checked)
          (rq.updateScenequeueData [tid] s) := by
  have recorded := rq.updateScenequeueData_rechecked [tid] s
  have single : (sorted [tid]).foldl rq.updateStamps (s, []) =
      rq.updateStamps (s, []) tid := rfl
  rw [single] at recorded
  obtain ⟨checked, rechecked, same | ⟨reason, needed, found, same⟩⟩ :=
    rq.updateStamps_cases (s, []) tid
  · exact .inl (rechecked.trans (same ▸ recorded))
  · exact .inr ⟨checked, reason, rechecked, needed, found, same ▸ recorded⟩

omit rq in
theorem foldl_setbuildable
    {visit : RunQueueExecute Tid → Tid → RunQueueExecute Tid}
    (each : ∀ s tid, visit s tid = s ∨ visit s tid = s.setbuildable tid)
    (tids : List Tid) (s : RunQueueExecute Tid) :
    ∃ runqBuildable schedBuildable,
      tids.foldl visit s = { s with
        runqBuildable := runqBuildable, schedBuildable := schedBuildable } := by
  refine List.foldlRecOn (motive := fun s' : RunQueueExecute Tid =>
    ∃ runqBuildable schedBuildable, s' = { s with
      runqBuildable := runqBuildable, schedBuildable := schedBuildable })
    tids _ ⟨s.runqBuildable, s.schedBuildable, rfl⟩ ?_
  rintro before ⟨runqBuildable, schedBuildable, rfl⟩ tid _
  rcases each _ tid with same | marked
  · exact ⟨_, _, same⟩
  · exact ⟨_, _, marked⟩

theorem setbuildableReady_each (s : RunQueueExecute Tid) (tid : Tid) :
    rq.setbuildableReady s tid = s ∨
      rq.setbuildableReady s tid = s.setbuildable tid := by
  unfold setbuildableReady
  split_ifs <;> simp

end Prepared

end Nvbmc.RunQueue
